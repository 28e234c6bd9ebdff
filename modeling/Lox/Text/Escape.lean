/-!
# Escapes in string literals

`decode` reads the raw characters between the quotes. A backslash starts an escape: `\n`, `\r`,
`\t`, `\b`, one to three octal digits, or any other character, which then stands for itself.
`encode` writes a text so that it can stand between quotes and reads back.
-/
namespace Lox.Escape

inductive Fault where
  | unterminated | outOfBounds
  deriving DecidableEq, Repr

def octalDigit? (c : Char) : Option Nat :=
  if '0' ≤ c ∧ c ≤ '7' then some (c.toNat - '0'.toNat) else none

/-- What a character after a backslash stands for, octal digits apart. -/
def simple (c : Char) : Char :=
  match c with
  | 'n' => '\n'
  | 'r' => '\r'
  | 't' => '\t'
  | 'b' => '\x08'
  | _ => c

/-- Puts the character with this code in front. -/
def push (code : Nat) (rest : Except Fault (List Char)) : Except Fault (List Char) :=
  if code ≤ 255 then (Char.ofNat code :: ·) <$> rest else .error .outOfBounds

def decode : List Char → Except Fault (List Char)
  | [] => .ok []
  | [c] => if c = '\\' then .error .unterminated else .ok [c]
  | c :: d :: rest =>
    if c ≠ '\\' then (c :: ·) <$> decode (d :: rest)
    else match octalDigit? d with
      | none => (simple d :: ·) <$> decode rest
      | some a =>
        match rest with
        | [] => push a (.ok [])
        | e :: rest₁ =>
          match octalDigit? e with
          | none => push a (decode (e :: rest₁))
          | some b =>
            match rest₁ with
            | [] => push (a * 8 + b) (.ok [])
            | f :: rest₂ =>
              match octalDigit? f with
              | none => push (a * 8 + b) (decode (f :: rest₂))
              | some c => push ((a * 8 + b) * 8 + c) (decode rest₂)

def encode : List Char → List Char
  | [] => []
  | c :: rest =>
    if c = '\\' then '\\' :: '\\' :: encode rest
    else if c = '"' then '\\' :: '0' :: '4' :: '2' :: encode rest
    else c :: encode rest

end Lox.Escape
