/-!
# Decoding of UTF-8

Bytes are cut into characters. Where that fails the longest beginning of a character is taken
as one fault, so that the next cut starts at the first byte that cannot belong to it.
-/
namespace Lox.Utf8

/-- The beginning of a byte sequence. -/
inductive Cut where
  | char (c : Char) (size : Nat)
  | invalid (size : Nat)
  /-- The input ends within a character. -/
  | incomplete
  deriving DecidableEq, Repr

/-- Reads `more` continuation bytes, the first of them between `low` and `high`, after `size` bytes
with the given value. -/
def continuation (value size low high : Nat) : Nat → List UInt8 → Cut
  | 0, _ => .char (Char.ofNat value) size
  | _ + 1, [] => .incomplete
  | more + 1, b :: rest =>
    if low ≤ b.toNat ∧ b.toNat ≤ high then
      continuation (value * 64 + b.toNat % 64) (size + 1) 0x80 0xbf more rest
    else .invalid size

/-- The second byte is restricted after some first bytes, so that no character has two forms and
no surrogate and nothing beyond the last code point has one. -/
def cut (first : UInt8) (rest : List UInt8) : Cut :=
  let b := first.toNat
  if b < 0x80 then .char (Char.ofNat b) 1
  else if b < 0xc2 then .invalid 1
  else if b < 0xe0 then continuation (b % 32) 1 0x80 0xbf 1 rest
  else if b = 0xe0 then continuation (b % 16) 1 0xa0 0xbf 2 rest
  else if b = 0xed then continuation (b % 16) 1 0x80 0x9f 2 rest
  else if b < 0xf0 then continuation (b % 16) 1 0x80 0xbf 2 rest
  else if b = 0xf0 then continuation (b % 8) 1 0x90 0xbf 3 rest
  else if b < 0xf4 then continuation (b % 8) 1 0x80 0xbf 3 rest
  else if b = 0xf4 then continuation (b % 8) 1 0x80 0x8f 3 rest
  else .invalid 1

/-- Where decoding fails. Without a size the input ends within a character. -/
structure Fault where
  index : Nat
  size : Option Nat
  deriving DecidableEq, Repr

def Fault.message (f : Fault) : String :=
  match f.size with
  | some size => "invalid utf-8 sequence of " ++ size.repr ++ " bytes from index " ++ f.index.repr
  | none => "incomplete utf-8 byte sequence from index " ++ f.index.repr

/-- The characters of a byte sequence that begins at `index`, or the first fault. -/
def decodeFrom (index : Nat) : List UInt8 → Except Fault (List Char)
  | [] => .ok []
  | first :: rest =>
    match cut first rest with
    | .char c size => (c :: ·) <$> decodeFrom (index + size) (rest.drop (size - 1))
    | .invalid size => .error ⟨index, some size⟩
    | .incomplete => .error ⟨index, none⟩
termination_by bytes => bytes.length
decreasing_by simp only [List.length_drop, List.length_cons]; omega

def decode (bytes : List UInt8) : Except Fault String := String.ofList <$> decodeFrom 0 bytes

/-- Stands for bytes that are no character. -/
def replacement : Char := '\ufffd'

/-- The characters of a byte sequence with every fault replaced. -/
def replaceFaults : List UInt8 → List Char
  | [] => []
  | first :: rest =>
    match cut first rest with
    | .char c size => c :: replaceFaults (rest.drop (size - 1))
    | .invalid size => replacement :: replaceFaults (rest.drop (size - 1))
    | .incomplete => [replacement]
termination_by bytes => bytes.length
decreasing_by all_goals simp only [List.length_drop, List.length_cons]; omega

def decodeLossy (bytes : ByteArray) : String :=
  match String.fromUTF8? bytes with
  | some text => text
  | none => String.ofList (replaceFaults bytes.toList)

end Lox.Utf8
