import Lox.Diagnostic
import Lox.Text.Escape
import Lox.Token

/-!
# From characters to tokens

The source is cut from left to right into pieces: blanks, comments, tokens and faulty stretches.
No character is lost, `Piece.next_text`, and a piece is never empty, so the cutting ends.
-/
namespace Lox

namespace Character

def isDigit (c : Char) : Bool := '0' ≤ c && c ≤ '9'

/-- Letters are those of ASCII, and the underscore. -/
def isLetter (c : Char) : Bool := ('a' ≤ c && c ≤ 'z') || ('A' ≤ c && c ≤ 'Z') || c = '_'

def isWordChar (c : Char) : Bool := isLetter c || isDigit c

def isBlank (c : Char) : Bool := c = ' ' || c = '\r' || c = '\t' || c = '\n'

end Character

open Character

/-- What a stretch of the source is. -/
inductive Content where
  | blank
  | comment
  | token (kind : Kind)
  | fault (cause : LexicalError)
  deriving DecidableEq, Repr

structure Piece where
  content : Content
  text : List Char
  deriving DecidableEq, Repr

/-- The number that digits with at most one point between them denote. -/
def digitsValue (digits : List Char) : Nat :=
  digits.foldl (fun n c => n * 10 + (c.toNat - '0'.toNat)) 0

namespace Content

/-- Digits without a point; the limit is that of a signed 64-bit integer. -/
def ofInteger (digits : List Char) : Content :=
  let n := digitsValue digits
  if n ≤ Numeral.greatest then token (.number (.integer n)) else fault .numberOutOfRange

/-- The characters between two quotes. -/
def ofQuoted (raw : List Char) : Content :=
  match Escape.decode raw with
  | .ok value => token (.string (String.ofList value))
  | .error .unterminated => fault .unterminatedEscape
  | .error .outOfBounds => fault .octalOutOfBounds

/-- The operator that a character is by itself. -/
def operator? : Char → Option Kind
  | '(' => some .leftParen
  | ')' => some .rightParen
  | '\x7b' => some .leftBrace
  | '\x7d' => some .rightBrace
  | ',' => some .comma
  | '.' => some .dot
  | '-' => some .minus
  | '+' => some .plus
  | ';' => some .semicolon
  | '*' => some .star
  | '%' => some .percent
  | '!' => some .bang
  | '=' => some .equal
  | '<' => some .less
  | '>' => some .greater
  | '/' => some .slash
  | _ => none

/-- The operator that a character is with an equals sign after it. -/
def withEqual? : Char → Option Kind
  | '!' => some .bangEqual
  | '=' => some .equalEqual
  | '<' => some .lessEqual
  | '>' => some .greaterEqual
  | _ => none

end Content

namespace Piece

/-- A number is a run of digits, and a point if a digit follows it. -/
def number (c : Char) (rest : List Char) : Piece × List Char :=
  let whole := c :: rest.takeWhile isDigit
  match rest.dropWhile isDigit with
  | '.' :: d :: more =>
    if isDigit d then
      let places := d :: more.takeWhile isDigit
      (⟨.token (.number (.fraction (digitsValue (whole ++ places)) places.length)),
        whole ++ '.' :: places⟩, more.dropWhile isDigit)
    else (⟨.ofInteger whole, whole⟩, '.' :: d :: more)
  | more => (⟨.ofInteger whole, whole⟩, more)

/-- A string ends at the next quote, whatever stands before it. -/
def quoted (rest : List Char) : Piece × List Char :=
  let raw := rest.takeWhile (· ≠ '"')
  match rest.dropWhile (· ≠ '"') with
  | quote :: more => (⟨.ofQuoted raw, '"' :: raw ++ [quote]⟩, more)
  | [] => (⟨.fault .unterminatedString, '"' :: raw⟩, [])

def word (c : Char) (rest : List Char) : Piece × List Char :=
  let letters := c :: rest.takeWhile isWordChar
  (⟨.token (.ofWord (String.ofList letters)), letters⟩, rest.dropWhile isWordChar)

/-- A comment ends before the next newline. -/
def comment (rest : List Char) : Piece × List Char :=
  (⟨.comment, '/' :: '/' :: rest.takeWhile (· ≠ '\n')⟩, rest.dropWhile (· ≠ '\n'))

/-- Operators of one or two characters, and all that no token begins with. -/
def operator (c : Char) (rest : List Char) : Piece × List Char :=
  match Content.withEqual? c, rest with
  | some kind, '=' :: more => (⟨.token kind, [c, '=']⟩, more)
  | _, _ =>
    match Content.operator? c with
    | some kind => (⟨.token kind, [c]⟩, rest)
    | none => (⟨.fault (.unexpectedCharacter c), [c]⟩, rest)

/-- Cuts the first piece off a text that begins with `c`. -/
def next (c : Char) (rest : List Char) : Piece × List Char :=
  if isBlank c then (⟨.blank, [c]⟩, rest)
  else if isLetter c then word c rest
  else if isDigit c then number c rest
  else if c = '"' then quoted rest
  else match c, rest with
    | '/', '/' :: more => comment more
    | _, _ => operator c rest

theorem number_text (c : Char) (rest : List Char) :
    (number c rest).1.text ++ (number c rest).2 = c :: rest := by
  have h := List.takeWhile_append_dropWhile (p := isDigit) (l := rest)
  unfold number
  split
  · next d more heq =>
    rw [heq] at h
    have h' := List.takeWhile_append_dropWhile (p := isDigit) (l := more)
    dsimp only
    split
    · simp [h', h]
    · simp [h]
  · simp [h]

theorem quoted_text (rest : List Char) :
    (quoted rest).1.text ++ (quoted rest).2 = '"' :: rest := by
  have h := List.takeWhile_append_dropWhile (p := (· ≠ '"')) (l := rest)
  unfold quoted
  split
  · next heq => rw [heq] at h; simpa using h
  · next heq => rw [heq] at h; simpa using h

theorem word_text (c : Char) (rest : List Char) :
    (word c rest).1.text ++ (word c rest).2 = c :: rest := by
  simp [word]

theorem comment_text (rest : List Char) :
    (comment rest).1.text ++ (comment rest).2 = '/' :: '/' :: rest := by
  simp [comment]

theorem operator_text (c : Char) (rest : List Char) :
    (operator c rest).1.text ++ (operator c rest).2 = c :: rest := by
  unfold operator
  split
  · rfl
  · split <;> rfl

/-- A piece and what follows it are the text that was cut. -/
theorem next_text (c : Char) (rest : List Char) :
    (next c rest).1.text ++ (next c rest).2 = c :: rest := by
  unfold next
  split
  · rfl
  split
  · exact word_text c rest
  split
  · exact number_text c rest
  split
  · next h => rw [h]; exact quoted_text rest
  split
  · exact comment_text _
  · exact operator_text c rest

theorem next_ne_nil (c : Char) (rest : List Char) : (next c rest).1.text ≠ [] := by
  unfold next
  split
  · simp
  split
  · simp [word]
  split
  · unfold number
    split
    · dsimp only
      split <;> simp
    · simp
  split
  · unfold quoted
    split <;> simp
  split
  · simp [comment]
  · unfold operator
    split
    · simp
    · split <;> simp

theorem next_shorter (c : Char) (rest : List Char) :
    (next c rest).2.length < (c :: rest).length := by
  have h := congrArg List.length (next_text c rest)
  have := List.length_pos_iff.2 (next_ne_nil c rest)
  rw [List.length_append] at h
  omega

end Piece

/-- The whole text in pieces. -/
def pieces : List Char → List Piece
  | [] => []
  | c :: rest => (Piece.next c rest).1 :: pieces (Piece.next c rest).2
termination_by text => text.length
decreasing_by exact Piece.next_shorter c rest

/-- What the scanner hands on: a token, or the report of a stretch that is none. -/
inductive Item where
  | token (t : Token)
  | fault (line : Nat) (cause : LexicalError)
  deriving DecidableEq, Repr

namespace Item

def newlines (text : List Char) : Nat := text.count '\n'

/-- Items in the order of the source. The line of an item is the one on which its piece ends;
`line` is that on which the first piece begins. -/
def ofPieces (line : Nat) : List Piece → List Item
  | [] => [token ⟨.eof, "", line⟩]
  | piece :: rest =>
    let last := line + newlines piece.text
    match piece.content with
    | .blank | .comment => ofPieces last rest
    | .token kind => token ⟨kind, String.ofList piece.text, last⟩ :: ofPieces last rest
    | .fault cause => fault last cause :: ofPieces last rest

/-- All items of a source text; the last is the only end-of-file token. -/
def ofSource (source : String) : List Item := ofPieces 1 (pieces source.toList)

def token? : Item → Option Token
  | token t => some t
  | fault _ _ => none

def diagnostic? : Item → Option Diagnostic
  | token _ => none
  | fault line cause => some (.lexical line cause)

end Item

/-- The tokens of a source text and, apart from them, its lexical errors. -/
def tokenize (source : String) : List Token × List Diagnostic :=
  let items := Item.ofSource source
  (items.filterMap Item.token?, items.filterMap Item.diagnostic?)

end Lox
