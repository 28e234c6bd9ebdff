import Lox.Token.Scan

/-!
# Scanners

A scanner hands on the items of a source text one at a time, and cuts no more pieces off the text
than it is asked for. Behind the end of the text it hands on nothing, however often it is asked.
-/
namespace Lox

structure Scanner where
  /-- What has not been cut into pieces. Nothing is left once the end has been handed on. -/
  rest : Option (List Char)
  line : Nat
  deriving DecidableEq, Repr

namespace Scanner

def new (source : String) : Scanner := ⟨some source.toList, 1⟩

/-- The first item of a text that begins on `line`, and the scanner behind it. -/
def first (line : Nat) : List Char → Item × Scanner
  | [] => (.token ⟨.eof, "", line⟩, ⟨none, line⟩)
  | c :: rest =>
    let piece := (Piece.next c rest).1
    let last := line + Item.newlines piece.text
    match piece.content with
    | .blank | .comment => first last (Piece.next c rest).2
    | .token kind => (.token ⟨kind, String.ofList piece.text, last⟩, ⟨some (Piece.next c rest).2, last⟩)
    | .fault cause => (.fault last cause, ⟨some (Piece.next c rest).2, last⟩)
termination_by text => text.length
decreasing_by all_goals exact Piece.next_shorter c rest

/-- Asks for one more item. -/
def next (s : Scanner) : Option Item × Scanner :=
  match s.rest with
  | none => (none, s)
  | some text =>
    let (item, behind) := first s.line text
    (some item, behind)

/-- What the scanner answers when it has been asked `k` times before. -/
def answer (s : Scanner) : Nat → Option Item
  | 0 => s.next.1
  | k + 1 => s.next.2.answer k

/-- The items that are still to come. -/
def remaining (s : Scanner) : List Item :=
  match s.rest with
  | none => []
  | some text => Item.ofPieces s.line (pieces text)

theorem ofPieces_pieces (line : Nat) (text : List Char) :
    Item.ofPieces line (pieces text) = (first line text).1 :: (first line text).2.remaining := by
  fun_induction first line text with
  | case1 line => rw [pieces]; rfl
  | case2 line c rest piece last hblank ih =>
    rw [pieces, Item.ofPieces, hblank]
    exact ih
  | case3 line c rest piece last hcomment ih =>
    rw [pieces, Item.ofPieces, hcomment]
    exact ih
  | case4 line c rest piece last kind htoken =>
    rw [pieces, Item.ofPieces, htoken]
    rfl
  | case5 line c rest piece last cause hfault =>
    rw [pieces, Item.ofPieces, hfault]
    rfl

/-- The next item is the first of those that are still to come. -/
theorem next_eq (s : Scanner) : s.next.1 = s.remaining.head? ∧ s.next.2.remaining = s.remaining.tail := by
  obtain ⟨rest, line⟩ := s
  cases rest with
  | none => exact ⟨rfl, rfl⟩
  | some text =>
    have hfirst : remaining ⟨some text, line⟩ = (first line text).1 :: (first line text).2.remaining :=
      ofPieces_pieces line text
    rw [hfirst]
    exact ⟨rfl, rfl⟩

theorem answer_eq (s : Scanner) (k : Nat) : s.answer k = s.remaining[k]? := by
  induction k generalizing s with
  | zero => rw [answer, s.next_eq.1, List.head?_eq_getElem?]
  | succ k ih => rw [answer, ih, s.next_eq.2, List.getElem?_tail]

end Scanner
end Lox
