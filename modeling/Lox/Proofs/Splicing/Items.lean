import Lox.Proofs.Relabeling.Sessions
import Lox.Proofs.Scanning.Lossless
import Lox.Proofs.Splicing.Trees

/-!
# The items of texts on top of each other

No item but an open string goes on beyond a newline. So a text that leaves no string open, a newline and any
other text have the items of the one without its end, errors among them, and then those of the other, which
are further down.
-/
namespace Lox

/-- Everything `k` lines further down. -/
def Labels.lowering (k : Nat) : Labels := ⟨(· + k), fun n => n⟩

namespace Item

def relabel (φ : Labels) : Item → Item
  | token t => token (t.relabel φ)
  | fault line cause => fault (φ.line line) cause

variable {φ : Labels} {k line : Nat} {items : List Item}

theorem filterMap_token?_relabel :
    (items.map (relabel φ)).filterMap token? = (items.filterMap token?).map (Token.relabel φ) := by
  rw [List.filterMap_map, List.map_filterMap]
  refine List.filterMap_congr fun item _ => ?_
  cases item <;> rfl

theorem filterMap_diagnostic?_relabel :
    (items.map (relabel φ)).filterMap diagnostic? =
      (items.filterMap diagnostic?).map (Diagnostic.relabel φ) := by
  rw [List.filterMap_map, List.map_filterMap]
  refine List.filterMap_congr fun item _ => ?_
  cases item <;> rfl

theorem ofPieces_ne_nil (line : Nat) (ps : List Piece) : ofPieces line ps ≠ [] := by
  induction ps generalizing line with
  | nil => exact List.cons_ne_nil _ _
  | cons p ps ih =>
    rw [ofPieces]
    cases p.content with
    | blank | comment => exact ih _
    | token | fault => exact List.cons_ne_nil _ _

theorem ofPieces_add (k line : Nat) (ps : List Piece) :
    ofPieces (line + k) ps = (ofPieces line ps).map (relabel (.lowering k)) := by
  induction ps generalizing line with
  | nil => rfl
  | cons p ps ih =>
    have hline : line + k + newlines p.text = line + newlines p.text + k := Nat.add_right_comm _ _ _
    rw [ofPieces, ofPieces, hline, ih]
    cases p.content <;> rfl

/-- The last item of the pieces above is their end, which is no longer there when others follow. -/
theorem ofPieces_append (line : Nat) (ps qs : List Piece) :
    ofPieces line (ps ++ qs) =
      (ofPieces line ps).dropLast ++ ofPieces (line + newlines (ps.flatMap Piece.text)) qs := by
  induction ps generalizing line with
  | nil => rfl
  | cons p ps ih =>
    have hline : line + newlines ((p :: ps).flatMap Piece.text) =
        line + newlines p.text + newlines (ps.flatMap Piece.text) := by
      rw [List.flatMap_cons, Piece.newlines_append, Nat.add_assoc]
    rw [List.cons_append, ofPieces, ofPieces, hline, ih]
    have hne := ofPieces_ne_nil (line + newlines p.text) ps
    cases p.content with
    | blank | comment => rfl
    | token | fault => exact (congrArg (· ++ _) (List.dropLast_cons_of_ne_nil hne)).symm

theorem exists_fault_of_mem {ps : List Piece} {p : Piece} {cause : LexicalError} (hp : p ∈ ps)
    (hcontent : p.content = .fault cause) (line : Nat) : ∃ last, fault last cause ∈ ofPieces line ps := by
  induction ps generalizing line with
  | nil => exact absurd hp List.not_mem_nil
  | cons q ps ih =>
    rw [ofPieces]
    obtain rfl | hp := List.mem_cons.1 hp
    · rw [hcontent]
      exact ⟨_, List.mem_cons_self⟩
    · obtain ⟨last, hlast⟩ := ih hp (line + newlines q.text)
      cases q.content with
      | blank | comment => exact ⟨last, hlast⟩
      | token | fault => exact ⟨last, List.mem_cons_of_mem _ hlast⟩

end Item

variable {above : String}

/-- An open string is reported as such. -/
theorem closed_of_messages (h : ∀ d ∈ (tokenize above).2, d.message ≠ LexicalError.unterminatedString.message) :
    ∀ p ∈ pieces above.toList, p.content ≠ .fault .unterminatedString := by
  intro p hp hcontent
  obtain ⟨last, hlast⟩ := Item.exists_fault_of_mem hp hcontent 1
  exact h _ (List.mem_filterMap.2 ⟨_, hlast, rfl⟩) rfl

/-- The items of a text that leaves no string open, without its end, and those of the text below. -/
theorem ofSource_below (below : String)
    (hopen : ∀ p ∈ pieces above.toList, p.content ≠ .fault .unterminatedString) :
    Item.ofSource (above ++ "\n" ++ below) = (Item.ofSource above).dropLast ++
      (Item.ofSource below).map (Item.relabel (.lowering (1 + Item.newlines above.toList))) := by
  unfold Item.ofSource
  rw [pieces_below_closed hopen, Item.ofPieces_append, text_pieces, ← Item.ofPieces_add]
  change _ ++ Item.ofPieces (1 + Item.newlines above.toList + 1) _ = _
  rw [Nat.add_comm _ 1]

/-- Tokenizing composes at newlines: the tokens of a text that leaves no string open, without its end, are
followed by those of the text below, and its errors by the errors of that text, all of them as many lines
further down as the text above has. -/
theorem tokenize_below (above below : String)
    (h : ∀ d ∈ (tokenize above).2, d.message ≠ LexicalError.unterminatedString.message) :
    let lines := 1 + Item.newlines above.toList
    ∃ tokens, (tokenize above).1 = tokens ++ [⟨.eof, "", lines⟩] ∧ (∀ t ∈ tokens, t.kind ≠ .eof) ∧
      tokenize (above ++ "\n" ++ below) =
        (tokens ++ (tokenize below).1.map (Token.relabel (.lowering lines)),
          (tokenize above).2 ++ (tokenize below).2.map (Diagnostic.relabel (.lowering lines))) := by
  intro lines
  obtain ⟨items, hitems, hwords⟩ := Item.ofPieces_end 1 (pieces above.toList) ne_eof_of_mem_pieces
  rw [text_pieces] at hitems
  change Item.ofSource above = items ++ [.token ⟨.eof, "", lines⟩] at hitems
  refine ⟨items.filterMap Item.token?, ?_, ?_, ?_⟩
  · change (Item.ofSource above).filterMap Item.token? = _
    rw [hitems, List.filterMap_append]
    rfl
  · intro t ht
    obtain ⟨item, hitem, hsome⟩ := List.mem_filterMap.1 ht
    cases item with
    | token t' =>
      cases hsome
      exact hwords t hitem
    | fault line cause => cases hsome
  · have hbelow := ofSource_below below (closed_of_messages h)
    have hend : (items ++ [Item.token ⟨.eof, "", lines⟩]).filterMap Item.diagnostic? =
        items.filterMap Item.diagnostic? := by
      rw [List.filterMap_append]
      exact List.append_nil _
    unfold tokenize
    rw [hbelow, hitems, List.dropLast_concat]
    dsimp only
    rw [List.filterMap_append, List.filterMap_append, hend, Item.filterMap_token?_relabel,
      Item.filterMap_diagnostic?_relabel]

/-- A string over two lines, a point behind a number, an unexpected character and a comment. -/
def closedText : String := "\"a\nb\" 1. @ // c"

theorem tokenize_below_closedText :
    (∀ d ∈ (tokenize closedText).2, d.message ≠ LexicalError.unterminatedString.message) ∧
      ∃ tokens, (tokenize closedText).1 = tokens ++ [⟨.eof, "", 2⟩] ∧ (∀ t ∈ tokens, t.kind ≠ .eof) ∧
        tokenize (closedText ++ "\n" ++ ".5 != \"d") =
          (tokens ++ (tokenize ".5 != \"d").1.map (Token.relabel (.lowering 2)),
            (tokenize closedText).2 ++
              (tokenize ".5 != \"d").2.map (Diagnostic.relabel (.lowering 2))) := by
  have hclosed : ∀ d ∈ (tokenize closedText).2,
      d.message ≠ LexicalError.unterminatedString.message := by
    decide +kernel
  exact ⟨hclosed, tokenize_below closedText ".5 != \"d" hclosed⟩

end Lox
