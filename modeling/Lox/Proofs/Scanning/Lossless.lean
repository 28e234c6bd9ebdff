import Lox.Proofs.Splicing.Tokens
import Lox.Token.Scanner

/-!
# Nothing of a source text is lost

A text is made up of blanks, comments, the lexemes of tokens and the stretches that errors are about, one
after the other. What these look like is said here of the characters alone, and of what
follows them.
-/
namespace Lox

open Character

/-- How a token of each kind is spelled. -/
inductive Lexeme : Kind → List Char → Prop where
  | operator {c : Char} {kind : Kind} (h : Content.operator? c = some kind) : Lexeme kind [c]
  | withEqual {c : Char} {kind : Kind} (h : Content.withEqual? c = some kind) : Lexeme kind [c, '=']
  | word {letter : Char} {rest : List Char} (hletter : isLetter letter = true)
      (hrest : ∀ c ∈ rest, isWordChar c = true) :
      Lexeme (.ofWord (String.ofList (letter :: rest))) (letter :: rest)
  | integer {digits : List Char} (hne : digits ≠ []) (hdigits : ∀ c ∈ digits, isDigit c = true)
      (hvalue : digitsValue digits ≤ Numeral.greatest) :
      Lexeme (.number (.integer (digitsValue digits))) digits
  | fraction {whole places : List Char} (hwhole : whole ≠ []) (hplaces : places ≠ [])
      (hdigits : ∀ c ∈ whole ++ places, isDigit c = true) :
      Lexeme (.number (.fraction (digitsValue (whole ++ places)) places.length))
        (whole ++ '.' :: places)
  | string {raw value : List Char} (hraw : '"' ∉ raw) (hvalue : Escape.decode raw = .ok value) :
      Lexeme (.string (String.ofList value)) ('"' :: raw ++ ['"'])

/-- The stretches that each error is about, and what may follow them: a string that is not closed goes on
to the end of the text. -/
inductive Faulty : LexicalError → (text rest : List Char) → Prop where
  | unexpectedCharacter {c : Char} {rest : List Char} (hblank : isBlank c = false)
      (hnone : ∀ kind text, ¬ Lexeme kind (c :: text)) : Faulty (.unexpectedCharacter c) [c] rest
  | numberOutOfRange {digits rest : List Char} (hne : digits ≠ [])
      (hdigits : ∀ c ∈ digits, isDigit c = true) (hvalue : Numeral.greatest < digitsValue digits) :
      Faulty .numberOutOfRange digits rest
  | unterminatedEscape {raw rest : List Char} (hraw : '"' ∉ raw)
      (hvalue : Escape.decode raw = .error .unterminated) :
      Faulty .unterminatedEscape ('"' :: raw ++ ['"']) rest
  | octalOutOfBounds {raw rest : List Char} (hraw : '"' ∉ raw)
      (hvalue : Escape.decode raw = .error .outOfBounds) :
      Faulty .octalOutOfBounds ('"' :: raw ++ ['"']) rest
  | unterminatedString {raw : List Char} (hraw : '"' ∉ raw) : Faulty .unterminatedString ('"' :: raw) []

open Item (newlines)

/-- The items of `rest`, in front of which `before` stands. Each stretch of the text is a blank, a comment, or
what exactly one item is about, and the item has the line on which its stretch ends. -/
inductive Scans : (before rest : List Char) → List Item → Prop where
  | finished {before : List Char} : Scans before [] [.token ⟨.eof, "", 1 + newlines before⟩]
  | blank {before rest : List Char} {c : Char} {items : List Item} (hc : isBlank c = true)
      (h : Scans (before ++ [c]) rest items) : Scans before (c :: rest) items
  | comment {before body rest : List Char} {items : List Item} (hbody : '\n' ∉ body)
      (hrest : ∀ c ∈ rest.head?, c = '\n') (h : Scans (before ++ '/' :: '/' :: body) rest items) :
      Scans before ('/' :: '/' :: body ++ rest) items
  | token {before text rest : List Char} {kind : Kind} {items : List Item} (htext : Lexeme kind text)
      (h : Scans (before ++ text) rest items) : Scans before (text ++ rest)
        (.token ⟨kind, String.ofList text, 1 + newlines (before ++ text)⟩ :: items)
  | fault {before text rest : List Char} {cause : LexicalError} {items : List Item}
      (htext : Faulty cause text rest) (h : Scans (before ++ text) rest items) :
      Scans before (text ++ rest) (.fault (1 + newlines (before ++ text)) cause :: items)

/-! ## One piece -/

namespace Piece

/-- The piece is what its content says, in front of `rest`. -/
def Sound (p : Piece) (rest : List Char) : Prop :=
  match p.content with
  | .blank => ∃ c, isBlank c = true ∧ p.text = [c]
  | .comment => ∃ body, p.text = '/' :: '/' :: body ∧ '\n' ∉ body ∧ ∀ c ∈ rest.head?, c = '\n'
  | .token kind => Lexeme kind p.text
  | .fault cause => Faulty cause p.text rest

theorem sound_ofInteger {digits : List Char} (hne : digits ≠ [])
    (hdigits : ∀ c ∈ digits, isDigit c = true) (rest : List Char) :
    Sound ⟨.ofInteger digits, digits⟩ rest := by
  unfold Sound Content.ofInteger
  dsimp only
  by_cases hvalue : digitsValue digits ≤ Numeral.greatest
  · rw [if_pos hvalue]
    exact .integer hne hdigits hvalue
  · rw [if_neg hvalue]
    exact .numberOutOfRange hne hdigits (Nat.lt_of_not_le hvalue)

theorem sound_number {c : Char} (hc : isDigit c = true) (rest : List Char) :
    (number c rest).1.Sound (number c rest).2 := by
  have hwhole : ∀ d ∈ c :: rest.takeWhile isDigit, isDigit d = true :=
    List.forall_mem_cons.2 ⟨hc, fun _ => List.mem_takeWhile_imp⟩
  unfold number
  dsimp only
  split
  · next d more hrest =>
    split
    · next hd =>
      refine .fraction (List.cons_ne_nil _ _) (List.cons_ne_nil _ _) fun e he => ?_
      obtain he | he := List.mem_append.1 he
      · exact hwhole e he
      · obtain rfl | he := List.mem_cons.1 he
        · exact hd
        · exact List.mem_takeWhile_imp he
    · exact sound_ofInteger (List.cons_ne_nil _ _) hwhole _
  · exact sound_ofInteger (List.cons_ne_nil _ _) hwhole _

theorem sound_ofQuoted {raw : List Char} (hraw : '"' ∉ raw) (rest : List Char) :
    Sound ⟨.ofQuoted raw, '"' :: raw ++ ['"']⟩ rest := by
  unfold Sound Content.ofQuoted
  dsimp only
  cases hvalue : Escape.decode raw with
  | ok value => exact .string hraw hvalue
  | error fault =>
    cases fault with
    | unterminated => exact .unterminatedEscape hraw hvalue
    | outOfBounds => exact .octalOutOfBounds hraw hvalue

theorem sound_quoted (rest : List Char) : (quoted rest).1.Sound (quoted rest).2 := by
  by_cases hclosed : '"' ∈ rest
  · obtain ⟨raw, more, rfl, hraw⟩ := List.eq_append_cons_of_mem hclosed
    rw [quoted_of_closed more hraw]
    exact sound_ofQuoted hraw more
  · have hpass : ∀ d ∈ rest, decide (d ≠ '"') = true := by
      intro d hd
      exact decide_eq_true fun h => hclosed (h ▸ hd)
    unfold quoted
    rw [List.takeWhile_eq_self_iff.2 hpass, List.dropWhile_eq_nil_iff.2 hpass]
    exact .unterminatedString hclosed

theorem sound_word {c : Char} (hc : isLetter c = true) (rest : List Char) :
    (word c rest).1.Sound (word c rest).2 := .word hc fun _ => List.mem_takeWhile_imp

theorem sound_comment (rest : List Char) : (comment rest).1.Sound (comment rest).2 := by
  refine ⟨_, rfl, fun hmem => ?_, fun c hc => ?_⟩
  · have hpass := List.mem_takeWhile_imp hmem
    exact of_decide_eq_true hpass rfl
  · change c ∈ (rest.dropWhile (· ≠ '\n')).head? at hc
    have hstop := List.head?_dropWhile_not (· ≠ '\n') rest
    rw [Option.mem_def.1 hc] at hstop
    simpa using hstop

/-- What is an operator with an equals sign is one without it. -/
theorem operator_of_withEqual {c : Char} {kind : Kind} (h : Content.withEqual? c = some kind) :
    ∃ single, Content.operator? c = some single := by
  unfold Content.withEqual? at h
  split at h
  · exact ⟨_, rfl⟩
  · exact ⟨_, rfl⟩
  · exact ⟨_, rfl⟩
  · exact ⟨_, rfl⟩
  · cases h

/-- Nothing is spelled with a first character that begins no piece. -/
theorem not_lexeme {c : Char} (hletter : isLetter c = false) (hdigit : isDigit c = false)
    (hquote : c ≠ '"') (hoperator : Content.operator? c = none) (kind : Kind) (text : List Char) :
    ¬ Lexeme kind (c :: text) := by
  generalize hwhole : c :: text = whole
  intro h
  cases h with
  | operator h =>
    cases hwhole
    rw [hoperator] at h
    cases h
  | withEqual h =>
    cases hwhole
    obtain ⟨single, hsingle⟩ := operator_of_withEqual h
    rw [hoperator] at hsingle
    cases hsingle
  | word h hrest =>
    cases hwhole
    rw [hletter] at h
    cases h
  | integer hne hdigits hvalue =>
    have h := hdigits c (hwhole ▸ List.mem_cons_self)
    rw [hdigit] at h
    cases h
  | @fraction digits places hdigits hplaces hall =>
    cases digits with
    | nil => exact hdigits rfl
    | cons d digits =>
      cases hwhole
      have h := hall c List.mem_cons_self
      rw [hdigit] at h
      cases h
  | string hraw hvalue =>
    cases hwhole
    exact hquote rfl

theorem sound_operator {c : Char} (hblank : isBlank c = false) (hletter : isLetter c = false)
    (hdigit : isDigit c = false) (hquote : c ≠ '"') (rest : List Char) :
    (operator c rest).1.Sound (operator c rest).2 := by
  unfold operator
  split
  · next hwith => exact .withEqual hwith
  · split
    · next hsingle => exact .operator hsingle
    · next hnone => exact .unexpectedCharacter hblank (not_lexeme hletter hdigit hquote hnone)

/-- The piece that is cut off is what its content says. -/
theorem sound_next (c : Char) (rest : List Char) : (next c rest).1.Sound (next c rest).2 := by
  unfold next
  by_cases hblank : isBlank c = true
  · rw [if_pos hblank]
    exact ⟨c, hblank, rfl⟩
  rw [if_neg hblank]
  by_cases hletter : isLetter c = true
  · rw [if_pos hletter]
    exact sound_word hletter rest
  rw [if_neg hletter]
  by_cases hdigit : isDigit c = true
  · rw [if_pos hdigit]
    exact sound_number hdigit rest
  rw [if_neg hdigit]
  by_cases hquote : c = '"'
  · rw [if_pos hquote]
    exact sound_quoted rest
  rw [if_neg hquote]
  split
  · exact sound_comment _
  · exact sound_operator (eq_false_of_ne_true hblank) (eq_false_of_ne_true hletter)
      (eq_false_of_ne_true hdigit) hquote rest

end Piece

/-! ## The whole text -/

/-- One more piece in front of what is scanned. -/
theorem Scans.piece {before rest : List Char} {p : Piece} {ps : List Piece} (hp : p.Sound rest)
    (h : Scans (before ++ p.text) rest (Item.ofPieces (1 + newlines (before ++ p.text)) ps)) :
    Scans before (p.text ++ rest) (Item.ofPieces (1 + newlines before) (p :: ps)) := by
  have hline : 1 + newlines before + newlines p.text = 1 + newlines (before ++ p.text) := by
    rw [Piece.newlines_append, Nat.add_assoc]
  rw [Item.ofPieces, hline]
  unfold Piece.Sound at hp
  cases hcontent : p.content with
  | blank =>
    rw [hcontent] at hp
    obtain ⟨c, hc, htext⟩ := hp
    rw [htext] at h ⊢
    exact .blank hc h
  | comment =>
    rw [hcontent] at hp
    obtain ⟨body, htext, hbody, hrest⟩ := hp
    rw [htext] at h ⊢
    exact .comment hbody hrest h
  | token kind =>
    rw [hcontent] at hp
    exact .token hp h
  | fault cause =>
    rw [hcontent] at hp
    exact .fault hp h

theorem scans_pieces (before text : List Char) :
    Scans before text (Item.ofPieces (1 + newlines before) (pieces text)) := by
  fun_induction pieces text generalizing before with
  | case1 => exact .finished
  | case2 c rest ih =>
    have h := Scans.piece (Piece.sound_next c rest) (ih (before ++ (Piece.next c rest).1.text))
    rwa [Piece.next_text] at h

/-- The end of the text is told last, and nothing before it. -/
theorem Item.ofPieces_end (line : Nat) (ps : List Piece) (h : ∀ p ∈ ps, p.content ≠ .token .eof) :
    ∃ items, ofPieces line ps = items ++ [.token ⟨.eof, "", line + newlines (ps.flatMap Piece.text)⟩] ∧
      ∀ t, .token t ∈ items → t.kind ≠ .eof := by
  induction ps generalizing line with
  | nil => exact ⟨[], rfl, fun t ht => absurd ht List.not_mem_nil⟩
  | cons p ps ih =>
    obtain ⟨hp, hps⟩ := List.forall_mem_cons.1 h
    obtain ⟨items, hitems, hend⟩ := ih (line + newlines p.text) hps
    rw [Nat.add_assoc, ← Piece.newlines_append] at hitems
    rw [ofPieces, List.flatMap_cons]
    cases hcontent : p.content with
    | blank | comment => exact ⟨items, hitems, hend⟩
    | fault cause =>
      refine ⟨.fault _ cause :: items, congrArg (_ :: ·) hitems, fun t ht => ?_⟩
      obtain ht | ht := List.mem_cons.1 ht
      · cases ht
      · exact hend t ht
    | token kind =>
      refine ⟨.token ⟨kind, _, _⟩ :: items, congrArg (_ :: ·) hitems, fun t ht => ?_⟩
      obtain ht | ht := List.mem_cons.1 ht
      · cases ht
        exact fun heof => hp (hcontent.trans (congrArg Content.token heof))
      · exact hend t ht

/-- A scanner answers with the items of its text and then with nothing. The stretches that they are about,
blanks and comments are the whole text in its order, and the last item alone tells its end. -/
theorem scans_ofSource (source : String) :
    Scans [] source.toList (Item.ofSource source) ∧
      (∀ k, (Scanner.new source).answer k = (Item.ofSource source)[k]?) ∧
      ∃ items, Item.ofSource source = items ++ [.token ⟨.eof, "", 1 + newlines source.toList⟩] ∧
        ∀ t, .token t ∈ items → t.kind ≠ .eof := by
  have hend := Item.ofPieces_end 1 (pieces source.toList) ne_eof_of_mem_pieces
  rw [text_pieces] at hend
  exact ⟨scans_pieces [] source.toList, fun k => (Scanner.new source).answer_eq k, hend⟩

end Lox
