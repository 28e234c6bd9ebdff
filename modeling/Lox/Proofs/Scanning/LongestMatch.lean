import Lox.Proofs.Scanning.Lossless

/-!
# Tokens are as long as they can be

A token is the longest lexeme with which the text begins that has not been cut into pieces. What follows a
lexeme only matters if it could be part of one that is longer, and a blank never is: every token can be scanned
again by itself, and so can all of them with blanks in between.
-/
namespace Lox

open Character
open Item (newlines)

def operators : List (List Char) := [
  ['('], [')'], ['\x7b'], ['\x7d'], [','], ['.'], ['-'], ['+'], [';'], ['*'], ['%'], ['/'],
  ['!'], ['='], ['<'], ['>'], ['!', '='], ['=', '='], ['<', '='], ['>', '=']]

/-- A letter, and letters and digits behind it. -/
def IsWord (text : List Char) : Prop :=
  ∃ letter rest, text = letter :: rest ∧ isLetter letter = true ∧ ∀ c ∈ rest, isWordChar c = true

/-- The lexemes of the language, whether or not they denote anything. -/
inductive Spelled : List Char → Prop
  | operator {text : List Char} (htext : text ∈ operators) : Spelled text
  | word {text : List Char} (htext : IsWord text) : Spelled text
  | integer {digits : List Char} (hne : digits ≠ []) (hdigits : ∀ c ∈ digits, isDigit c = true) :
      Spelled digits
  | fraction {whole places : List Char} (hwhole : whole ≠ []) (hplaces : places ≠ [])
      (hdigits : ∀ c ∈ whole ++ places, isDigit c = true) : Spelled (whole ++ '.' :: places)
  | string {raw : List Char} (hraw : '"' ∉ raw) : Spelled ('"' :: raw ++ ['"'])

/-- Of all lexemes with which the text and what stands behind it begin, the text is the longest. -/
structure Longest (text behind : List Char) : Prop where
  spelled : Spelled text
  longest : ∀ other, Spelled other → other <+: text ++ behind → other.length ≤ text.length

theorem mem_operators_of_operator? {c : Char} {kind : Kind} (h : Content.operator? c = some kind) :
    [c] ∈ operators := by
  unfold Content.operator? at h
  split at h <;> first | decide | cases h

theorem mem_operators_of_withEqual? {c : Char} {kind : Kind} (h : Content.withEqual? c = some kind) :
    [c, '='] ∈ operators := by
  unfold Content.withEqual? at h
  split at h <;> first | decide | cases h

theorem operator_cases {text : List Char} (h : text ∈ operators) :
    ∃ c, (Content.operator? c).isSome = true ∧
      (text = [c] ∨ text = [c, '='] ∧ (Content.withEqual? c).isSome = true) := by
  have hall : ∀ text ∈ operators, (text.head?.any fun c => (Content.operator? c).isSome &&
      (text == [c] || text == [c, '='] && (Content.withEqual? c).isSome)) = true := by decide
  obtain ⟨c, -, hc⟩ := (Option.any_eq_true _ _).1 (hall text h)
  rw [Bool.and_eq_true, Bool.or_eq_true, Bool.and_eq_true, beq_iff_eq, beq_iff_eq] at hc
  exact ⟨c, hc⟩

theorem Lexeme.spelled {kind : Kind} {text : List Char} (h : Lexeme kind text) : Spelled text := by
  cases h with
  | operator h => exact .operator (mem_operators_of_operator? h)
  | withEqual h => exact .operator (mem_operators_of_withEqual? h)
  | word hletter hrest => exact .word ⟨_, _, rfl, hletter, hrest⟩
  | integer hne hdigits hvalue => exact .integer hne hdigits
  | fraction hwhole hplaces hdigits => exact .fraction hwhole hplaces hdigits
  | string hraw hvalue => exact .string hraw

/-! ## The first character decides -/

namespace Piece

variable {c : Char} {rest : List Char}

theorem not_isBlank_of_isWordChar (h : isWordChar c = true) : ¬ isBlank c = true := by
  simp only [isBlank, Bool.or_eq_true, decide_eq_true_eq]
  rintro (((rfl | rfl) | rfl) | rfl) <;> revert h <;> decide

theorem next_of_letter (h : isLetter c = true) : next c rest = word c rest := by
  have hblank := not_isBlank_of_isWordChar (Bool.or_eq_true_iff.2 (.inl h))
  unfold next
  rw [if_neg hblank, if_pos h]

theorem isLetter_of_isDigit (h : isDigit c = true) : isLetter c = false := by
  rw [Bool.eq_false_iff]
  simp only [isDigit, isLetter, Bool.and_eq_true, Bool.or_eq_true, decide_eq_true_eq, Char.le_def,
    UInt32.le_iff_toNat_le, ne_eq] at h ⊢
  rintro ((hlower | hupper) | rfl)
  · simp at h hlower
    omega
  · simp at h hupper
    omega
  · simp at h

theorem next_of_digit (h : isDigit c = true) : next c rest = number c rest := by
  have hblank := not_isBlank_of_isWordChar (Bool.or_eq_true_iff.2 (.inr h))
  have hletter := Bool.eq_false_iff.1 (isLetter_of_isDigit h)
  unfold next
  rw [if_neg hblank, if_neg hletter, if_pos h]

theorem next_of_quote : next '"' rest = quoted rest := rfl

theorem next_of_operator (h : (Content.operator? c).isSome = true) (hslash : rest.head? ≠ some '/') :
    next c rest = operator c rest := by
  have hfirst : ¬ isBlank c = true ∧ ¬ isLetter c = true ∧ ¬ isDigit c = true ∧ c ≠ '"' := by
    unfold Content.operator? at h
    split at h <;> first | decide | cases h
  obtain ⟨hblank, hletter, hdigit, hquote⟩ := hfirst
  unfold next
  rw [if_neg hblank, if_neg hletter, if_neg hdigit, if_neg hquote]
  split
  · exact absurd rfl hslash
  · rfl

/-! ## Longest matches -/

theorem length_le_takeWhile {p : Char → Bool} {text behind : List Char} (htext : ∀ c ∈ text, p c = true)
    (hbegins : text <+: behind) : text.length ≤ (behind.takeWhile p).length := by
  obtain ⟨more, rfl⟩ := hbegins
  rw [List.takeWhile_append_of_pos htext, List.length_append]
  omega

theorem whole_le_number (c : Char) (rest : List Char) :
    (c :: rest.takeWhile isDigit).length ≤ (number c rest).1.text.length := by
  unfold number
  dsimp only
  split
  · split
    · rw [List.length_append]
      omega
    · rfl
  · rfl

/-- A point is part of a number if a digit follows. -/
theorem number_of_point {digits : List Char} (hdigits : ∀ d ∈ digits, isDigit d = true) {d : Char}
    (hd : isDigit d = true) (more : List Char) :
    number c (digits ++ '.' :: d :: more) =
      (⟨.token (.number (.fraction (digitsValue (c :: digits ++ d :: more.takeWhile isDigit))
        (d :: more.takeWhile isDigit).length)), c :: digits ++ '.' :: d :: more.takeWhile isDigit⟩,
        more.dropWhile isDigit) := by
  have hstop : isDigit '.' = false := by decide
  unfold number
  rw [takeWhile_append_stop hstop, dropWhile_append_stop hstop, List.takeWhile_eq_self_iff.2 hdigits,
    List.dropWhile_eq_nil_iff.2 hdigits]
  exact if_pos hd

/-- No lexeme with which a text begins is longer than the piece that is cut off. -/
theorem length_le_next {other : List Char} (h : Spelled other) (hbegins : other <+: c :: rest) :
    other.length ≤ (next c rest).1.text.length := by
  cases h with
  | operator htext =>
    obtain ⟨d, hd, rfl | ⟨rfl, hwith⟩⟩ := operator_cases htext
    · exact List.length_pos_iff.2 (next_ne_nil c rest)
    · obtain ⟨rfl, more, rfl⟩ := List.cons_prefix_cons.1 hbegins
      obtain ⟨kind, hkind⟩ := Option.isSome_iff_exists.1 hwith
      change _ ≤ (next d ('=' :: more)).1.text.length
      rw [next_of_operator hd (by simp)]
      unfold operator
      rw [hkind]
      exact le_rfl
  | word htext =>
    obtain ⟨d, word, rfl, hletter, hrest⟩ := htext
    obtain ⟨rfl, htail⟩ := List.cons_prefix_cons.1 hbegins
    rw [next_of_letter hletter]
    exact Nat.succ_le_succ (length_le_takeWhile hrest htail)
  | integer hne hdigits =>
    cases other with
    | nil => exact absurd rfl hne
    | cons d digits =>
      obtain ⟨hd, htail⟩ := List.forall_mem_cons.1 hdigits
      obtain ⟨rfl, hbehind⟩ := List.cons_prefix_cons.1 hbegins
      rw [next_of_digit hd]
      exact (Nat.succ_le_succ (length_le_takeWhile htail hbehind)).trans (whole_le_number d rest)
  | @fraction whole places hwhole hplaces hdigits =>
    obtain ⟨d, digits, rfl⟩ := List.exists_cons_of_ne_nil hwhole
    obtain ⟨e, places, rfl⟩ := List.exists_cons_of_ne_nil hplaces
    obtain ⟨hleft, hright⟩ := List.forall_mem_append.1 hdigits
    obtain ⟨hd, hleft⟩ := List.forall_mem_cons.1 hleft
    obtain ⟨he, hright⟩ := List.forall_mem_cons.1 hright
    obtain ⟨rfl, more, rfl⟩ := List.cons_prefix_cons.1 hbegins
    have hle := length_le_takeWhile hright (List.prefix_append places more)
    have hnumber := number_of_point (c := d) hleft he (places ++ more)
    change _ ≤ (next d ((digits ++ '.' :: e :: places) ++ more)).1.text.length
    rw [next_of_digit hd, List.append_assoc]
    change _ ≤ (number d (digits ++ '.' :: e :: (places ++ more))).1.text.length
    rw [hnumber]
    simp only [List.length_append, List.length_cons]
    omega
  | string hraw =>
    obtain ⟨rfl, more, rfl⟩ := List.cons_prefix_cons.1 hbegins
    change _ ≤ (next '"' ((_ ++ ['"']) ++ more)).1.text.length
    rw [next_of_quote, List.append_assoc, List.singleton_append, quoted_of_closed more hraw]

/-- A token that is cut off is the longest lexeme. -/
theorem longest_next {kind : Kind} (h : (next c rest).1.content = .token kind) :
    Longest (next c rest).1.text (next c rest).2 := by
  have hsound := sound_next c rest
  unfold Sound at hsound
  rw [h] at hsound
  refine ⟨Lexeme.spelled hsound, fun other hother hbegins => length_le_next hother ?_⟩
  rwa [next_text] at hbegins

end Piece

/-! ## Between the tokens -/

/-- The text without the blanks and comments that it begins with. -/
inductive Skips : (text behind : List Char) → Prop
  | nothing {text : List Char} (hblank : ∀ c ∈ text.head?, isBlank c = false)
      (hcomment : ¬ ['/', '/'] <+: text) : Skips text text
  | blank {c : Char} {text behind : List Char} (hc : isBlank c = true) (h : Skips text behind) :
      Skips (c :: text) behind
  | comment {body text behind : List Char} (hbody : '\n' ∉ body) (htext : ∀ c ∈ text.head?, c = '\n')
      (h : Skips text behind) : Skips ('/' :: '/' :: body ++ text) behind

theorem Skips.piece {p : Piece} {rest behind : List Char} (hp : p.Sound rest)
    (hcontent : p.content = .blank ∨ p.content = .comment) (h : Skips rest behind) :
    Skips (p.text ++ rest) behind := by
  unfold Piece.Sound at hp
  obtain hcontent | hcontent := hcontent
  · rw [hcontent] at hp
    obtain ⟨c, hc, htext⟩ := hp
    rw [htext]
    exact .blank hc h
  · rw [hcontent] at hp
    obtain ⟨body, htext, hbody, hrest⟩ := hp
    rw [htext]
    exact .comment hbody hrest h

/-- Where a token is cut off there is nothing to skip. -/
theorem skips_nothing {c : Char} {rest : List Char} {kind : Kind}
    (h : (Piece.next c rest).1.content = .token kind) : Skips (c :: rest) (c :: rest) := by
  refine .nothing (fun d hd => ?_) fun hcomment => ?_
  · cases hd
    refine eq_false_of_ne_true fun hblank => ?_
    unfold Piece.next at h
    rw [if_pos hblank] at h
    cases h
  · obtain ⟨more, hmore⟩ := hcomment
    cases hmore
    cases h

namespace Scanner

/-- The scanner when it has been asked `k` times. -/
def after (s : Scanner) : Nat → Scanner
  | 0 => s
  | k + 1 => s.next.2.after k

theorem answer_after (s : Scanner) (k : Nat) : s.answer k = (s.after k).next.1 := by
  induction k generalizing s with
  | zero => rfl
  | succ k ih => exact ih s.next.2

theorem after_succ (s : Scanner) (k : Nat) : s.after (k + 1) = (s.after k).next.2 := by
  induction k generalizing s with
  | zero => rfl
  | succ k ih => exact ih s.next.2

/-- Blanks and comments aside, a text begins with its first token. -/
theorem first_token {line : Nat} {text : List Char} {t : Token} (h : (first line text).1 = .token t)
    (ht : t.kind ≠ .eof) : ∃ rest, Skips text (t.lexeme.toList ++ rest) ∧
      (first line text).2.rest = some rest ∧ Longest t.lexeme.toList rest := by
  fun_induction first line text with
  | case1 line =>
    cases h
    exact absurd rfl ht
  | case2 line c rest piece last hblank ih =>
    obtain ⟨behind, hskips, hlongest⟩ := ih h
    rw [← Piece.next_text c rest]
    exact ⟨behind, hskips.piece (Piece.sound_next c rest) (.inl hblank), hlongest⟩
  | case3 line c rest piece last hcomment ih =>
    obtain ⟨behind, hskips, hlongest⟩ := ih h
    rw [← Piece.next_text c rest]
    exact ⟨behind, hskips.piece (Piece.sound_next c rest) (.inr hcomment), hlongest⟩
  | case4 line c rest piece last kind htoken =>
    cases h
    refine ⟨(Piece.next c rest).2, ?_, rfl, ?_⟩
    · rw [String.toList_ofList, Piece.next_text]
      exact skips_nothing htoken
    · rw [String.toList_ofList]
      exact Piece.longest_next htoken
  | case5 line c rest piece last cause hfault => cases h

theorem next_token {s : Scanner} {t : Token} (h : s.next.1 = some (.token t)) (ht : t.kind ≠ .eof) :
    ∃ text rest, s.rest = some text ∧ Skips text (t.lexeme.toList ++ rest) ∧
      s.next.2.rest = some rest ∧ Longest t.lexeme.toList rest := by
  obtain ⟨rest, line⟩ := s
  cases rest with
  | none => cases h
  | some text =>
    obtain ⟨rest, hskips, hbehind, hlongest⟩ := first_token (Option.some.inj h) ht
    exact ⟨text, rest, rfl, hskips, hbehind, hlongest⟩

end Scanner

/-! ## Blanks behind a lexeme -/

variable {kind : Kind} {c : Char} {text rest : List Char}

theorem takeWhile_blank {p : Char → Bool} (hp : p ' ' = false) (htext : ∀ c ∈ text, p c = true)
    (hrest : ∀ c ∈ rest.head?, c = ' ') :
    (text ++ rest).takeWhile p = text ∧ (text ++ rest).dropWhile p = rest := by
  refine takeWhile_append_rest htext fun c hc => ?_
  rw [hrest c hc, hp]

theorem head?_ne_of_blank (hrest : ∀ c ∈ rest.head?, c = ' ') (hc : c ≠ ' ') : rest.head? ≠ some c :=
  fun h => hc (hrest c h)

namespace Piece

theorem operator_of_single (h : Content.operator? c = some kind) (hequal : rest.head? ≠ some '=') :
    operator c rest = (⟨.token kind, [c]⟩, rest) := by
  unfold operator
  split
  · exact absurd rfl hequal
  · rw [h]

/-- All digits in front of what neither is one nor a point are one piece. -/
theorem next_of_digits {digits : List Char} (hdigits : ∀ d ∈ c :: digits, isDigit d = true)
    (hrest : ∀ d ∈ rest.head?, isDigit d = false ∧ d ≠ '.') :
    next c (digits ++ rest) = (⟨.ofInteger (c :: digits), c :: digits⟩, rest) := by
  obtain ⟨hc, hdigits⟩ := List.forall_mem_cons.1 hdigits
  obtain ⟨htake, hdrop⟩ := takeWhile_append_rest hdigits fun d hd => (hrest d hd).1
  rw [next_of_digit hc]
  unfold number
  rw [htake, hdrop]
  split
  · exact absurd rfl (hrest '.' rfl).2
  · rfl

theorem content_ofInteger {digits : List Char} (h : digitsValue digits ≤ Numeral.greatest) :
    Content.ofInteger digits = .token (.number (.integer (digitsValue digits))) := if_pos h

theorem content_ofQuoted {raw value : List Char} (h : Escape.decode raw = .ok value) :
    Content.ofQuoted raw = .token (.string (String.ofList value)) := by
  unfold Content.ofQuoted
  rw [h]

/-- A lexeme is a piece if it stands in front of a blank or at the end. -/
theorem next_of_lexeme (h : Lexeme kind (c :: text)) (hrest : ∀ c ∈ rest.head?, c = ' ') :
    next c (text ++ rest) = (⟨.token kind, c :: text⟩, rest) := by
  generalize hwhole : c :: text = whole at h ⊢
  cases h with
  | operator h =>
    cases hwhole
    rw [List.nil_append, next_of_operator (h ▸ rfl) (head?_ne_of_blank hrest (by decide))]
    exact operator_of_single h (head?_ne_of_blank hrest (by decide))
  | withEqual h =>
    cases hwhole
    obtain ⟨single, hsingle⟩ := operator_of_withEqual h
    rw [List.singleton_append, next_of_operator (hsingle ▸ rfl) (by simp)]
    unfold operator
    rw [h]
    rfl
  | word hletter htext =>
    cases hwhole
    obtain ⟨htake, hdrop⟩ := takeWhile_blank (by decide) htext hrest
    rw [next_of_letter hletter, word, htake, hdrop]
  | integer hne hdigits hvalue =>
    cases hwhole
    have hblank : ∀ d ∈ rest.head?, isDigit d = false ∧ d ≠ '.' := by
      intro d hd
      rw [hrest d hd]
      decide
    rw [next_of_digits hdigits hblank, content_ofInteger hvalue]
  | @fraction whole places hne hplaces hdigits =>
    obtain ⟨d, digits, rfl⟩ := List.exists_cons_of_ne_nil hne
    obtain ⟨e, places, rfl⟩ := List.exists_cons_of_ne_nil hplaces
    cases hwhole
    obtain ⟨hleft, hright⟩ := List.forall_mem_append.1 hdigits
    obtain ⟨hd, hleft⟩ := List.forall_mem_cons.1 hleft
    obtain ⟨he, hright⟩ := List.forall_mem_cons.1 hright
    obtain ⟨htake, hdrop⟩ := takeWhile_blank (by decide) hright hrest
    have hnumber := number_of_point (c := c) hleft he (places ++ rest)
    rw [htake, hdrop] at hnumber
    rw [next_of_digit hd]
    change number c ((digits ++ '.' :: e :: places) ++ rest) = _
    rw [List.append_assoc]
    exact hnumber
  | @string raw value hraw hvalue =>
    cases hwhole
    change next '"' ((raw ++ ['"']) ++ rest) = _
    rw [next_of_quote, List.append_assoc, List.singleton_append, quoted_of_closed rest hraw,
      content_ofQuoted hvalue]

end Piece

theorem Lexeme.ne_nil (h : Lexeme kind text) : text ≠ [] := by
  cases h with
  | operator | withEqual | word | string => exact List.cons_ne_nil _ _
  | integer hne hdigits hvalue => exact hne
  | fraction hne hplaces hdigits => exact List.append_ne_nil_of_left_ne_nil hne _

theorem pieces_lexeme (h : Lexeme kind text) (hrest : ∀ c ∈ rest.head?, c = ' ') :
    pieces (text ++ rest) = ⟨.token kind, text⟩ :: pieces rest := by
  cases text with
  | nil => exact absurd rfl h.ne_nil
  | cons c text => rw [List.cons_append, pieces, Piece.next_of_lexeme h hrest]

theorem pieces_space (rest : List Char) : pieces (' ' :: rest) = ⟨.blank, [' ']⟩ :: pieces rest := by
  rw [pieces]
  rfl

theorem lexeme_of_mem_pieces {text : List Char} :
    ∀ p ∈ pieces text, p.content = .token kind → Lexeme kind p.text := by
  fun_induction pieces text with
  | case1 => exact fun p hp => absurd hp List.not_mem_nil
  | case2 c rest ih =>
    intro p hp h
    obtain rfl | hp := List.mem_cons.1 hp
    · have hsound := Piece.sound_next c rest
      unfold Piece.Sound at hsound
      rwa [h] at hsound
    · exact ih p hp h

/-! ## Words -/

theorem ofWord_reserved : ∀ entry ∈ Kind.reserved, Kind.ofWord entry.1 = entry.2 ∧
    entry.2 ≠ .identifier ∧ entry.2 ≠ .eof ∧ entry.1.toList.head?.any isLetter = true := by
  decide

/-- No two words are reserved for one kind. -/
theorem reserved_injective : ∀ entry ∈ Kind.reserved, ∀ other ∈ Kind.reserved,
    entry.2 = other.2 → entry.1 = other.1 := by
  decide

theorem Kind.ofWord_eq_identifier {word : String} :
    ofWord word = .identifier ↔ ∀ entry ∈ reserved, word ≠ entry.1 := by
  constructor
  · rintro h entry hentry rfl
    obtain ⟨hword, hne, -⟩ := ofWord_reserved entry hentry
    exact hne (hword.symm.trans h)
  · intro h
    unfold ofWord
    rw [List.lookup_eq_none_iff.2 fun entry hentry => bne_iff_ne.2 (h entry hentry)]
    rfl

/-- The kinds that no spelling but that of a word has. -/
theorem Lexeme.isWord (h : Lexeme kind text) (hkind : kind = .identifier ∨ kind ∈ Kind.reserved.map Prod.snd) :
    IsWord text := by
  cases h with
  | word hletter hrest => exact ⟨_, _, rfl, hletter, hrest⟩
  | operator h =>
    unfold Content.operator? at h
    split at h <;> cases h <;> exact absurd hkind (by decide)
  | withEqual h =>
    unfold Content.withEqual? at h
    split at h <;> cases h <;> exact absurd hkind (by decide)
  | integer | fraction | string => simp [Kind.reserved] at hkind

/-- What begins with a letter is of the kind of the word that it is. -/
theorem Lexeme.kind_of_letter (h : Lexeme kind (c :: text)) (hc : isLetter c = true) :
    kind = .ofWord (String.ofList (c :: text)) := by
  have hnext : Piece.next c (text ++ []) = (⟨.token kind, c :: text⟩, []) := Piece.next_of_lexeme h nofun
  rw [Piece.next_of_letter hc] at hnext
  simp only [Piece.word, Prod.mk.injEq, Piece.mk.injEq, Content.token.injEq] at hnext
  obtain ⟨⟨hkind, htext⟩, -⟩ := hnext
  rw [← hkind, htext]

theorem Lexeme.reserved_iff (h : Lexeme kind text) {entry : String × Kind} (hentry : entry ∈ Kind.reserved) :
    kind = entry.2 ↔ String.ofList text = entry.1 := by
  obtain ⟨hword, hne, -, hfirst⟩ := ofWord_reserved entry hentry
  obtain ⟨c, hc, hletter⟩ := (Option.any_eq_true _ _).1 hfirst
  constructor
  · intro hkind
    obtain ⟨letter, rest, rfl, hletter, -⟩ := h.isWord (.inr (hkind ▸ List.mem_map_of_mem hentry))
    have hmem := Piece.mem_reserved_of_ofWord (h.kind_of_letter hletter).symm (hkind ▸ hne)
    exact reserved_injective _ hmem entry hentry hkind
  · intro htext
    rw [← htext, String.toList_ofList] at hc
    obtain ⟨rest, rfl⟩ := List.head?_eq_some_iff.1 hc
    rw [h.kind_of_letter hletter, htext, hword]

theorem Lexeme.identifier_iff (h : Lexeme kind text) :
    kind = .identifier ↔ IsWord text ∧ ∀ entry ∈ Kind.reserved, String.ofList text ≠ entry.1 := by
  constructor
  · intro hkind
    obtain ⟨letter, rest, rfl, hletter, hrest⟩ := h.isWord (.inl hkind)
    have hword := (h.kind_of_letter hletter).symm.trans hkind
    exact ⟨⟨letter, rest, rfl, hletter, hrest⟩, Kind.ofWord_eq_identifier.1 hword⟩
  · rintro ⟨⟨letter, rest, rfl, hletter, -⟩, hnone⟩
    rw [h.kind_of_letter hletter]
    exact Kind.ofWord_eq_identifier.2 hnone

/-! ## Scanning again -/

/-- Kind and lexeme of a token; the value of a literal is part of its kind. -/
def Token.spelling (t : Token) : Kind × String := (t.kind, t.lexeme)

/-- The pieces of tokens with a blank between any two. -/
def spacedPieces : List Token → List Piece
  | [] => []
  | [t] => [⟨.token t.kind, t.lexeme.toList⟩]
  | t :: u :: ts => ⟨.token t.kind, t.lexeme.toList⟩ :: ⟨.blank, [' ']⟩ :: spacedPieces (u :: ts)

variable {ts : List Token}

theorem pieces_spaced (hts : ∀ t ∈ ts, Lexeme t.kind t.lexeme.toList) (hrest : ∀ c ∈ rest.head?, c = ' ') :
    pieces ((" ".intercalate (ts.map Token.lexeme)).toList ++ rest) = spacedPieces ts ++ pieces rest := by
  fun_induction spacedPieces ts with
  | case1 => rfl
  | case2 t => exact pieces_lexeme (hts t List.mem_cons_self) hrest
  | case3 t u ts ih =>
    obtain ⟨ht, hts⟩ := List.forall_mem_cons.1 hts
    have hspace (rest : List Char) : ∀ c ∈ (' ' :: rest).head?, c = ' ' :=
      fun c hc => (Option.some.inj hc).symm
    rw [List.map_cons, List.map_cons, String.intercalate_cons_cons, String.toList_append, String.toList_append,
      List.append_assoc, List.append_assoc, ← List.map_cons]
    change pieces (t.lexeme.toList ++ ' ' :: (_ ++ rest)) = _
    rw [pieces_lexeme ht (hspace _), pieces_space, ih hts]
    rfl

theorem tokens_spaced (line : Nat) :
    (Piece.tokens line (spacedPieces ts)).map Token.spelling = ts.map Token.spelling := by
  fun_induction spacedPieces ts generalizing line with
  | case1 => rfl
  | case2 t => simp [Piece.tokens, Token.spelling]
  | case3 t u ts ih => simp [Piece.tokens, Token.spelling, ih]

theorem no_fault_spaced : ∀ p ∈ spacedPieces ts, ∀ cause, p.content ≠ .fault cause := by
  fun_induction spacedPieces ts with
  | case1 => nofun
  | case2 t => exact List.forall_mem_singleton.2 nofun
  | case3 t u ts ih => exact List.forall_mem_cons.2 ⟨nofun, List.forall_mem_cons.2 ⟨nofun, ih⟩⟩

/-- The tokens of a text are what is parsed of it and the end. -/
theorem tokenize_eq (source : String) :
    (tokenize source).1 = words source ++ [⟨.eof, "", 1 + newlines source.toList⟩] := by
  have hpieces : ∀ line ps, (Item.ofPieces line ps).filterMap Item.token? =
      Piece.tokens line ps ++ [⟨.eof, "", line + newlines (ps.flatMap Piece.text)⟩] := by
    intro line ps
    induction ps generalizing line with
    | nil => rfl
    | cons p ps ih =>
      rw [Item.ofPieces, Piece.tokens, List.flatMap_cons, Piece.newlines_append, ← Nat.add_assoc]
      cases p.content with
      | token kind => exact congrArg _ (ih _)
      | blank | comment | fault => exact ih _
  have htext := hpieces 1 (pieces source.toList)
  rwa [text_pieces] at htext

theorem lexeme_of_mem_words {source : String} : ∀ t ∈ words source, Lexeme t.kind t.lexeme.toList := by
  intro t ht
  obtain ⟨p, hp, hcontent, hlexeme⟩ := Piece.mem_tokens ht
  rw [hlexeme, String.toList_ofList]
  exact lexeme_of_mem_pieces p hp hcontent

/-- A lexeme by itself is one token. -/
theorem tokenize_lexeme {t : Token} (ht : Lexeme t.kind t.lexeme.toList) :
    tokenize t.lexeme = ([⟨t.kind, t.lexeme, 1 + newlines t.lexeme.toList⟩,
      ⟨.eof, "", 1 + newlines t.lexeme.toList⟩], []) := by
  have hpieces : pieces t.lexeme.toList = [⟨.token t.kind, t.lexeme.toList⟩] := by
    have hlexeme : pieces (t.lexeme.toList ++ []) = _ := pieces_lexeme ht nofun
    simpa [pieces] using hlexeme
  unfold tokenize Item.ofSource
  rw [hpieces]
  simp [Item.ofPieces, Item.token?, Item.diagnostic?]

/-- Lexemes with blanks between them, and maybe after them, are scanned as what they are. -/
theorem tokenize_spaced (hts : ∀ t ∈ ts, Lexeme t.kind t.lexeme.toList) {source : String}
    {rest : List Char} (hrest : rest = [] ∨ rest = [' '])
    (hsource : source.toList = (" ".intercalate (ts.map Token.lexeme)).toList ++ rest) :
    (tokenize source).2 = [] ∧
      (tokenize source).1.map Token.spelling = ts.map Token.spelling ++ [(.eof, "")] := by
  have hblank : ∀ c ∈ rest.head?, c = ' ' := by
    obtain rfl | rfl := hrest
    · exact fun c hc => absurd hc (Option.not_mem_none c)
    · exact fun c hc => (Option.some.inj hc).symm
  have hnone : ∀ p ∈ pieces rest, p = ⟨.blank, [' ']⟩ := by
    obtain rfl | rfl := hrest
    · rw [pieces]
      exact fun p hp => absurd hp List.not_mem_nil
    · rw [pieces_space, pieces]
      exact List.forall_mem_singleton.2 rfl
  have hpieces := pieces_spaced hts hblank
  rw [← hsource] at hpieces
  refine ⟨lexical_iff.2 ?_, ?_⟩
  · rw [hpieces]
    refine List.forall_mem_append.2 ⟨no_fault_spaced, fun p hp cause hfault => ?_⟩
    rw [hnone p hp] at hfault
    cases hfault
  · have hblanks : Piece.tokens (1 + newlines ((spacedPieces ts).flatMap Piece.text)) (pieces rest) = [] := by
      refine List.eq_nil_iff_forall_not_mem.2 fun t ht => ?_
      obtain ⟨p, hp, hcontent, -⟩ := Piece.mem_tokens ht
      rw [hnone p hp] at hcontent
      cases hcontent
    rw [tokenize_eq, words, hpieces, Piece.tokens_append, hblanks, List.append_nil, List.map_append,
      tokens_spaced]
    rfl

/-- The end is a token without a lexeme: joined with the others it is a blank at the most. -/
theorem joined_cases (ts : List Token) (line : Nat) : ∃ rest, (rest = [] ∨ rest = [' ']) ∧
    (" ".intercalate ((ts ++ [(⟨.eof, "", line⟩ : Token)]).map Token.lexeme)).toList =
      (" ".intercalate (ts.map Token.lexeme)).toList ++ rest := by
  cases ts with
  | nil => exact ⟨[], .inl rfl, rfl⟩
  | cons t ts =>
    refine ⟨[' '], .inr rfl, ?_⟩
    rw [List.map_append, String.intercalate_append_of_ne_nil (by simp) (by simp)]
    simp

/-- A token is the longest lexeme behind the blanks and comments in front of it. It is of the kind for which a
word is reserved if it is that word. By itself it is scanned as the same token, and so are all tokens in
their order with a blank between any two. -/
theorem tokens_longest (source : String) :
    (∀ k, ((Scanner.new source).after k).next.1 = (Item.ofSource source)[k]?) ∧
      (∀ k t, (Item.ofSource source)[k]? = some (.token t) → t.kind ≠ .eof →
        ∃ text rest, ((Scanner.new source).after k).rest = some text ∧
          Skips text (t.lexeme.toList ++ rest) ∧
          ((Scanner.new source).after (k + 1)).rest = some rest ∧ Longest t.lexeme.toList rest) ∧
      (∀ t ∈ (tokenize source).1,
        (∀ entry ∈ Kind.reserved, t.kind = entry.2 ↔ t.lexeme = entry.1) ∧
        (t.kind = .identifier ↔ IsWord t.lexeme.toList ∧ ∀ entry ∈ Kind.reserved, t.lexeme ≠ entry.1)) ∧
      (∀ t ∈ (tokenize source).1, t.kind ≠ .eof → tokenize t.lexeme =
        ([⟨t.kind, t.lexeme, 1 + newlines t.lexeme.toList⟩,
          ⟨.eof, "", 1 + newlines t.lexeme.toList⟩], [])) ∧
      ∀ ts ∈ [(tokenize source).1, (tokenize source).1.dropLast],
        (tokenize (" ".intercalate (ts.map Token.lexeme))).2 = [] ∧
        (tokenize (" ".intercalate (ts.map Token.lexeme))).1.map Token.spelling =
          (tokenize source).1.map Token.spelling := by
  have hanswer (k : Nat) : ((Scanner.new source).after k).next.1 = (Item.ofSource source)[k]? := by
    rw [← Scanner.answer_after]
    exact (Scanner.new source).answer_eq k
  have hmem {t : Token} (ht : t ∈ (tokenize source).1) :
      Lexeme t.kind t.lexeme.toList ∨ t.kind = .eof ∧ t.lexeme = "" := by
    rw [tokenize_eq] at ht
    obtain ht | ht := List.mem_append.1 ht
    · exact .inl (lexeme_of_mem_words t ht)
    · cases List.mem_singleton.1 ht
      exact .inr ⟨rfl, rfl⟩
  refine ⟨hanswer, fun k t ht heof => ?_, fun t ht => ?_, fun t ht heof => ?_, ?_⟩
  · rw [← hanswer] at ht
    rw [Scanner.after_succ]
    exact Scanner.next_token ht heof
  · obtain hlexeme | ⟨hkind, hlexeme⟩ := hmem ht
    · refine ⟨fun entry hentry => ?_, ?_⟩
      · exact (hlexeme.reserved_iff hentry).trans (by rw [String.ofList_toList])
      · have hidentifier := hlexeme.identifier_iff
        rwa [String.ofList_toList] at hidentifier
    · rw [hkind, hlexeme]
      refine ⟨by decide, fun h => (nomatch h), fun h => ?_⟩
      obtain ⟨⟨letter, rest, h, -⟩, -⟩ := h
      exact absurd h (by simp)
  · obtain hlexeme | ⟨hkind, -⟩ := hmem ht
    · exact tokenize_lexeme hlexeme
    · exact absurd hkind heof
  · have hsame : (tokenize source).1.map Token.spelling =
        (words source).map Token.spelling ++ [(.eof, "")] := by
      rw [tokenize_eq, List.map_append]
      rfl
    rw [hsame, tokenize_eq, List.dropLast_concat]
    refine List.forall_mem_cons.2 ⟨?_, List.forall_mem_singleton.2 ?_⟩
    · obtain ⟨rest, hrest, htext⟩ := joined_cases (words source) (1 + newlines source.toList)
      exact tokenize_spaced lexeme_of_mem_words hrest htext
    · exact tokenize_spaced lexeme_of_mem_words (.inl rfl) (List.append_nil _).symm

/-- The reserved word with which a longer word begins is no token, and neither is a point that belongs to a
number. -/
theorem tokens_longest_neighbours :
    (Item.ofSource "1.5.andy<=and")[2]? = some (.token ⟨.identifier, "andy", 1⟩) ∧
      (∃ text rest, ((Scanner.new "1.5.andy<=and").after 2).rest = some text ∧
        Skips text ("andy".toList ++ rest) ∧
        ((Scanner.new "1.5.andy<=and").after 3).rest = some rest ∧ Longest "andy".toList rest) ∧
      tokenize "andy" = ([⟨.identifier, "andy", 1⟩, ⟨.eof, "", 1⟩], []) := by
  obtain ⟨-, hlongest, -, halone, -⟩ := tokens_longest "1.5.andy<=and"
  have hitem : (Item.ofSource "1.5.andy<=and")[2]? = some (.token ⟨.identifier, "andy", 1⟩) := by
    decide +kernel
  exact ⟨hitem, hlongest 2 _ hitem (by decide),
    halone ⟨.identifier, "andy", 1⟩ (by decide +kernel) (by decide)⟩

end Lox
