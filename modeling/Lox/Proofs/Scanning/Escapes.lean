import Lox.Proofs.Scanning.LongestMatch

/-!
# Escapes

The characters between two quotes are read from left to right: plain characters, and escapes. An octal escape
takes as many digits as follow, but no more than three. Reading fails where a backslash is the last character,
or where the digits of an octal escape are more than a byte, and nowhere else. Every text can be written so that
it is read back.
-/
namespace Lox
namespace Escape

open Item (newlines)

def isOctal (c : Char) : Bool := '0' ≤ c && c ≤ '7'

def octalValue (digits : List Char) : Nat := digits.foldl (fun n c => n * 8 + (c.toNat - '0'.toNat)) 0

/-- The digits of one octal escape, of those that follow a backslash. -/
structure OctalRun (digits rest : List Char) : Prop where
  ne_nil : digits ≠ []
  octal : ∀ c ∈ digits, isOctal c = true
  length_le : digits.length ≤ 3
  greedy : digits.length = 3 ∨ ∀ c ∈ rest.head?, isOctal c = false

/-- Reading the escapes of `raw` from left to right comes to `rest`. -/
inductive Reads (raw : List Char) : (rest : List Char) → Prop
  | start : Reads raw raw
  | plain {c : Char} {rest : List Char} (hc : c ≠ '\\') (h : Reads raw (c :: rest)) : Reads raw rest
  | simple {c : Char} {rest : List Char} (hc : isOctal c = false) (h : Reads raw ('\\' :: c :: rest)) :
      Reads raw rest
  | octal {digits rest : List Char} (hrun : OctalRun digits rest) (hvalue : octalValue digits ≤ 255)
      (h : Reads raw ('\\' :: (digits ++ rest))) : Reads raw rest

/-- What cannot be read on from. -/
inductive Flaw : Fault → (rest : List Char) → Prop
  | unterminated : Flaw .unterminated ['\\']
  | outOfBounds {digits rest : List Char} (hrun : OctalRun digits rest) (hvalue : 255 < octalValue digits) :
      Flaw .outOfBounds ('\\' :: (digits ++ rest))

/-! ## One character or escape -/

theorem octalDigit?_eq_none {c : Char} : octalDigit? c = none ↔ isOctal c = false := by
  unfold octalDigit? isOctal
  rw [ite_eq_right_iff, Bool.and_eq_false_iff, decide_eq_false_iff_not, decide_eq_false_iff_not,
    ← not_and_or]
  exact ⟨fun h hc => (nomatch h hc), fun h hc => absurd hc h⟩

theorem octalDigit?_of_octal {c : Char} (h : isOctal c = true) :
    octalDigit? c = some (c.toNat - '0'.toNat) := by
  unfold isOctal at h
  rw [Bool.and_eq_true, decide_eq_true_eq, decide_eq_true_eq] at h
  exact if_pos h

variable {c : Char} {digits rest : List Char}

theorem decode_plain (hc : c ≠ '\\') : decode (c :: rest) = (c :: ·) <$> decode rest := by
  cases rest with
  | nil => exact if_neg hc
  | cons d rest => rw [decode, if_pos hc]

theorem decode_end : decode ['\\'] = .error .unterminated := rfl

theorem decode_simple (hc : isOctal c = false) :
    decode ('\\' :: c :: rest) = (simple c :: ·) <$> decode rest := by
  rw [decode, octalDigit?_eq_none.2 hc]
  rfl

section digits

variable {a b d : Char}

theorem decode_one (ha : isOctal a = true) (hrest : ∀ c ∈ rest.head?, isOctal c = false) :
    decode ('\\' :: a :: rest) = push (octalValue [a]) (decode rest) := by
  cases rest with
  | nil =>
    simp [decode, octalDigit?_of_octal ha, octalValue]
  | cons e rest =>
    rw [decode, octalDigit?_of_octal ha]
    simp [octalValue, octalDigit?_eq_none.2 (hrest e rfl)]

theorem decode_two (ha : isOctal a = true) (hb : isOctal b = true)
    (hrest : ∀ c ∈ rest.head?, isOctal c = false) :
    decode ('\\' :: a :: b :: rest) = push (octalValue [a, b]) (decode rest) := by
  cases rest with
  | nil =>
    simp [decode, octalDigit?_of_octal ha, octalDigit?_of_octal hb, octalValue]
  | cons e rest =>
    rw [decode, octalDigit?_of_octal ha]
    simp [octalValue, octalDigit?_of_octal hb, octalDigit?_eq_none.2 (hrest e rfl)]

theorem decode_three (ha : isOctal a = true) (hb : isOctal b = true) (hd : isOctal d = true) :
    decode ('\\' :: a :: b :: d :: rest) = push (octalValue [a, b, d]) (decode rest) := by
  rw [decode, octalDigit?_of_octal ha]
  simp [octalValue, octalDigit?_of_octal hb, octalDigit?_of_octal hd]

end digits

theorem decode_octal (h : OctalRun digits rest) :
    decode ('\\' :: (digits ++ rest)) = push (octalValue digits) (decode rest) := by
  obtain ⟨hne, hoctal, hlength, hgreedy⟩ := h
  match digits with
  | [] => exact absurd rfl hne
  | [a] =>
    have hrest := hgreedy.resolve_left (by simp)
    exact decode_one (hoctal a (by simp)) hrest
  | [a, b] =>
    have hrest := hgreedy.resolve_left (by simp)
    exact decode_two (hoctal a (by simp)) (hoctal b (by simp)) hrest
  | [a, b, d] => exact decode_three (hoctal a (by simp)) (hoctal b (by simp)) (hoctal d (by simp))
  | a :: b :: d :: e :: digits =>
    simp only [List.length_cons] at hlength
    omega

example : decode ['\\', '1', '0', '1', '1'] = .ok ['A', '1'] := by decide

theorem octalRun_of_octal (hc : isOctal c = true) (rest : List Char) :
    ∃ digits behind, c :: rest = digits ++ behind ∧ OctalRun digits behind := by
  match rest with
  | [] => exact ⟨[c], [], rfl, by simp, by simpa using hc, by simp, .inr (by simp)⟩
  | d :: rest =>
    by_cases hd : isOctal d = true
    · match rest with
      | [] => exact ⟨[c, d], [], rfl, by simp, by simpa using ⟨hc, hd⟩, by simp, .inr (by simp)⟩
      | e :: rest =>
        by_cases he : isOctal e = true
        · exact ⟨[c, d, e], rest, rfl, by simp, by simpa using ⟨hc, hd, he⟩, by simp, .inl rfl⟩
        · exact ⟨[c, d], e :: rest, rfl, by simp, by simpa using ⟨hc, hd⟩, by simp,
            .inr (by simpa using he)⟩
    · exact ⟨[c], d :: rest, rfl, by simp, by simpa using hc, by simp, .inr (by simpa using hd)⟩

/-- What is to be shown of all texts is shown of their first character or escape, given that it holds of what
follows. -/
@[elab_as_elim]
theorem text_induction {motive : List Char → Prop} (nil : motive []) (last : motive ['\\'])
    (plain : ∀ c rest, c ≠ '\\' → motive rest → motive (c :: rest))
    (simple : ∀ c rest, isOctal c = false → motive rest → motive ('\\' :: c :: rest))
    (octal : ∀ digits rest, OctalRun digits rest → motive rest → motive ('\\' :: (digits ++ rest)))
    (text : List Char) : motive text := by
  match text with
  | [] => exact nil
  | c :: rest =>
    by_cases hc : c = '\\'
    · subst hc
      match rest with
      | [] => exact last
      | d :: rest =>
        by_cases hd : isOctal d = true
        · obtain ⟨digits, behind, hsplit, hrun⟩ := octalRun_of_octal hd rest
          have hshorter : behind.length ≤ rest.length := by
            have hlength := congrArg List.length hsplit
            have hpos := List.length_pos_iff.2 hrun.ne_nil
            rw [List.length_append, List.length_cons] at hlength
            omega
          rw [hsplit]
          exact octal digits behind hrun (text_induction nil last plain simple octal behind)
        · exact simple d rest (eq_false_of_ne_true hd) (text_induction nil last plain simple octal rest)
    · exact plain c rest hc (text_induction nil last plain simple octal rest)
termination_by text.length
decreasing_by all_goals simp only [List.length_cons]; omega

/-! ## What cannot be read -/

theorem map_eq_error {α β : Type} {f : α → β} {x : Except Fault α} {fault : Fault} :
    f <$> x = .error fault ↔ x = .error fault := by
  cases x with
  | ok a => exact ⟨nofun, nofun⟩
  | error e => exact ⟨fun h => congrArg _ (Except.error.inj h), fun h => congrArg _ (Except.error.inj h)⟩

theorem push_of_le {code : Nat} (h : code ≤ 255) (text : Except Fault (List Char)) :
    push code text = (Char.ofNat code :: ·) <$> text := if_pos h

theorem push_of_lt {code : Nat} (h : 255 < code) (text : Except Fault (List Char)) :
    push code text = .error .outOfBounds := if_neg (Nat.not_le.2 h)

/-- What has been read makes no difference to what cannot be read. -/
theorem Reads.error_iff {raw : List Char} {fault : Fault} (h : Reads raw rest) :
    decode raw = .error fault ↔ decode rest = .error fault := by
  induction h with
  | start => rfl
  | plain hc h ih => rw [ih, decode_plain hc, map_eq_error]
  | simple hc h ih => rw [ih, decode_simple hc, map_eq_error]
  | octal hrun hvalue h ih => rw [ih, decode_octal hrun, push_of_le hvalue, map_eq_error]

theorem Flaw.error {fault : Fault} (h : Flaw fault rest) : decode rest = .error fault := by
  cases h with
  | unterminated => exact decode_end
  | outOfBounds hrun hvalue => rw [decode_octal hrun, push_of_lt hvalue]

/-- Reading goes on until there is nothing more to be read, or a flaw. -/
theorem Reads.flaw {raw : List Char} {fault : Fault} (h : Reads raw rest)
    (herror : decode rest = .error fault) : ∃ text, Reads raw text ∧ Flaw fault text := by
  induction rest using text_induction with
  | nil => cases herror
  | last =>
    cases herror
    exact ⟨_, h, .unterminated⟩
  | plain c rest hc ih =>
    rw [decode_plain hc, map_eq_error] at herror
    exact ih (.plain hc h) herror
  | simple c rest hc ih =>
    rw [decode_simple hc, map_eq_error] at herror
    exact ih (.simple hc h) herror
  | octal digits rest hrun ih =>
    rw [decode_octal hrun] at herror
    obtain hvalue | hvalue := Nat.lt_or_ge 255 (octalValue digits)
    · rw [push_of_lt hvalue] at herror
      cases herror
      exact ⟨_, h, .outOfBounds hrun hvalue⟩
    · rw [push_of_le hvalue, map_eq_error] at herror
      exact ih (.octal hrun hvalue h) herror

theorem decode_eq_error_iff {raw : List Char} {fault : Fault} :
    decode raw = .error fault ↔ ∃ rest, Reads raw rest ∧ Flaw fault rest := by
  constructor
  · exact Reads.start.flaw
  · rintro ⟨rest, hreads, hflaw⟩
    exact hreads.error_iff.2 hflaw.error

/-! ## What is read back -/

/-- The three digits that a quote is written with. -/
theorem octalRun_quote (rest : List Char) : OctalRun ['0', '4', '2'] rest :=
  ⟨by decide, List.all_eq_true.1 rfl, by decide, .inl rfl⟩

theorem decode_encode (text : List Char) : decode (encode text) = .ok text := by
  induction text with
  | nil => rfl
  | cons c text ih =>
    unfold encode
    by_cases hslash : c = '\\'
    · subst hslash
      rw [if_pos rfl, decode_simple (by decide), ih]
      rfl
    rw [if_neg hslash]
    by_cases hquote : c = '"'
    · subst hquote
      have hdecode := decode_octal (octalRun_quote (encode text))
      rw [ih] at hdecode
      rw [if_pos rfl]
      exact hdecode
    · rw [if_neg hquote, decode_plain hslash, ih]
      rfl

theorem quote_not_mem_encode (text : List Char) : '"' ∉ encode text := by
  induction text with
  | nil => exact List.not_mem_nil
  | cons c text ih =>
    unfold encode
    split
    · simpa using ih
    · split
      · simpa using ih
      · next hquote => simpa [ih] using Ne.symm hquote

theorem newlines_encode (text : List Char) : newlines (encode text) = newlines text := by
  unfold newlines
  induction text with
  | nil => rfl
  | cons c text ih =>
    unfold encode
    split
    · next hslash =>
      subst hslash
      simpa using ih
    · split
      · next hquote =>
        subst hquote
        simpa using ih
      · rw [List.count_cons, List.count_cons, ih]

end Escape

/-- The text as a literal. -/
def literal (text : String) : String := "\"" ++ String.ofList (Escape.encode text.toList) ++ "\""

open Item (newlines)

theorem toList_literal (text : String) :
    (literal text).toList = '"' :: Escape.encode text.toList ++ ['"'] := by
  unfold literal
  simp

theorem newlines_literal (text : String) : newlines (literal text).toList = newlines text.toList := by
  rw [toList_literal, Piece.newlines_append]
  change newlines (['"'] ++ Escape.encode text.toList) + 0 = _
  rw [Piece.newlines_append, Escape.newlines_encode]
  exact Nat.zero_add _

/-- Every text is the value of a literal. What stands between quotes is the value of none if there is a
backslash that nothing follows, or an octal escape of more than a byte, where the reading of its escapes
comes to. -/
theorem tokenize_literal :
    (∀ text : String, tokenize (literal text) =
      ([⟨.string text, literal text, 1 + newlines text.toList⟩,
        ⟨.eof, "", 1 + newlines text.toList⟩], [])) ∧
      ∀ raw fault, Escape.decode raw = .error fault ↔
        ∃ rest, Escape.Reads raw rest ∧ Escape.Flaw fault rest := by
  refine ⟨fun text => ?_, fun raw fault => Escape.decode_eq_error_iff⟩
  have hlexeme : Lexeme (.string text) (literal text).toList := by
    have hstring := Lexeme.string (Escape.quote_not_mem_encode text.toList) (Escape.decode_encode text.toList)
    rwa [String.ofList_toList, ← toList_literal] at hstring
  have htokens := tokenize_lexeme (t := ⟨.string text, literal text, 1⟩) hlexeme
  rwa [newlines_literal] at htokens

end Lox
