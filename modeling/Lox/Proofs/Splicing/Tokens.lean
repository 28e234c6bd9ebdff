import Mathlib.Data.List.TakeWhile
import Lox.Program.Parse

/-!
# Source texts on top of each other

A newline ends every piece but a string. So the tokens of a text that has no lexical errors, a
newline and any other text are those of the one and those of the other, which are further down.
-/
namespace Lox

section stop

variable {α : Type} {p : α → Bool} {s : α}

theorem takeWhile_append_stop (h : p s = false) (xs ys : List α) :
    (xs ++ s :: ys).takeWhile p = xs.takeWhile p := by
  induction xs with
  | nil => simp [h]
  | cons x xs ih =>
    rw [List.cons_append, List.takeWhile_cons, List.takeWhile_cons, ih]

theorem dropWhile_append_stop (h : p s = false) (xs ys : List α) :
    (xs ++ s :: ys).dropWhile p = xs.dropWhile p ++ s :: ys := by
  induction xs with
  | nil => simp [h]
  | cons x xs ih =>
    rw [List.cons_append, List.dropWhile_cons, List.dropWhile_cons, ih]
    split <;> rfl

/-- What a list begins with goes on to where it stops. -/
theorem takeWhile_append_rest {xs ys : List α} (hxs : ∀ x ∈ xs, p x = true) (hys : ∀ y ∈ ys.head?, p y = false) :
    (xs ++ ys).takeWhile p = xs ∧ (xs ++ ys).dropWhile p = ys := by
  rw [List.takeWhile_append_of_pos hxs, List.dropWhile_append_of_pos hxs]
  cases ys with
  | nil => exact ⟨List.append_nil xs, rfl⟩
  | cons y ys =>
    rw [List.takeWhile_cons, List.dropWhile_cons, hys y rfl]
    exact ⟨List.append_nil xs, rfl⟩

end stop

namespace Piece

open Character

variable (c : Char) (rest below : List Char)

theorem number_append : number c (rest ++ '\n' :: below) =
    ((number c rest).1, (number c rest).2 ++ '\n' :: below) := by
  have hstop : isDigit '\n' = false := by decide
  unfold number
  rw [takeWhile_append_stop hstop, dropWhile_append_stop hstop]
  cases hd : rest.dropWhile isDigit with
  | nil => rfl
  | cons point more =>
    by_cases hp : point = '.'
    · subst hp
      cases more with
      | nil => simp [hstop]
      | cons d more =>
        simp only [List.cons_append, takeWhile_append_stop hstop, dropWhile_append_stop hstop]
        split <;> rfl
    · simp [hp]

theorem word_append : word c (rest ++ '\n' :: below) =
    ((word c rest).1, (word c rest).2 ++ '\n' :: below) := by
  have hstop : isWordChar '\n' = false := by decide
  unfold word
  rw [takeWhile_append_stop hstop, dropWhile_append_stop hstop]

theorem comment_append : comment (rest ++ '\n' :: below) =
    ((comment rest).1, (comment rest).2 ++ '\n' :: below) := by
  have hstop : decide ('\n' ≠ '\n') = false := by decide
  unfold comment
  rw [takeWhile_append_stop (p := (· ≠ '\n')) hstop, dropWhile_append_stop (p := (· ≠ '\n')) hstop]

theorem operator_append : operator c (rest ++ '\n' :: below) =
    ((operator c rest).1, (operator c rest).2 ++ '\n' :: below) := by
  unfold operator
  cases Content.withEqual? c with
  | none => cases Content.operator? c <;> rfl
  | some kind =>
    cases rest with
    | nil => cases Content.operator? c <;> rfl
    | cons d more =>
      by_cases hd : d = '='
      · subst hd
        rfl
      · cases Content.operator? c <;> simp [hd]

theorem quoted_of_closed {raw : List Char} (hraw : '"' ∉ raw) :
    quoted (raw ++ '"' :: rest) = (⟨.ofQuoted raw, '"' :: raw ++ ['"']⟩, rest) := by
  have hstop : decide ('"' ≠ '"') = false := by decide
  have hpass : ∀ d ∈ raw, decide (d ≠ '"') = true := by
    intro d hd
    exact decide_eq_true fun h => hraw (h ▸ hd)
  unfold quoted
  rw [takeWhile_append_stop (p := (· ≠ '"')) hstop, dropWhile_append_stop (p := (· ≠ '"')) hstop,
    List.takeWhile_eq_self_iff.2 hpass, List.dropWhile_eq_nil_iff.2 hpass]
  rfl

/-- A string that is closed is closed before anything that follows. -/
theorem quoted_append (h : (quoted rest).1.content ≠ .fault .unterminatedString) :
    quoted (rest ++ '\n' :: below) = ((quoted rest).1, (quoted rest).2 ++ '\n' :: below) := by
  by_cases hmem : '"' ∈ rest
  · obtain ⟨raw, more, rfl, hraw⟩ := List.eq_append_cons_of_mem hmem
    rw [List.append_assoc, List.cons_append, quoted_of_closed _ hraw, quoted_of_closed _ hraw]
  · have hopen : rest.dropWhile (· ≠ '"') = [] := by
      refine List.dropWhile_eq_nil_iff.2 fun d hd => ?_
      exact decide_eq_true fun heq => hmem (heq ▸ hd)
    unfold quoted at h
    rw [hopen] at h
    exact absurd rfl h

/-- A piece that is not an open string ends where the text ends, if not before. -/
theorem next_append (h : (next c rest).1.content ≠ .fault .unterminatedString) :
    next c (rest ++ '\n' :: below) = ((next c rest).1, (next c rest).2 ++ '\n' :: below) := by
  unfold next at h ⊢
  by_cases hblank : isBlank c = true
  · rw [if_pos hblank, if_pos hblank]
  rw [if_neg hblank, if_neg hblank]
  by_cases hletter : isLetter c = true
  · rw [if_pos hletter, if_pos hletter]
    exact word_append c rest below
  rw [if_neg hletter, if_neg hletter]
  by_cases hdigit : isDigit c = true
  · rw [if_pos hdigit, if_pos hdigit]
    exact number_append c rest below
  rw [if_neg hdigit, if_neg hdigit]
  rw [if_neg hblank, if_neg hletter, if_neg hdigit] at h
  by_cases hquote : c = '"'
  · rw [if_pos hquote, if_pos hquote]
    rw [if_pos hquote] at h
    exact quoted_append rest below h
  rw [if_neg hquote, if_neg hquote]
  by_cases hslash : c = '/'
  · subst hslash
    cases rest with
    | nil => exact operator_append '/' [] below
    | cons d more =>
      by_cases hd : d = '/'
      · subst hd
        exact comment_append more below
      · have hop := operator_append '/' (d :: more) below
        simpa [hd] using hop
  · have hop := operator_append c rest below
    simpa [hslash] using hop

theorem ofInteger_kind {digits : List Char} {kind : Kind}
    (h : Content.ofInteger digits = .token kind) : ∃ n, kind = .number n := by
  unfold Content.ofInteger at h
  dsimp only at h
  split at h <;> cases h
  exact ⟨_, rfl⟩

theorem quoted_kind {kind : Kind} (h : (quoted rest).1.content = .token kind) :
    ∃ value, kind = .string value := by
  unfold quoted at h
  dsimp only at h
  split at h
  · unfold Content.ofQuoted at h
    dsimp only at h
    split at h <;> cases h
    exact ⟨_, rfl⟩
  · cases h

theorem number_kind {kind : Kind} (h : (number c rest).1.content = .token kind) :
    ∃ n, kind = .number n := by
  unfold number at h
  dsimp only at h
  split at h
  · split at h
    · cases h
      exact ⟨_, rfl⟩
    · exact ofInteger_kind h
  · exact ofInteger_kind h

theorem operator_kind {kind : Kind} (h : (operator c rest).1.content = .token kind) :
    Content.withEqual? c = some kind ∨ Content.operator? c = some kind := by
  unfold operator at h
  split at h
  · next hwith =>
    cases h
    exact .inl hwith
  · split at h
    · next hsingle =>
      cases h
      exact .inr hsingle
    · cases h

/-- A token is a word, a number, a string or an operator. -/
theorem next_kind {kind : Kind} (h : (next c rest).1.content = .token kind) :
    kind = .ofWord (String.ofList (next c rest).1.text) ∨ (∃ n, kind = .number n) ∨
      (∃ value, kind = .string value) ∨
      ∃ c, Content.withEqual? c = some kind ∨ Content.operator? c = some kind := by
  unfold next at h ⊢
  split at h
  · cases h
  next hblank =>
  split at h
  · next hletter =>
    rw [if_neg hblank, if_pos hletter]
    exact .inl (Content.token.inj h).symm
  split at h
  · exact .inr (.inl (number_kind c rest h))
  split at h
  · exact .inr (.inr (.inl (quoted_kind rest h)))
  split at h
  · cases h
  · exact .inr (.inr (.inr ⟨_, operator_kind c _ h⟩))

theorem mem_reserved_of_ofWord {word : String} {kind : Kind} (h : Kind.ofWord word = kind)
    (hkind : kind ≠ .identifier) : (word, kind) ∈ Kind.reserved := by
  unfold Kind.ofWord at h
  cases hl : Kind.reserved.lookup word with
  | none =>
    rw [hl] at h
    exact absurd h.symm hkind
  | some found =>
    rw [hl] at h
    cases h
    obtain ⟨before, after, heq, -⟩ := List.lookup_eq_some_iff.1 hl
    rw [heq]
    exact List.mem_append_right _ List.mem_cons_self

/-- Only the end of the source is an end-of-file token. -/
theorem next_ne_eof : (next c rest).1.content ≠ .token .eof := by
  have hreserved : ∀ entry ∈ Kind.reserved, entry.2 ≠ .eof := by decide
  intro h
  obtain h | ⟨n, h⟩ | ⟨value, h⟩ | ⟨c, h⟩ := next_kind c rest h
  · exact hreserved _ (mem_reserved_of_ofWord h.symm nofun) rfl
  · cases h
  · cases h
  · unfold Content.withEqual? Content.operator? at h
    obtain h | h := h <;> split at h <;> cases h

end Piece

/-- The kinds of the tokens that references are named by. -/
def Kind.referring : List Kind := [.kwThis, .kwSuper, .identifier]

/-- What is said of identifiers, of `this` and of `super` is said by their spelling. -/
def Token.Spelled (t : Token) : Prop := t.kind ∈ Kind.referring → Kind.ofWord t.lexeme = t.kind

namespace Piece

theorem ofWord_next {kind : Kind} (h : (next c rest).1.content = .token kind) (hkind : kind ∈ Kind.referring) :
    Kind.ofWord (String.ofList (next c rest).1.text) = kind := by
  obtain h | ⟨n, rfl⟩ | ⟨value, rfl⟩ | ⟨c, h⟩ := next_kind c rest h
  · exact h.symm
  · simp [Kind.referring] at hkind
  · simp [Kind.referring] at hkind
  · unfold Content.withEqual? Content.operator? at h
    simp only [Kind.referring, List.mem_cons, List.not_mem_nil, or_false] at hkind
    rcases hkind with rfl | rfl | rfl <;> obtain h | h := h <;> split at h <;> cases h

end Piece

theorem ofWord_of_mem_pieces {text : List Char} {kind : Kind} (hkind : kind ∈ Kind.referring) :
    ∀ p ∈ pieces text, p.content = .token kind → Kind.ofWord (String.ofList p.text) = kind := by
  fun_induction pieces text with
  | case1 => nofun
  | case2 c rest ih =>
    intro p hp h
    obtain rfl | hp := List.mem_cons.1 hp
    · exact Piece.ofWord_next h hkind
    · exact ih p hp h

theorem text_pieces (text : List Char) : (pieces text).flatMap Piece.text = text := by
  fun_induction pieces text with
  | case1 => rfl
  | case2 c rest ih => rw [List.flatMap_cons, ih, Piece.next_text]

theorem pieces_newline (below : List Char) :
    pieces ('\n' :: below) = ⟨.blank, ['\n']⟩ :: pieces below := by
  rw [pieces]
  rfl

theorem pieces_append {text : List Char} (below : List Char)
    (h : ∀ p ∈ pieces text, p.content ≠ .fault .unterminatedString) :
    pieces (text ++ '\n' :: below) = pieces text ++ pieces ('\n' :: below) := by
  fun_induction pieces text with
  | case1 => rfl
  | case2 c rest ih =>
    rw [List.cons_append, pieces, Piece.next_append c rest below (h _ List.mem_cons_self),
      ih fun p hp => h p (List.mem_cons_of_mem _ hp), List.cons_append]

theorem ne_eof_of_mem_pieces {text : List Char} : ∀ p ∈ pieces text, p.content ≠ .token .eof := by
  fun_induction pieces text with
  | case1 => nofun
  | case2 c rest ih =>
    intro p hp
    obtain rfl | hp := List.mem_cons.1 hp
    · exact Piece.next_ne_eof c rest
    · exact ih p hp

/-! ## Tokens and their lines -/

/-- The token on another line, further down. -/
def Token.lower (k : Nat) (t : Token) : Token := { t with line := t.line + k }

/-- The tokens that pieces are, the first of which begins on `line`. -/
def Piece.tokens (line : Nat) : List Piece → List Token
  | [] => []
  | piece :: rest =>
    let last := line + Item.newlines piece.text
    match piece.content with
    | .token kind => ⟨kind, String.ofList piece.text, last⟩ :: tokens last rest
    | _ => tokens last rest

namespace Piece

theorem newlines_append (xs ys : List Char) :
    Item.newlines (xs ++ ys) = Item.newlines xs + Item.newlines ys := List.count_append

theorem tokens_append (line : Nat) (ps qs : List Piece) :
    tokens line (ps ++ qs) =
      tokens line ps ++ tokens (line + Item.newlines (ps.flatMap Piece.text)) qs := by
  induction ps generalizing line with
  | nil => rfl
  | cons p ps ih =>
    have hline : line + Item.newlines ((p :: ps).flatMap Piece.text) =
        line + Item.newlines p.text + Item.newlines (ps.flatMap Piece.text) := by
      rw [List.flatMap_cons, newlines_append, Nat.add_assoc]
    rw [List.cons_append, tokens, tokens, hline, ih]
    cases p.content <;> rfl

theorem tokens_add (k line : Nat) (ps : List Piece) :
    tokens (line + k) ps = (tokens line ps).map (Token.lower k) := by
  induction ps generalizing line with
  | nil => rfl
  | cons p ps ih =>
    have hline : line + k + Item.newlines p.text = line + Item.newlines p.text + k :=
      Nat.add_right_comm _ _ _
    rw [tokens, tokens, hline, ih]
    cases p.content <;> rfl

/-- The lexeme of a token is the text of a piece. -/
theorem mem_tokens {line : Nat} {ps : List Piece} {t : Token} (ht : t ∈ tokens line ps) :
    ∃ p ∈ ps, p.content = .token t.kind ∧ t.lexeme = String.ofList p.text := by
  induction ps generalizing line with
  | nil => cases ht
  | cons p ps ih =>
    have hrest : t ∈ tokens (line + Item.newlines p.text) ps →
        ∃ q ∈ p :: ps, q.content = .token t.kind ∧ t.lexeme = String.ofList q.text := by
      intro ht
      obtain ⟨q, hq, hsame⟩ := ih ht
      exact ⟨q, List.mem_cons_of_mem _ hq, hsame⟩
    rw [tokens] at ht
    cases hc : p.content with
    | token kind =>
      rw [hc] at ht
      obtain rfl | ht := List.mem_cons.1 ht
      · exact ⟨p, List.mem_cons_self, hc, rfl⟩
      · exact hrest ht
    | blank | comment | fault cause =>
      rw [hc] at ht
      exact hrest ht

/-- What is parsed is the tokens of the pieces. -/
theorem rest_ofPieces (n line : Nat) {ps : List Piece} (h : ∀ p ∈ ps, p.content ≠ .token .eof) :
    (Cursor.start n ((Item.ofPieces line ps).filterMap Item.token?)).rest = tokens line ps := by
  unfold Cursor.start
  dsimp only
  induction ps generalizing line with
  | nil => rfl
  | cons p ps ih =>
    have hp := h p List.mem_cons_self
    have ih := ih (line + Item.newlines p.text) fun q hq => h q (List.mem_cons_of_mem _ hq)
    rw [Item.ofPieces, tokens]
    cases hc : p.content with
    | token kind =>
      have hkind : kind ≠ .eof := fun heq => hp (hc.trans (congrArg Content.token heq))
      dsimp only
      rw [List.filterMap_cons, Item.token?]
      dsimp only
      rw [List.takeWhile_cons, ih]
      exact if_pos (decide_eq_true hkind)
    | _ => exact ih

theorem diagnostics_ofPieces {line : Nat} {ps : List Piece} :
    (Item.ofPieces line ps).filterMap Item.diagnostic? = [] ↔
      ∀ p ∈ ps, ∀ cause, p.content ≠ .fault cause := by
  induction ps generalizing line with
  | nil => exact ⟨fun _ => nofun, fun _ => rfl⟩
  | cons p ps ih =>
    rw [Item.ofPieces, List.forall_mem_cons]
    cases p.content with
    | fault cause => exact ⟨fun h => (List.cons_ne_nil _ _ h).elim, fun h => absurd rfl (h.1 cause)⟩
    | _ => exact ih.trans ⟨fun h => ⟨nofun, h⟩, And.right⟩

end Piece

/-! ## Source texts -/

/-- The text below `k` empty lines. -/
def pushed (k : Nat) (source : String) : String := String.ofList (List.replicate k '\n') ++ source

/-- What is parsed of a source text. -/
def words (source : String) : List Token := Piece.tokens 1 (pieces source.toList)

variable {source : String} {n : Nat}

theorem spelled_words : ∀ t ∈ words source, t.Spelled := by
  intro t ht hkind
  obtain ⟨p, hp, hcontent, hlexeme⟩ := Piece.mem_tokens ht
  rw [hlexeme]
  exact ofWord_of_mem_pieces hkind p hp hcontent

theorem rest_tokenize : (Cursor.start n (tokenize source).1).rest = words source :=
  Piece.rest_ofPieces n 1 ne_eof_of_mem_pieces

theorem lexical_iff : (tokenize source).2 = [] ↔
    ∀ p ∈ pieces source.toList, ∀ cause, p.content ≠ .fault cause :=
  Piece.diagnostics_ofPieces

theorem pieces_pushed (k : Nat) (text : List Char) :
    pieces (List.replicate k '\n' ++ text) = List.replicate k ⟨.blank, ['\n']⟩ ++ pieces text := by
  induction k with
  | zero => rfl
  | succ k ih =>
    rw [List.replicate_succ, List.replicate_succ, List.cons_append, List.cons_append, pieces_newline, ih]

theorem tokens_blank (line k : Nat) (ps : List Piece) :
    Piece.tokens line (List.replicate k ⟨.blank, ['\n']⟩ ++ ps) = Piece.tokens (line + k) ps := by
  induction k generalizing line with
  | zero => rfl
  | succ k ih =>
    rw [List.replicate_succ, List.cons_append, Piece.tokens, Nat.add_comm k 1, ← Nat.add_assoc]
    exact ih (line + 1)

theorem toList_pushed (k : Nat) (source : String) :
    (pushed k source).toList = List.replicate k '\n' ++ source.toList := by
  unfold pushed
  rw [String.toList_append, String.toList_ofList]

theorem words_pushed (k : Nat) (source : String) :
    words (pushed k source) = (words source).map (Token.lower k) := by
  unfold words
  rw [toList_pushed, pieces_pushed, tokens_blank, Piece.tokens_add]

theorem lexical_pushed (k : Nat) (h : (tokenize source).2 = []) : (tokenize (pushed k source)).2 = [] := by
  rw [lexical_iff] at h ⊢
  rw [toList_pushed, pieces_pushed]
  intro p hp
  obtain hp | hp := List.mem_append.1 hp
  · cases List.eq_of_mem_replicate hp
    nofun
  · exact h p hp

variable {above below : String}

theorem pieces_below_closed (hopen : ∀ p ∈ pieces above.toList, p.content ≠ .fault .unterminatedString) :
    pieces (above ++ "\n" ++ below).toList =
      pieces above.toList ++ ⟨.blank, ['\n']⟩ :: pieces below.toList := by
  rw [String.toList_append, String.toList_append, List.append_assoc]
  exact (pieces_append below.toList hopen).trans (congrArg _ (pieces_newline below.toList))

theorem pieces_below (habove : (tokenize above).2 = []) :
    pieces (above ++ "\n" ++ below).toList =
      pieces above.toList ++ ⟨.blank, ['\n']⟩ :: pieces below.toList :=
  pieces_below_closed fun p hp => lexical_iff.1 habove p hp _

/-- The tokens of two texts on top of each other. -/
theorem words_below (habove : (tokenize above).2 = []) :
    words (above ++ "\n" ++ below) =
      words above ++ words (pushed (1 + Item.newlines above.toList) below) := by
  rw [words_pushed]
  unfold words
  rw [pieces_below habove, Piece.tokens_append, text_pieces, ← Piece.tokens_add]
  change _ ++ Piece.tokens (1 + Item.newlines above.toList + 1) _ = _
  rw [Nat.add_comm _ 1]

theorem lexical_below (habove : (tokenize above).2 = []) (hbelow : (tokenize below).2 = []) :
    (tokenize (above ++ "\n" ++ below)).2 = [] := by
  rw [lexical_iff] at hbelow ⊢
  rw [pieces_below habove]
  intro p hp
  obtain hp | hp := List.mem_append.1 hp
  · exact lexical_iff.1 habove p hp
  · obtain rfl | hp := List.mem_cons.1 hp
    · nofun
    · exact hbelow p hp

end Lox
