import Lox.Proofs.Syntax.Phrases

/-!
# Reasoning about parsers

Two judgements on a parser, each with a rule for every primitive and one for sequencing. `Finds`
speaks of runs that record nothing: whatever such a run consumes and returns is as described.
`Gives` speaks of one input: on it the parser succeeds with the given value, records nothing and
leaves the given rest.
-/
namespace Lox

/-- The kind of the token ahead. -/
def ahead (tokens : List Token) : Option Kind := tokens.head?.map Token.kind

@[simp] theorem ahead_cons (t : Token) (tokens : List Token) :
    ahead (t :: tokens) = some t.kind := rfl

theorem exists_cons_of_ahead {tokens : List Token} {k : Kind} (h : ahead tokens = some k) :
    ∃ t rest, tokens = t :: rest ∧ t.kind = k := by
  cases tokens with
  | nil => cases h
  | cons t rest => exact ⟨t, rest, rfl, Option.some.inj h⟩

namespace Parser

variable {α β : Type}

/-- If the parser succeeds and no fault stands recorded then, none did before. From identity `n` on
it then gave `a` for tokens `w` and faces identity `m` and tokens `r`, with `D n w a m r`. -/
def Finds (p : Parser α) (D : Nat → List Token → α → Nat → List Token → Prop) : Prop :=
  ∀ c a c', p c = .ok a c' → c'.faults = [] →
    c.faults = [] ∧ ∃ w, c.rest = w ++ c'.rest ∧ D c.nextId w a c'.nextId c'.rest

/-- What is found is the tree of a phrase. -/
abbrev FindsPhrase (ph : Phrase) (p : Parser ph.Tree) : Prop :=
  Finds p fun n w t m _ => Reading ph n w t m

/-- `Finds`, of the runs that begin at this token. -/
def FindsAt (t : Token) (p : Parser α) (D : Nat → List Token → α → Nat → List Token → Prop) :
    Prop :=
  ∀ c a c', c.rest.head? = some t → p c = .ok a c' → c'.faults = [] →
    c.faults = [] ∧ ∃ w, c.rest = w ++ c'.rest ∧ D c.nextId w a c'.nextId c'.rest

/-- From identity `n` and the tokens `input`, the parser gives `a`, records nothing and faces
identity `m` and the tokens `left`. -/
def Gives (p : Parser α) (n : Nat) (input : List Token) (a : α) (m : Nat) (left : List Token) :
    Prop :=
  ∀ endLine faults, p ⟨input, endLine, faults, n⟩ = .ok a ⟨left, endLine, faults, m⟩

/-! ## Runs of the primitives -/

theorem bind_eq (p : Parser α) (f : α → Parser β) (c : Cursor) :
    (p >>= f) c = match p c with
      | .ok a c' => f a c'
      | .error e c' => .error e c' := by
  show EStateM.bind p f c = _
  unfold EStateM.bind
  cases p c <;> rfl

theorem bind_eq_ok_iff {p : Parser α} {f : α → Parser β} {c c' : Cursor} {b : β} :
    (p >>= f) c = .ok b c' ↔ ∃ a c₁, p c = .ok a c₁ ∧ f a c₁ = .ok b c' := by
  rw [bind_eq]
  cases p c with
  | ok a c₁ => simp
  | error e c₁ => simp

theorem check_eq (k : Kind) (c : Cursor) :
    check k c = .ok (decide (ahead c.rest = some k)) c := by
  rfl

theorem accept_eq (k : Kind) (c : Cursor) :
    accept k c = if ahead c.rest = some k then .ok true { c with rest := c.rest.tail }
      else .ok false c := by
  unfold accept
  rw [bind_eq, check_eq]
  by_cases h : ahead c.rest = some k
  · simp only [h, decide_true, if_true]
    rfl
  · simp only [h, decide_false, if_false]
    rfl

theorem take?_eq (test : Token → Bool) (c : Cursor) :
    take? test c = match c.rest with
      | [] => .ok none c
      | t :: rest => if test t then .ok (some t) { c with rest := rest } else .ok none c := by
  obtain ⟨_ | ⟨t, rest⟩, endLine, faults, nextId⟩ := c
  · rfl
  · show (if test t = true then _ else _ : Parser (Option Token)) _ = if test t = true then _ else _
    by_cases h : test t = true
    · rw [if_pos h, if_pos h]
      rfl
    · rw [if_neg h, if_neg h]
      rfl

theorem closing_eq (c : Cursor) :
    closing c = .ok (decide (ahead c.rest = none ∨ ahead c.rest = some .rightBrace)) c := by
  obtain ⟨_ | ⟨t, rest⟩, endLine, faults, nextId⟩ := c
  · rfl
  · show EStateM.Result.ok (decide (t.kind = .rightBrace)) _ = _
    simp [ahead]

theorem boundary_faults (c : Cursor) : c.synchronize.faults = c.faults := by
  obtain ⟨_ | ⟨t, rest⟩, endLine, faults, nextId⟩ := c <;> rfl

/-! ## What is found -/

section Finds

variable {D E : Nat → List Token → α → Nat → List Token → Prop}

theorem Finds.mono {p : Parser α} (hp : Finds p D) (h : ∀ n w a m r, D n w a m r → E n w a m r) :
    Finds p E := by
  intro c a c' hr hf
  obtain ⟨h0, w, hw, hd⟩ := hp c a c' hr hf
  exact ⟨h0, w, hw, h _ _ _ _ _ hd⟩

theorem Finds.at {p : Parser α} {t : Token}
    (hp : Finds p fun n w a m r => (w ++ r).head? = some t → D n w a m r) : FindsAt t p D := by
  intro c a c' ht hr hf
  obtain ⟨h₀, w, hw, hd⟩ := hp c a c' hr hf
  rw [hw] at ht
  exact ⟨h₀, w, hw, hd ht⟩

theorem Finds.pure {a : α} (h : ∀ n r, D n [] a n r) : Finds (pure a : Parser α) D := by
  intro c b c' hr hf
  cases hr
  exact ⟨hf, [], rfl, h _ _⟩

theorem Finds.fail {cause : SyntaxError} : Finds (fail cause : Parser α) D := by
  intro c a c' hr
  cases hr

/-- What the first parser found is known only once the second is through: that nothing was recorded
is known at the end. -/
theorem Finds.bind {p : Parser β} {f : β → Parser α}
    {P : Nat → List Token → β → Nat → List Token → Prop} (hp : Finds p P)
    (hf : ∀ b, Finds (f b) fun k v a m r => ∀ n u, P n u b k (v ++ r) → D n (u ++ v) a m r) :
    Finds (p >>= f) D := by
  intro c a c' hr hnil
  obtain ⟨b, c₁, hpc, hfc⟩ := bind_eq_ok_iff.1 hr
  obtain ⟨h₁, v, hv, hd⟩ := hf b c₁ a c' hfc hnil
  obtain ⟨h₀, u, hu, hP⟩ := hp c b c₁ hpc h₁
  rw [hv] at hP
  exact ⟨h₀, u ++ v, by rw [hu, hv, List.append_assoc], hd _ u hP⟩

theorem Finds.ite {b : Bool} {p q : Parser α} (hp : b = true → Finds p D)
    (hq : b = false → Finds q D) : Finds (if b = true then p else q) D := by
  cases b with
  | false => exact hq rfl
  | true => exact hp rfl

/-- A choice by whether the next token passes a test. -/
theorem Finds.ifTaken {test : Token → Bool} {f : Option Token → Parser α}
    (hsome : ∀ t, test t = true → Finds (f (some t)) fun n w a m r => D n (t :: w) a m r)
    (hnone : Finds (f none) fun n w a m r =>
      (∀ t, (w ++ r).head? = some t → test t = false) → D n w a m r) :
    Finds (Parser.take? test >>= f) D := by
  intro c a c' hr hnil
  rw [bind_eq, take?_eq] at hr
  obtain ⟨_ | ⟨t, rest⟩, endLine, faults, nextId⟩ := c
  · obtain ⟨h₀, w, hw, hd⟩ := hnone _ a c' hr hnil
    refine ⟨h₀, w, hw, hd fun t ht => ?_⟩
    rw [← hw] at ht
    cases ht
  · by_cases htest : test t = true
    · simp only [htest, if_true] at hr
      obtain ⟨h₀, w, hw, hd⟩ := hsome t htest _ a c' hr hnil
      exact ⟨h₀, t :: w, congrArg (t :: ·) hw, hd⟩
    · simp only [htest] at hr
      obtain ⟨h₀, w, hw, hd⟩ := hnone _ a c' hr hnil
      refine ⟨h₀, w, hw, hd fun t' ht' => ?_⟩
      rw [← hw] at ht'
      cases ht'
      simpa using htest

theorem Finds.ifAccept {k : Kind} {p q : Parser α}
    (hp : Finds p fun n w a m r => ∀ t, t.kind = k → D n (t :: w) a m r)
    (hq : Finds q fun n w a m r => ahead (w ++ r) ≠ some k → D n w a m r) :
    Finds (do if ← Parser.accept k then p else q) D := by
  intro c a c' hr hnil
  rw [bind_eq, accept_eq] at hr
  by_cases hk : ahead c.rest = some k
  · rw [if_pos hk] at hr
    obtain ⟨t, rest, hrest, ht⟩ := exists_cons_of_ahead hk
    obtain ⟨h₀, w, hw, hd⟩ := hp _ a c' hr hnil
    refine ⟨h₀, t :: w, ?_, hd t ht⟩
    rw [hrest] at hw ⊢
    exact congrArg (t :: ·) hw
  · rw [if_neg hk] at hr
    obtain ⟨h₀, w, hw, hd⟩ := hq _ a c' hr hnil
    rw [hw] at hk
    exact ⟨h₀, w, hw, hd hk⟩

theorem Finds.expect_then {k : Kind} {cause : SyntaxError} {q : Parser α}
    (hq : Finds q fun n w a m r => ∀ t, t.kind = k → D n (t :: w) a m r) :
    Finds (do Parser.expect k cause; q) D := by
  have h : (do Parser.expect k cause; q) =
      (do if ← Parser.accept k then q else Parser.fail cause) := by
    unfold Parser.expect
    rw [bind_assoc]
    congr 1
    funext b
    cases b <;> rfl
  rw [h]
  exact Finds.ifAccept hq Finds.fail

theorem Finds.take_then {k : Kind} {cause : SyntaxError} {f : Token → Parser α}
    (hf : ∀ t, t.kind = k → Finds (f t) fun n w a m r => D n (t :: w) a m r) :
    Finds (Parser.take k cause >>= f) D := by
  unfold Parser.take
  rw [bind_assoc]
  refine Finds.ifTaken (fun t ht => ?_) ?_
  · exact hf t (of_decide_eq_true ht)
  · exact Finds.fail

theorem Finds.check {k : Kind} :
    Finds (check k) fun n w b m r => w = [] ∧ m = n ∧ b = decide (ahead r = some k) := by
  intro c b c' hr hf
  rw [check_eq] at hr
  cases hr
  exact ⟨hf, [], rfl, rfl, rfl, rfl⟩

theorem Finds.closing : Finds closing fun n w _ m _ => w = [] ∧ m = n := by
  intro c b c' hr hf
  rw [closing_eq] at hr
  cases hr
  exact ⟨hf, [], rfl, rfl, rfl⟩

/-- After something that consumes nothing and gives out nothing. -/
theorem Finds.bind_nil {p : Parser β} {f : β → Parser α}
    (hp : Finds p fun n w _ m _ => w = [] ∧ m = n) (hf : ∀ b, Finds (f b) D) :
    Finds (p >>= f) D := by
  refine hp.bind fun b => (hf b).mono fun k v a m r h n u hu => ?_
  obtain ⟨rfl, rfl⟩ := hu
  exact h

theorem Finds.reference {name : Ident} :
    Finds (reference name) fun n w ref m _ => w = [] ∧ m = n + 1 ∧ ref = ⟨n, name⟩ := by
  intro c ref c' hr hf
  cases hr
  exact ⟨hf, [], rfl, rfl, rfl, rfl⟩

theorem Finds.limit {count : Nat} {cause : SyntaxError} :
    Finds (limit count cause) fun n w _ m _ => w = [] ∧ m = n ∧ count < maxArity := by
  intro c a c' hr hf
  unfold Parser.limit at hr
  split at hr
  · cases hr
    simp at hf
  · cases hr
    exact ⟨hf, [], rfl, rfl, rfl, by omega⟩

/-- Nothing is found by a run that records a fault. -/
theorem Finds.record {fault : SyntaxFault} {a : α} :
    Finds (do modify fun c : Cursor => { c with faults := c.faults ++ [fault] }; return a) D := by
  intro c a c' hr hf
  cases hr
  simp at hf

/-- Recovery leaves a fault behind, so a run without any met none. -/
theorem Finds.recovering {p : Parser α} (hp : Finds p D) :
    Finds (recovering p) fun n w o m r => ∃ a, o = some a ∧ D n w a m r := by
  intro c o c' hr hf
  unfold Parser.recovering at hr
  cases hpc : p c with
  | ok a c₁ =>
    rw [hpc] at hr
    cases hr
    obtain ⟨h₀, w, hw, hd⟩ := hp c a _ hpc hf
    exact ⟨h₀, w, hw, a, rfl, hd⟩
  | error fault c₁ =>
    rw [hpc] at hr
    cases hr
    rw [boundary_faults] at hf
    simp at hf

/-- The next token is looked at before anything is decided. -/
theorem Finds.next? {f : Option Token → Parser α}
    (hnone : Finds (f none) fun n w a m r => w ++ r = [] → D n w a m r)
    (hsome : ∀ t, FindsAt t (f (some t)) D) : Finds (Parser.next? >>= f) D := by
  intro c a c' hr hf
  rw [bind_eq] at hr
  obtain ⟨_ | ⟨t, rest⟩, endLine, faults, nextId⟩ := c
  · obtain ⟨h₀, w, hw, hd⟩ := hnone _ a c' hr hf
    exact ⟨h₀, w, hw, hd hw.symm⟩
  · exact hsome t _ a c' rfl hr hf

theorem FindsAt.advance {t : Token} {q : Parser α}
    (hq : Finds q fun n w a m r => D n (t :: w) a m r) : FindsAt t (do Parser.advance; q) D := by
  intro c a c' ht hr hf
  rw [bind_eq] at hr
  obtain ⟨_ | ⟨t', rest⟩, endLine, faults, nextId⟩ := c
  · cases ht
  · cases ht
    obtain ⟨h₀, w, hw, hd⟩ := hq _ a c' hr hf
    exact ⟨h₀, t :: w, congrArg (t :: ·) hw, hd⟩

end Finds

/-! ## Phrases that are found -/

section Phrases

variable {ph : Phrase}

theorem Finds.ident {cause : SyntaxError} : FindsPhrase .ident (ident cause) :=
  Finds.take_then fun _ ht => Finds.pure fun _ _ => .ident ht

theorem Finds.behind {k : Kind} {p : Parser α}
    {D : Nat → List Token → Option α → Nat → List Token → Prop} (hnone : ∀ n r, ahead r ≠ some k → D n [] none n r)
    (hsome : Finds p fun n w a m r => ∀ t, t.kind = k → D n (t :: w) (some a) m r) :
    Finds (behind k p) D := by
  unfold Parser.behind
  refine Finds.ifAccept ?_ (Finds.pure fun n r h => hnone n r h)
  refine hsome.bind fun a => Finds.pure fun n r k u h t ht => ?_
  rw [List.append_nil]
  exact h t ht

theorem Finds.unlessNext {k : Kind} {p : Parser α}
    {P : Nat → List Token → α → Nat → List Token → Prop}
    {D : Nat → List Token → Option α → Nat → List Token → Prop} (hp : Finds p P)
    (hnone : ∀ n r, D n [] none n r) (hsome : ∀ n w a m r, P n w a m r → D n w (some a) m r) :
    Finds (unlessNext k p) D := by
  unfold Parser.unlessNext
  refine Finds.bind_nil (Finds.check.mono fun n w b m r h => ⟨h.1, h.2.1⟩) fun b => ?_
  refine Finds.ite (fun _ => Finds.pure hnone) fun _ => ?_
  refine hp.bind fun a => Finds.pure fun m r n u h => ?_
  rw [List.append_nil]
  exact hsome n u a m r h

/-- Comma lists of phrases. -/
theorem Finds.separated {item : Parser ph.Tree} {cause : SyntaxError}
    (hitem : FindsPhrase ph item) (depth count : Nat) :
    Finds (separated item cause depth count) fun n w ts m _ =>
      Reading (.separated ph) n w ts m ∧ count + ts.length ≤ maxArity := by
  induction depth generalizing count with
  | zero => exact Finds.fail
  | succ depth ih =>
    refine Finds.limit.bind fun _ => hitem.bind fun t =>
      (Finds.behind (D := fun n w o m _ => (o = none ∧ w = [] ∧ m = n) ∨ ∃ comma v ts,
        comma.kind = .comma ∧ w = comma :: v ∧ o = some ts ∧ Reading (.separated ph) n v ts m ∧
          count + 1 + ts.length ≤ maxArity) (fun n r _ => .inl ⟨rfl, rfl, rfl⟩) ?_).bind
      fun rest => Finds.pure fun m r k v hv n u hu n₀ z hz => ?_
    · refine (ih (count + 1)).mono fun n w ts m r h comma hcomma => ?_
      exact .inr ⟨comma, w, ts, hcomma, rfl, rfl, h.1, h.2⟩
    · obtain ⟨rfl, rfl, hcount⟩ := hz
      rw [List.append_nil, List.nil_append]
      obtain ⟨rfl, rfl, rfl⟩ | ⟨comma, v, ts, hcomma, rfl, rfl, hts, hlength⟩ := hv
      · rw [List.append_nil]
        exact ⟨.separatedOne hu, hcount⟩
      · refine ⟨.separatedMore hu hcomma hts, ?_⟩
        simp only [Option.getD_some, List.length_cons]
        omega

/-- Comma lists that may be missing. -/
theorem Finds.listing {item : Parser ph.Tree} {cause : SyntaxError} {k : Kind}
    (hitem : FindsPhrase ph item) (depth : Nat) :
    Finds (Parser.unlessNext k (Parser.separated item cause depth 0)) fun n w ts m _ =>
      Reading (.opt (.separated ph)) n w ts m ∧ (ts.getD []).length ≤ maxArity := by
  refine Finds.unlessNext (Finds.separated hitem depth 0)
    (fun _ _ => ⟨.optNone, Nat.zero_le _⟩) fun n w ts m r h => ⟨.optSome h.1, ?_⟩
  simpa using h.2

end Phrases

/-! ## What is given -/

section Gives

variable {n k m : Nat} {input middle rest left : List Token} {kind : Kind} {p q : Parser α}
  {a : α} {b : β}

theorem Gives.bind {f : α → Parser β} (hp : Gives p n input a k middle)
    (hf : Gives (f a) k middle b m left) : Gives (p >>= f) n input b m left := by
  intro endLine faults
  rw [bind_eq, hp]
  exact hf endLine faults

theorem Gives.pure : Gives (pure a) n input a n input := fun _ _ => rfl

theorem Gives.accept_hit {t : Token} (ht : t.kind = kind) :
    Gives (Parser.accept kind) n (t :: rest) true n rest := by
  intro endLine faults
  rw [accept_eq]
  exact if_pos (congrArg some ht)

theorem Gives.accept_miss (h : ahead input ≠ some kind) :
    Gives (Parser.accept kind) n input false n input := by
  intro endLine faults
  rw [accept_eq]
  exact if_neg h

theorem Gives.check :
    Gives (Parser.check kind) n input (decide (ahead input = some kind)) n input := by
  intro endLine faults
  rw [check_eq]

theorem Gives.closing : Gives Parser.closing n input
    (decide (ahead input = none ∨ ahead input = some .rightBrace)) n input := by
  intro endLine faults
  rw [closing_eq]

theorem Gives.ifAccept_hit {t : Token} (ht : t.kind = kind) (hp : Gives p n rest a m left) :
    Gives (do if ← Parser.accept kind then p else q) n (t :: rest) a m left :=
  (Gives.accept_hit ht).bind hp

theorem Gives.ifAccept_miss (h : ahead input ≠ some kind) (hq : Gives q n input a m left) :
    Gives (do if ← Parser.accept kind then p else q) n input a m left :=
  (Gives.accept_miss h).bind hq

theorem Gives.expect_hit {t : Token} {cause : SyntaxError} (ht : t.kind = kind) :
    Gives (Parser.expect kind cause) n (t :: rest) () n rest :=
  (Gives.accept_hit ht).bind Gives.pure

theorem Gives.expect_then {t : Token} {cause : SyntaxError} (ht : t.kind = kind)
    (hq : Gives q n rest a m left) :
    Gives (do Parser.expect kind cause; q) n (t :: rest) a m left :=
  (Gives.expect_hit ht).bind hq

theorem Gives.take?_hit {test : Token → Bool} {t : Token} (ht : test t = true) :
    Gives (Parser.take? test) n (t :: rest) (some t) n rest := by
  intro endLine faults
  rw [take?_eq]
  simp only [ht, if_true]

/-- A test on the kind that the next token does not pass. -/
theorem Gives.take?_miss (test : Kind → Bool) (h : ∀ kind, ahead input = some kind → test kind = false) :
    Gives (Parser.take? fun t => test t.kind) n input none n input := by
  intro endLine faults
  rw [take?_eq]
  cases input with
  | nil => rfl
  | cons t rest => simp only [h t.kind rfl, Bool.false_eq_true, if_false]

theorem Gives.taken {test : Token → Bool} {t : Token} {f : Option Token → Parser α}
    (ht : test t = true) (hf : Gives (f (some t)) n rest a m left) :
    Gives (Parser.take? test >>= f) n (t :: rest) a m left :=
  (Gives.take?_hit ht).bind hf

theorem Gives.untaken (test : Kind → Bool) {f : Option Token → Parser α}
    (h : ∀ kind, ahead input = some kind → test kind = false)
    (hf : Gives (f none) n input a m left) :
    Gives ((Parser.take? fun t => test t.kind) >>= f) n input a m left :=
  (Gives.take?_miss test h).bind hf

theorem Gives.take_then {t : Token} {cause : SyntaxError} {f : Token → Parser α}
    (ht : t.kind = kind) (hf : Gives (f t) n rest a m left) :
    Gives (Parser.take kind cause >>= f) n (t :: rest) a m left := by
  unfold Parser.take
  rw [bind_assoc]
  exact Gives.taken (decide_eq_true ht) hf

theorem Gives.ident {t : Token} {cause : SyntaxError} (ht : t.kind = .identifier) :
    Gives (Parser.ident cause) n (t :: rest) t.ident n rest :=
  Gives.take_then ht Gives.pure

theorem Gives.reference {name : Ident} :
    Gives (Parser.reference name) n input ⟨n, name⟩ (n + 1) input :=
  fun _ _ => rfl

theorem Gives.behind_hit {t : Token} (ht : t.kind = kind) (hp : Gives p n rest a m left) :
    Gives (behind kind p) n (t :: rest) (some a) m left :=
  Gives.ifAccept_hit ht (hp.bind Gives.pure)

theorem Gives.behind_miss (h : ahead input ≠ some kind) :
    Gives (behind kind p) n input none n input :=
  Gives.ifAccept_miss h Gives.pure

theorem Gives.unlessNext_hit (h : ahead input = some kind) :
    Gives (unlessNext kind p) n input none n input := by
  refine Gives.check.bind ?_
  rw [decide_eq_true h]
  exact Gives.pure

theorem Gives.unlessNext_miss (h : ahead input ≠ some kind) (hp : Gives p n input a m left) :
    Gives (unlessNext kind p) n input (some a) m left := by
  refine Gives.check.bind ?_
  rw [decide_eq_false h]
  exact hp.bind Gives.pure

theorem Gives.ifClosing_hit (h : ahead input = none ∨ ahead input = some .rightBrace)
    (hp : Gives p n input a m left) :
    Gives (do if ← Parser.closing then p else q) n input a m left := by
  refine Gives.closing.bind ?_
  rw [decide_eq_true h]
  exact hp

theorem Gives.ifClosing_miss (h : ahead input = some kind) (hk : kind ≠ .rightBrace)
    (hq : Gives q n input a m left) :
    Gives (do if ← Parser.closing then p else q) n input a m left := by
  refine Gives.closing.bind ?_
  rw [decide_eq_false (by rw [h]; simpa using hk)]
  exact hq

theorem Gives.limit_then {count : Nat} {cause : SyntaxError} (h : count < maxArity)
    (hq : Gives q n input a m left) :
    Gives (do Parser.limit count cause; q) n input a m left := by
  unfold Parser.limit
  rw [if_neg (by omega)]
  exact hq

theorem Gives.recovering (hp : Gives p n input a m left) :
    Gives (recovering p) n input (some a) m left := by
  intro endLine faults
  unfold Parser.recovering
  rw [hp]

theorem Gives.next? {t : Token} {f : Option Token → Parser α}
    (hf : Gives (f (some t)) n (t :: rest) a m left) :
    Gives (Parser.next? >>= f) n (t :: rest) a m left :=
  hf

theorem Gives.next?_end {f : Option Token → Parser α} (hf : Gives (f none) n [] a m left) :
    Gives (Parser.next? >>= f) n [] a m left :=
  hf

theorem Gives.advance_then {t : Token} (hq : Gives q n rest a m left) :
    Gives (do Parser.advance; q) n (t :: rest) a m left :=
  hq

end Gives

end Parser
end Lox
