import Lox.Proofs.Relabeling.Trees
import Lox.Proofs.Syntax.Descent
import Lox.Proofs.Syntax.ParserLogic

/-!
# Parsers that keep pace

Two parsers keep pace if they do the same on the same tokens, whether they succeed or fail, and the first goes
forward. They may start with different identities and with different faults on record: neither is looked at. Each
primitive keeps pace with itself, and a sequence does if its parts do.

How many tokens are ahead is part of the judgement, so that what comes behind a token is judged of fewer.
-/
namespace Lox

/-- By how much one run is ahead of another: identities given out and faults recorded. -/
structure Offset where
  id : Nat
  faults : List SyntaxFault

namespace Offset

def none : Offset := ⟨0, []⟩

def labels (σ : Offset) : Labels := ⟨fun n => n, (· + σ.id)⟩

theorem labels_none : none.labels = .identity := rfl

end Offset

def Cursor.offset (σ : Offset) (c : Cursor) : Cursor :=
  { c with faults := σ.faults ++ c.faults, nextId := c.nextId + σ.id }

/-- Tokens that were ahead have been consumed, one at least. -/
def Cursor.Consumes (c c' : Cursor) : Prop := c'.rest <:+ c.rest ∧ c'.rest.length < c.rest.length

namespace Cursor

theorem boundary_suffix (last : Token) (tokens : List Token) : boundary last tokens <:+ tokens := by
  induction tokens generalizing last with
  | nil => exact List.suffix_refl _
  | cons t rest ih =>
    unfold boundary
    split
    · exact List.suffix_refl _
    · exact (ih t).trans (List.suffix_cons t rest)

theorem synchronize_suffix (c : Cursor) : c.synchronize.rest <:+ c.rest := by
  obtain ⟨_ | ⟨t, rest⟩, endLine, faults, nextId⟩ := c
  · exact List.suffix_refl _
  · exact (boundary_suffix t rest).trans (List.suffix_cons t rest)

/-- Where a token is ahead it is dropped. -/
theorem synchronize_shorter {c : Cursor} (h : 0 < c.rest.length) :
    c.synchronize.rest.length < c.rest.length := by
  obtain ⟨_ | ⟨t, rest⟩, endLine, faults, nextId⟩ := c
  · exact absurd h (Nat.lt_irrefl _)
  · exact Nat.lt_succ_of_le (boundary_suffix t rest).length_le

theorem synchronize_offset (σ : Offset) (c : Cursor) :
    (c.offset σ).synchronize = c.synchronize.offset σ := by
  obtain ⟨_ | ⟨t, rest⟩, endLine, faults, nextId⟩ := c <;> rfl

end Cursor

namespace Parser

variable {α β : Type} {σ : Offset} {r s t : Nat} {g : α → α} {h : β → β}

/-- One run from `c` comes to a result, and one of another parser, that is ahead by `σ`, to the same with the value
that `g` makes of it. The first has gone forward, by `s` tokens at least if it has succeeded. An error that it has
failed with is located at the token ahead. -/
def Paces (σ : Offset) (s : Nat) (g : α → α) (c : Cursor) :
    (first second : EStateM.Result SyntaxFault Cursor α) → Prop
  | .ok a d, second =>
    second = .ok (g a) (d.offset σ) ∧ d.rest <:+ c.rest ∧ d.rest.length + s ≤ c.rest.length
  | .error fault d, second =>
    second = .error fault (d.offset σ) ∧ d.rest <:+ c.rest ∧ fault = d.faultAt fault.cause

/-- On `r` tokens `p` and `q` do the same. -/
def InStep (σ : Offset) (r s : Nat) (g : α → α) (p q : Parser α) : Prop :=
  ∀ c : Cursor, c.rest.length = r → Paces σ s g c (p c) (q (c.offset σ))

/-- Seen from further back more has been consumed. -/
theorem Paces.of_suffix {c c' : Cursor} {first second : EStateM.Result SyntaxFault Cursor α}
    (hpaces : Paces σ s g c first second) (hsuffix : c.rest <:+ c'.rest)
    (hlength : c.rest.length + t ≤ c'.rest.length + s) : Paces σ t g c' first second := by
  cases first with
  | ok a d =>
    obtain ⟨hsecond, hrest, hless⟩ := hpaces
    exact ⟨hsecond, hrest.trans hsuffix, by omega⟩
  | error fault d =>
    obtain ⟨hsecond, hrest, hfault⟩ := hpaces
    exact ⟨hsecond, hrest.trans hsuffix, hfault⟩

namespace InStep

variable {p p' q q' : Parser α}

/-- Where neither is ahead they are the same. -/
theorem same (hp : InStep .none r s g p q) (hg : ∀ a, g a = a) {c : Cursor} (hc : c.rest.length = r) :
    q c = p c := by
  have hrun : Paces .none s g c (p c) (q c) := hp c hc
  cases hpc : p c with
  | ok a d =>
    rw [hpc] at hrun
    rw [hrun.1, hg]
    rfl
  | error fault d =>
    rw [hpc] at hrun
    exact hrun.1

theorem less (hp : InStep σ r s g p q) (hs : t ≤ s) : InStep σ r t g p q := by
  intro c hc
  exact (hp c hc).of_suffix (List.suffix_refl _) (Nat.add_le_add_left hs _)

/-- What has been consumed may not matter. -/
theorem any (hp : InStep σ r s g p q) : InStep σ r 0 g p q := hp.less (Nat.zero_le s)

theorem pure (a : α) : InStep σ r 0 g (Pure.pure a) (Pure.pure (g a)) :=
  fun _ _ => ⟨rfl, List.suffix_refl _, Nat.le_refl _⟩

theorem bind {f f' : α → Parser β} (hp : InStep σ r s g p q)
    (hf : ∀ a r', r' + s ≤ r → InStep σ r' t h (f a) (f' (g a))) :
    InStep σ r (t + s) h (p >>= f) (q >>= f') := by
  intro c hc
  have hfirst := hp c hc
  rw [bind_eq, bind_eq]
  cases hpc : p c with
  | ok a d =>
    rw [hpc] at hfirst
    obtain ⟨hsecond, hrest, hless⟩ := hfirst
    rw [hsecond]
    exact (hf a d.rest.length (by omega) d rfl).of_suffix hrest (by omega)
  | error fault d =>
    rw [hpc] at hfirst
    obtain ⟨hsecond, hrest, hfault⟩ := hfirst
    rw [hsecond]
    exact ⟨rfl, hrest, hfault⟩

theorem ite {b : Prop} [Decidable b] (hp : b → InStep σ r s g p p') (hq : ¬ b → InStep σ r s g q q') :
    InStep σ r s g (if b then p else q) (if b then p' else q') := by
  split
  · exact hp ‹b›
  · exact hq ‹¬ b›

theorem fail (cause : SyntaxError) : InStep σ r s g (Parser.fail cause) (Parser.fail cause) := by
  rintro ⟨_ | ⟨t, rest⟩, endLine, faults, nextId⟩ - <;> exact ⟨rfl, List.suffix_refl _, rfl⟩

theorem advance (hr : 0 < r) : InStep σ r 1 id Parser.advance Parser.advance := by
  rintro ⟨_ | ⟨t, rest⟩, endLine, faults, nextId⟩ rfl
  · exact absurd hr (Nat.lt_irrefl _)
  · exact ⟨rfl, List.suffix_cons t rest, Nat.le_refl _⟩

theorem reference (name : Ident) :
    InStep σ r 0 (Reference.relabel σ.labels) (Parser.reference name) (Parser.reference name) := by
  refine fun c _ => ⟨?_, List.suffix_refl _, Nat.le_refl _⟩
  change EStateM.Result.ok (Reference.mk (c.nextId + σ.id) name) { c.offset σ with nextId := c.nextId + σ.id + 1 } = _
  rw [Nat.add_right_comm]
  rfl

theorem limit (count : Nat) (cause : SyntaxError) :
    InStep σ r 0 id (Parser.limit count cause) (Parser.limit count cause) := by
  refine .ite (fun _ c hc => ⟨?_, List.suffix_refl _, Nat.le_refl _⟩) fun _ => .pure _
  change EStateM.Result.ok () { c.offset σ with faults := (σ.faults ++ c.faults) ++ [c.faultAt cause] } = _
  rw [List.append_assoc]
  rfl

/-- A fault that is recorded wherever parsing stands. -/
theorem record (fault : SyntaxFault) (a : α) : InStep σ r 0 g
    (do modify fun c : Cursor => { c with faults := c.faults ++ [fault] }; return a)
    (do modify fun c : Cursor => { c with faults := c.faults ++ [fault] }; return g a) := by
  refine fun c _ => ⟨?_, List.suffix_refl _, Nat.le_refl _⟩
  change EStateM.Result.ok (g a) { c.offset σ with faults := (σ.faults ++ c.faults) ++ [fault] } = _
  rw [List.append_assoc]
  rfl

/-- A choice by whether the next token passes a test. -/
theorem ifTaken {test : Token → Bool} {f f' : Option Token → Parser α}
    (hsome : ∀ t r', r' + 1 ≤ r → InStep σ r' (s - 1) g (f (some t)) (f' (some t)))
    (hnone : InStep σ r s g (f none) (f' none)) :
    InStep σ r s g (Parser.take? test >>= f) (Parser.take? test >>= f') := by
  rintro ⟨_ | ⟨t, rest⟩, endLine, faults, nextId⟩ rfl
  · exact hnone _ rfl
  · rw [bind_eq, bind_eq, take?_eq, take?_eq]
    dsimp only [Cursor.offset]
    by_cases htest : test t = true
    · simp only [htest, if_true]
      have hrun := hsome t rest.length (Nat.le_refl _) ⟨rest, endLine, faults, nextId⟩ rfl
      exact hrun.of_suffix (List.suffix_cons t rest) (by dsimp only [List.length_cons]; omega)
    · simp only [htest]
      exact hnone ⟨t :: rest, endLine, faults, nextId⟩ rfl

theorem ifAccept {kind : Kind} (hp : ∀ r', r' + 1 ≤ r → InStep σ r' (s - 1) g p p')
    (hq : InStep σ r s g q q') :
    InStep σ r s g (do if ← Parser.accept kind then p else q)
      (do if ← Parser.accept kind then p' else q') := by
  rintro ⟨_ | ⟨t, rest⟩, endLine, faults, nextId⟩ rfl
  · exact hq _ rfl
  · rw [bind_eq, bind_eq, accept_eq, accept_eq]
    dsimp only [Cursor.offset]
    by_cases hkind : ahead (t :: rest) = some kind
    · simp only [hkind, if_true]
      have hrun := hp rest.length (Nat.le_refl _) ⟨rest, endLine, faults, nextId⟩ rfl
      exact hrun.of_suffix (List.suffix_cons t rest) (by dsimp only [List.length_cons]; omega)
    · simp only [hkind, if_false]
      exact hq ⟨t :: rest, endLine, faults, nextId⟩ rfl

/-- The next token is looked at before anything is decided. -/
theorem ifNext {f f' : Option Token → Parser α} (hnone : InStep σ r s g (f none) (f' none))
    (hsome : 0 < r → ∀ t, InStep σ r s g (f (some t)) (f' (some t))) :
    InStep σ r s g (Parser.next? >>= f) (Parser.next? >>= f') := by
  rintro ⟨_ | ⟨t, rest⟩, endLine, faults, nextId⟩ rfl
  · exact hnone _ rfl
  · exact hsome (Nat.succ_pos _) t _ rfl

theorem ifClosing (hp : InStep σ r s g p p') (hq : 0 < r → InStep σ r s g q q') :
    InStep σ r s g (do if ← Parser.closing then p else q) (do if ← Parser.closing then p' else q') := by
  rintro ⟨_ | ⟨t, rest⟩, endLine, faults, nextId⟩ rfl
  · exact hp _ rfl
  · rw [bind_eq, bind_eq, closing_eq, closing_eq]
    exact InStep.ite (fun _ => hp) (fun _ => hq (Nat.succ_pos _)) ⟨t :: rest, endLine, faults, nextId⟩ rfl

theorem expect (kind : Kind) (cause : SyntaxError) :
    InStep σ r 1 id (Parser.expect kind cause) (Parser.expect kind cause) := by
  have heq : Parser.expect kind cause =
      (do if ← Parser.accept kind then Pure.pure () else Parser.fail cause) := by
    unfold Parser.expect
    exact congrArg (Parser.accept kind >>= ·) (funext fun b => by cases b <;> rfl)
  rw [heq]
  exact ifAccept (fun _ _ => .pure ()) (.fail cause)

theorem take (kind : Kind) (cause : SyntaxError) :
    InStep σ r 1 id (Parser.take kind cause) (Parser.take kind cause) :=
  ifTaken (fun t _ _ => .pure t) (.fail cause)

theorem ident (cause : SyntaxError) :
    InStep σ r 1 (Ident.relabel σ.labels) (Parser.ident cause) (Parser.ident cause) :=
  (take .identifier cause).bind fun _ _ _ => .pure _

theorem behind {kind : Kind} (hp : ∀ r', r' + 1 ≤ r → InStep σ r' s g p q) :
    InStep σ r 0 (Option.map g) (Parser.behind kind p) (Parser.behind kind q) :=
  ifAccept (fun r' hr' => (hp r' hr').any.bind fun _ _ _ => .pure _) (.pure none)

theorem unlessNext {kind : Kind} (hp : InStep σ r s g p q) :
    InStep σ r 0 (Option.map g) (Parser.unlessNext kind p) (Parser.unlessNext kind q) := by
  intro c hc
  change Paces σ 0 _ c ((if _ then _ else _ : Parser (Option α)) c)
    ((if decide (ahead c.rest = some kind) = true then _ else _ : Parser (Option α)) (c.offset σ))
  exact InStep.ite (fun _ => .pure none) (fun _ => hp.any.bind fun _ _ _ => .pure _) c hc

/-- The error of a failed run is recorded, and recovery goes forward. -/
theorem recovering (hp : InStep σ r 1 g p q) (hr : 0 < r) :
    InStep σ r 1 (Option.map g) (Parser.recovering p) (Parser.recovering q) := by
  intro c hc
  have hrun := hp c hc
  unfold Parser.recovering
  cases hpc : p c with
  | ok a d =>
    rw [hpc] at hrun
    obtain ⟨hsecond, hrest, hless⟩ := hrun
    rw [hsecond]
    exact ⟨rfl, hrest, hless⟩
  | error fault d =>
    rw [hpc] at hrun
    obtain ⟨hsecond, hrest, -⟩ := hrun
    have hoffset : { d.offset σ with faults := (d.offset σ).faults ++ [fault] } =
        { d with faults := d.faults ++ [fault] }.offset σ := by
      simp [Cursor.offset]
    rw [hsecond]
    dsimp only
    rw [hoffset, Cursor.synchronize_offset]
    generalize hd' : { d with faults := d.faults ++ [fault] } = d'
    have hrest' : d'.rest <:+ c.rest := by rwa [← hd']
    refine ⟨rfl, d'.synchronize_suffix.trans hrest', ?_⟩
    have hle := d'.synchronize_suffix.length_le
    have hle' := hrest'.length_le
    -- Where nothing has been consumed, a token is ahead.
    obtain hnone | hsome := Nat.eq_zero_or_pos d'.rest.length
    · omega
    · have hlt := Cursor.synchronize_shorter hsome
      omega

/-- Whether it is recovered or not, what comes out has consumed a token. -/
theorem recovering_consumes (hp : InStep σ r 1 g p q) {c : Cursor} (hc : c.rest.length = r) (hrest : c.rest ≠ []) :
    ∃ o c', Parser.recovering p c = .ok o c' ∧ c.Consumes c' := by
  have hrun := hp.recovering (hc ▸ List.length_pos_of_ne_nil hrest) c hc
  obtain ⟨o, c', ho⟩ : ∃ o c', Parser.recovering p c = .ok o c' := by
    unfold Parser.recovering
    cases p c with
    | ok a d => exact ⟨_, _, rfl⟩
    | error fault d => exact ⟨_, _, rfl⟩
  rw [ho] at hrun
  exact ⟨o, c', ho, hrun.2.1, hrun.2.2⟩

end InStep

end Parser
end Lox
