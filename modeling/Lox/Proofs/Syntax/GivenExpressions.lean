import Mathlib.Data.Nat.Init
import Lox.Proofs.Syntax.Grammar
import Lox.Proofs.Syntax.ParserLogic

/-!
# Expressions are read as their phrases say

The productions for expressions give the tree of the phrase that they face, whatever follows it,
provided that what follows does not go on with the phrase. The bound on the descent is sixteen for
a token plus a constant for the production: the ladder of precedence levels is ten productions high.

Operators of one level and suffixes group to the left while the parser loops. So a phrase with them
is described by what may happen next: a loop that goes on from its tree.
-/
namespace Lox.Parser

open Grammar

variable {α : Type}

/-! ## What follows -/

/-- Nothing that a call, or an operator of level `l` or tighter, goes on with. -/
def Quiet (l : Nat) (rest : List Token) : Prop :=
  ∀ k, ahead rest = some k →
    k ≠ .leftParen ∧ k ≠ .dot ∧ ∀ i, l ≤ i → Connective.ofKind? i k = none

/-- No expression goes on with such a token: it closes one, or a declaration begins with it. -/
def endsExpression (k : Kind) : Bool := k ∈ [.semicolon, .rightParen, .comma] || k.startsDeclaration

/-- What can follow a whole expression. -/
def Ends (rest : List Token) : Prop :=
  ∀ k, ahead rest = some k → endsExpression k = true

/-- No condition on what follows. -/
def Anything (_ : List Token) : Prop := True

theorem Quiet.mono {l l' : Nat} {rest : List Token} (h : Quiet l rest) (hl : l ≤ l') :
    Quiet l' rest :=
  fun k hk => ⟨(h k hk).1, (h k hk).2.1, fun i hi => (h k hk).2.2 i (Nat.le_trans hl hi)⟩

/-- The level of an operator. -/
def levelOf? : Kind → Option Nat
  | .kwOr => some 0
  | .kwAnd => some 1
  | .bangEqual | .equalEqual => some 2
  | .greater | .greaterEqual | .less | .lessEqual => some 3
  | .minus | .plus => some 4
  | .star | .slash | .percent => some 5
  | _ => none

theorem levelOf?_of_ofKind? {l : Nat} {k : Kind} {op : Connective}
    (h : Connective.ofKind? l k = some op) : levelOf? k = some l := by
  unfold Connective.ofKind? at h
  split at h <;> first | rfl | cases h

theorem ofKind?_eq_none {l : Nat} {k : Kind} (h : levelOf? k ≠ some l) :
    Connective.ofKind? l k = none :=
  Option.eq_none_iff_forall_ne_some.2 fun _ hop => h (levelOf?_of_ofKind? hop)

theorem lt_levels {l : Nat} {k : Kind} {op : Connective}
    (h : Connective.ofKind? l k = some op) : l < Connective.levels := by
  have hk := levelOf?_of_ofKind? h
  unfold levelOf? at hk
  split at hk <;> cases hk <;> decide

theorem quiet_of_levelOf? {l : Nat} {t : Token} {rest : List Token}
    (hopening : t.kind ≠ .leftParen) (hdot : t.kind ≠ .dot)
    (h : ∀ i, l ≤ i → levelOf? t.kind ≠ some i) : Quiet l (t :: rest) := by
  intro k hk
  cases hk
  exact ⟨hopening, hdot, fun i hi => ofKind?_eq_none (h i hi)⟩

theorem quiet_operator {l : Nat} {sign : Token} {rest : List Token} {op : Connective}
    (h : Connective.ofKind? l sign.kind = some op) : Quiet (l + 1) (sign :: rest) := by
  have hlevel := levelOf?_of_ofKind? h
  refine quiet_of_levelOf? ?_ ?_ fun i hi heq => ?_
  · intro heq
    rw [heq] at hlevel
    cases hlevel
  · intro heq
    rw [heq] at hlevel
    cases hlevel
  · rw [hlevel] at heq
    cases heq
    omega

theorem Ends.cons {t : Token} {k : Kind} {rest : List Token} (ht : t.kind = k)
    (h : endsExpression k = true) : Ends (t :: rest) := by
  intro k' hk'
  cases hk'
  rwa [ht]

theorem Ends.quiet {rest : List Token} (h : Ends rest) : Quiet 0 rest := by
  intro k hk
  have hk := h k hk
  cases k <;> first
    | exact absurd hk Bool.false_ne_true
    | exact ⟨nofun, nofun, fun _ _ => ofKind?_eq_none nofun⟩

theorem Ends.ne {rest : List Token} (h : Ends rest) {k : Kind} (hk : endsExpression k = false) :
    ahead rest ≠ some k := by
  intro heq
  rw [h k heq] at hk
  cases hk

/-! ## Given by a production -/

/-- The phrase begins as said. -/
def Begins (starts : Kind → Bool) (w : List Token) : Prop :=
  ∃ t v, w = t :: v ∧ starts t.kind = true

theorem Begins.append {starts : Kind → Bool} {w : List Token} (h : Begins starts w)
    (rest : List Token) : Begins starts (w ++ rest) := by
  obtain ⟨t, v, rfl, ht⟩ := h
  exact ⟨t, v ++ rest, rfl, ht⟩

theorem Begins.mono {starts starts' : Kind → Bool} {w : List Token} (h : Begins starts w)
    (hstarts : ∀ k, starts k = true → starts' k = true) : Begins starts' w := by
  obtain ⟨t, v, rfl, ht⟩ := h
  exact ⟨t, v, rfl, hstarts _ ht⟩

theorem Begins.ahead_ne {starts : Kind → Bool} {w : List Token} (h : Begins starts w) {k : Kind}
    (hk : starts k = false) : ahead w ≠ some k := by
  obtain ⟨t, v, rfl, ht⟩ := h
  intro heq
  rw [Option.some.inj heq, hk] at ht
  cases ht

/-- `p` gives the tree, if it may descend far enough and what comes after the phrase is as said. -/
structure GivenBy (starts : Kind → Bool) (height : Nat) (p : Nat → Parser α)
    (Follow : List Token → Prop) (n : Nat) (w : List Token) (a : α) (m : Nat) : Prop where
  begins : Begins starts w
  gives : ∀ depth rest, 16 * w.length + height ≤ depth → Follow rest →
    Gives (p depth) n (w ++ rest) a m rest

abbrev PrimaryGiven : Nat → List Token → Expr → Nat → Prop :=
  GivenBy startsPrimary 0 primary Anything

/-- Suffixes are read on from the tree of a call. -/
structure CallGiven (n : Nat) (w : List Token) (e : Expr) (m : Nat) : Prop where
  begins : Begins startsPrimary w
  gives : ∀ {d rest e' m' left}, (∀ depth, d < depth → Gives (suffixes depth e) m rest e' m' left) →
    ∀ depth, 16 * w.length + d + 1 < depth → Gives (unary depth) n (w ++ rest) e' m' left

abbrev UnaryGiven : Nat → List Token → Expr → Nat → Prop :=
  GivenBy startsExpression 2 unary (Quiet Connective.levels)

abbrev LevelGiven (l : Nat) : Nat → List Token → Expr → Nat → Prop :=
  GivenBy startsExpression (9 - l) (operators · l) (Quiet l)

/-- Operators of the level are read on from the tree of an expression of this level. -/
structure ChainGiven (l n : Nat) (w : List Token) (e : Expr) (m : Nat) : Prop where
  begins : Begins startsExpression w
  gives : ∀ {d rest e' m' left}, Quiet (l + 1) rest →
    (∀ depth, d < depth → Gives (chain depth l e) m rest e' m' left) →
    ∀ depth, 16 * w.length + (9 - l) + d ≤ depth →
      Gives (operators depth l) n (w ++ rest) e' m' left

abbrev AssignmentGiven : Nat → List Token → Expr → Nat → Prop :=
  GivenBy startsExpression 10 assignment Ends

abbrev ExpressionGiven : Nat → List Token → Expr → Nat → Prop :=
  GivenBy startsExpression 11 expression Ends

variable {l n k m : Nat} {u v w rest : List Token} {e : Expr}

/-! ## Calls -/

theorem primaryGiven_literal {t : Token} {value : Literal} (ht : t.kind.literal? = some value) :
    PrimaryGiven n [t] (.literal value) n := by
  refine ⟨⟨t, [], rfl, ?_⟩, fun depth rest hdepth _ => ?_⟩
  · cases hk : t.kind <;> rw [hk] at ht <;> first | rfl | cases ht
  · obtain ⟨depth, rfl⟩ := Nat.exists_eq_add_of_le' (show 1 ≤ depth by simp at hdepth; omega)
    unfold primary
    refine Gives.next? ?_
    dsimp only
    cases hk : t.kind with
    | kwTrue | kwFalse | kwNil | number | string =>
      rw [hk] at ht
      cases ht
      exact Gives.advance_then Gives.pure
    | _ =>
      rw [hk] at ht
      cases ht

/-- One reference, read from one token. -/
theorem primaryGiven_reference {t : Token} {e : Reference → Expr}
    (hstarts : startsPrimary t.kind = true)
    (h : ∀ depth rest, Gives (primary (depth + 1)) n (t :: rest) (e ⟨n, t.ident⟩) (n + 1) rest) :
    PrimaryGiven n [t] (e ⟨n, t.ident⟩) (n + 1) := by
  refine ⟨⟨t, [], rfl, hstarts⟩, fun depth rest hdepth _ => ?_⟩
  obtain ⟨depth, rfl⟩ := Nat.exists_eq_add_of_le' (show 1 ≤ depth by simp at hdepth; omega)
  exact h depth rest

theorem primaryGiven_this {t : Token} (ht : t.kind = .kwThis) :
    PrimaryGiven n [t] (.this ⟨n, t.ident⟩) (n + 1) := by
  refine primaryGiven_reference (by rw [ht]; rfl) fun depth rest => ?_
  unfold primary
  refine Gives.next? ?_
  dsimp only
  rw [ht]
  exact Gives.advance_then (Gives.reference.bind Gives.pure)

theorem primaryGiven_variable {t : Token} (ht : t.kind = .identifier) :
    PrimaryGiven n [t] (.variable ⟨n, t.ident⟩) (n + 1) := by
  refine primaryGiven_reference (by rw [ht]; rfl) fun depth rest => ?_
  unfold primary
  refine Gives.next? ?_
  dsimp only
  rw [ht]
  exact Gives.advance_then (Gives.reference.bind Gives.pure)

theorem primaryGiven_super {t dot method : Token} (ht : t.kind = .kwSuper)
    (hdot : dot.kind = .dot) (hmethod : method.kind = .identifier) :
    PrimaryGiven n [t, dot, method] (.super ⟨n, t.ident⟩ method.ident) (n + 1) := by
  refine ⟨⟨t, _, rfl, by rw [ht]; rfl⟩, fun depth rest hdepth _ => ?_⟩
  obtain ⟨depth, rfl⟩ := Nat.exists_eq_add_of_le' (show 1 ≤ depth by simp at hdepth; omega)
  unfold primary
  refine Gives.next? ?_
  dsimp only
  rw [ht]
  exact Gives.advance_then (Gives.expect_then hdot ((Gives.ident hmethod).bind
    (Gives.reference.bind Gives.pure)))

theorem primaryGiven_grouping {opening closing : Token} (hopening : opening.kind = .leftParen)
    (he : ExpressionGiven n w e m) (hclosing : closing.kind = .rightParen) :
    PrimaryGiven n (opening :: (w ++ [closing])) (.grouping e) m := by
  refine ⟨⟨opening, _, rfl, by rw [hopening]; rfl⟩, fun depth rest hdepth _ => ?_⟩
  simp only [List.length_cons, List.length_append] at hdepth
  obtain ⟨depth, rfl⟩ := Nat.exists_eq_add_of_le' (show 1 ≤ depth by omega)
  rw [List.cons_append, List.append_assoc]
  unfold primary
  refine Gives.next? ?_
  dsimp only
  rw [hopening]
  exact Gives.advance_then ((he.gives depth _ (by omega) (Ends.cons hclosing (by decide))).bind
    (Gives.expect_then hclosing Gives.pure))

theorem gives_suffixes_end {depth : Nat} (hdepth : 0 < depth)
    (hrest : Quiet Connective.levels rest) : Gives (suffixes depth e) m rest e m rest := by
  obtain ⟨depth, rfl⟩ := Nat.exists_eq_add_of_le' hdepth
  unfold suffixes
  exact Gives.ifAccept_miss (fun h => (hrest _ h).1 rfl)
    (Gives.ifAccept_miss (fun h => (hrest _ h).2.1 rfl) Gives.pure)

theorem callGiven_callee (he : PrimaryGiven n w e m) : CallGiven n w e m := by
  refine ⟨he.begins, fun {d rest e' m' left} h depth hdepth => ?_⟩
  obtain ⟨depth, rfl⟩ := Nat.exists_eq_add_of_le' (show 1 ≤ depth by omega)
  have hprimary : ∀ k, ahead (w ++ rest) = some k → (UnaryOp.ofKind? k).isSome = false := by
    obtain ⟨t, v, rfl, ht⟩ := he.begins
    intro k hk
    cases hk
    cases hk : t.kind <;> first | rfl | (rw [hk] at ht; cases ht)
  unfold unary
  exact Gives.untaken (fun k => (UnaryOp.ofKind? k).isSome) hprimary
    ((he.gives depth rest (by omega) trivial).bind (h depth (by omega)))

theorem callGiven_get {dot name : Token} (he : CallGiven n w e m) (hdot : dot.kind = .dot)
    (hname : name.kind = .identifier) :
    CallGiven n (w ++ [dot, name]) (.get e name.ident) m := by
  refine ⟨he.begins.append _, fun {d rest e' m' left} h depth hdepth => ?_⟩
  simp only [List.length_append, List.length_cons, List.length_nil] at hdepth
  rw [List.append_assoc]
  refine he.gives (d := d + 16) (fun depth hdepth => ?_) depth (by omega)
  obtain ⟨depth, rfl⟩ := Nat.exists_eq_add_of_le' (show 1 ≤ depth by omega)
  unfold suffixes
  exact Gives.ifAccept_miss (by simp [hdot]) (Gives.ifAccept_hit hdot
    ((Gives.ident hname).bind (h depth (by omega))))

/-- Trees of one kind with commas between them. -/
inductive Listed (P : Nat → List Token → α → Nat → Prop) :
    Nat → List Token → List α → Nat → Prop where
  | one {n w a m} (h : P n w a m) : Listed P n w [a] m
  | more {n u a k comma v as m} (h : P n u a k) (hcomma : comma.kind = .comma)
      (hs : Listed P k v as m) : Listed P n (u ++ comma :: v) (a :: as) m

theorem Listed.length_le {P : Nat → List Token → α → Nat → Prop} {as : List α}
    (h : Listed P n w as m) : as.length ≤ w.length + 1 := by
  induction h with
  | one => exact Nat.succ_le_succ (Nat.zero_le _)
  | more _ _ _ ih =>
    simp only [List.length_append, List.length_cons]
    omega

theorem Listed.begins {P : Nat → List Token → α → Nat → Prop} {starts : Kind → Bool} {as : List α}
    (h : Listed P n w as m) (hP : ∀ {n w a m}, P n w a m → Begins starts w) :
    Begins starts w := by
  cases h with
  | one h => exact hP h
  | more h => exact (hP h).append _

theorem gives_separated {item : Parser α} {cause : SyntaxError}
    {P : Nat → List Token → α → Nat → Prop} {as : List α} {closing : Token}
    (h : Listed P n w as m) (hclosing : closing.kind = .rightParen)
    (hitem : ∀ {n u a m rest}, P n u a m → u.length ≤ w.length → Ends rest →
      Gives item n (u ++ rest) a m rest)
    (depth count : Nat) (hdepth : as.length ≤ depth) (hcount : count + as.length ≤ maxArity) :
    Gives (separated item cause depth count) n (w ++ closing :: rest) as m (closing :: rest) := by
  induction h generalizing depth count with
  | one h =>
    obtain ⟨depth, rfl⟩ := Nat.exists_eq_add_of_le' hdepth
    rw [List.length_singleton] at hcount
    exact Gives.limit_then hcount
      ((hitem h (Nat.le_refl _) (Ends.cons hclosing (by decide))).bind
      ((Gives.behind_miss (by simp [hclosing])).bind Gives.pure))
  | @more n u a k comma v as m h hcomma hs ih =>
    rw [List.length_cons] at hdepth hcount
    obtain ⟨depth, rfl⟩ := Nat.exists_eq_add_of_le' (show 1 ≤ depth by omega)
    rw [List.append_assoc]
    refine Gives.limit_then (by omega)
      ((hitem h (by simp) (Ends.cons hcomma (by decide))).bind
      ((Gives.behind_hit hcomma (ih ?_ depth (count + 1) (by omega) (by omega))).bind Gives.pure))
    intro n z a m rest hz hlength hrest
    refine hitem hz ?_ hrest
    simp only [List.length_append, List.length_cons]
    omega

/-- The tree of an optional phrase, or nothing. -/
def Optional (P : Nat → List Token → α → Nat → Prop) (n : Nat) (w : List Token) (m : Nat) :
    Option α → Prop
  | none => w = [] ∧ m = n
  | some a => P n w a m

theorem gives_unlessNext {starts : Kind → Bool} {height depth : Nat} {p : Nat → Parser α}
    {Follow : List Token → Prop} {o : Option α} {t : Token} {kind : Kind}
    (h : Optional (GivenBy starts height p Follow) n w m o) (ht : t.kind = kind)
    (hk : starts kind = false) (hdepth : 16 * w.length + height ≤ depth)
    (hrest : Follow (t :: rest)) :
    Gives (unlessNext kind (p depth)) n (w ++ t :: rest) o m (t :: rest) := by
  cases o with
  | none =>
    obtain ⟨rfl, rfl⟩ := h
    exact Gives.unlessNext_hit (congrArg some ht)
  | some a =>
    exact Gives.unlessNext_miss ((GivenBy.begins h).append _ |>.ahead_ne hk)
      (GivenBy.gives h depth _ hdepth hrest)

/-- Arguments between their parentheses. -/
theorem gives_arguments {depth : Nat} {args : Option (List Expr)} {closing : Token}
    (h : Optional (Listed ExpressionGiven) n w m args) (hclosing : closing.kind = .rightParen)
    (hargs : (args.getD []).length ≤ maxArity) (hdepth : 16 * w.length + 16 ≤ depth) :
    Gives (unlessNext .rightParen (separated (expression depth) .tooManyArguments depth 0)) n
      (w ++ closing :: rest) args m (closing :: rest) := by
  cases args with
  | none =>
    obtain ⟨rfl, rfl⟩ := h
    exact Gives.unlessNext_hit (congrArg some hclosing)
  | some args =>
    have hbegins : Begins startsExpression w := Listed.begins h fun h => GivenBy.begins h
    have hlength := Listed.length_le h
    refine Gives.unlessNext_miss ((hbegins.append _).ahead_ne rfl)
      (gives_separated h hclosing (fun hu hlen hends => GivenBy.gives hu depth _ ?_ hends) depth 0
        ?_ ?_)
    · omega
    · omega
    · rwa [Nat.zero_add]

theorem callGiven_call {callee : Expr} {opening closing : Token} {args : Option (List Expr)}
    (hcallee : CallGiven n u callee k) (hopening : opening.kind = .leftParen)
    (h : Optional (Listed ExpressionGiven) k v m args)
    (hargs : (args.getD []).length ≤ maxArity) (hclosing : closing.kind = .rightParen) :
    CallGiven n (u ++ opening :: (v ++ [closing]))
      (.call callee closing.line (args.getD [])) m := by
  refine ⟨hcallee.begins.append _, fun {d rest e' m' left} hgo depth hdepth => ?_⟩
  simp only [List.length_append, List.length_cons, List.length_nil] at hdepth
  rw [List.append_assoc]
  refine hcallee.gives (d := 16 * (v.length + 2) + d) (fun depth hdepth => ?_) depth (by omega)
  obtain ⟨depth, rfl⟩ := Nat.exists_eq_add_of_le' (show 1 ≤ depth by omega)
  rw [List.cons_append, List.append_assoc]
  unfold suffixes
  exact Gives.ifAccept_hit hopening ((gives_arguments h hclosing hargs (by omega)).bind
    (Gives.take_then hclosing (hgo depth (by omega))))

/-! ## Operators -/

theorem unaryGiven_unprefixed (he : CallGiven n w e m) : UnaryGiven n w e m := by
  refine ⟨he.begins.mono fun k hk => by rw [startsExpression, hk]; rfl,
    fun depth rest hdepth hrest => ?_⟩
  exact he.gives (d := 0) (fun depth hd => gives_suffixes_end hd hrest) depth (by omega)

theorem unaryGiven_prefixed {sign : Token} {op : UnaryOp}
    (hop : UnaryOp.ofKind? sign.kind = some op) (he : UnaryGiven n w e m) :
    UnaryGiven n (sign :: w) (.unary op sign.line e) m := by
  refine ⟨⟨sign, w, rfl, ?_⟩, fun depth rest hdepth hrest => ?_⟩
  · cases hk : sign.kind <;> rw [hk] at hop <;> first | rfl | cases hop
  · rw [List.length_cons] at hdepth
    obtain ⟨depth, rfl⟩ := Nat.exists_eq_add_of_le' (show 1 ≤ depth by omega)
    unfold unary
    refine Gives.taken (by rw [hop]; rfl) ((he.gives depth rest (by omega) hrest).bind ?_)
    rw [hop]
    exact Gives.pure

theorem levelGiven_tightest (he : UnaryGiven n w e m) :
    LevelGiven Connective.levels n w e m := by
  refine ⟨he.begins, fun depth rest hdepth hrest => ?_⟩
  have hlevels : 9 - Connective.levels = 3 := rfl
  obtain ⟨depth, rfl⟩ := Nat.exists_eq_add_of_le' (show 1 ≤ depth by omega)
  exact he.gives depth rest (by omega) hrest

theorem gives_chain_end {depth : Nat} (hdepth : 0 < depth) (hrest : Quiet l rest) :
    Gives (chain depth l e) m rest e m rest := by
  obtain ⟨depth, rfl⟩ := Nat.exists_eq_add_of_le' hdepth
  unfold chain
  refine Gives.untaken (fun k => (Connective.ofKind? l k).isSome) (fun k hk => ?_) Gives.pure
  rw [(hrest k hk).2.2 l (Nat.le_refl _)]
  rfl

theorem chainGiven_tighter (hl : l < Connective.levels) (he : LevelGiven (l + 1) n w e m) :
    ChainGiven l n w e m := by
  refine ⟨he.begins, fun {d rest e' m' left} hrest hgo depth hdepth => ?_⟩
  have hlevels : Connective.levels = 6 := rfl
  have hlength : 0 < w.length := by
    obtain ⟨t, v, rfl, -⟩ := he.begins
    exact Nat.succ_pos _
  obtain ⟨depth, rfl⟩ := Nat.exists_eq_add_of_le' (show 1 ≤ depth by omega)
  unfold operators
  rw [if_pos hl]
  exact (he.gives depth rest (by omega) hrest).bind (hgo depth (by omega))

theorem chainGiven_joined {left right : Expr} {sign : Token} {op : Connective}
    (hleft : ChainGiven l n u left k) (hop : Connective.ofKind? l sign.kind = some op)
    (hright : LevelGiven (l + 1) k v right m) :
    ChainGiven l n (u ++ sign :: v) (op.join sign.line left right) m := by
  refine ⟨hleft.begins.append _, fun {d rest e' m' left'} hrest hgo depth hdepth => ?_⟩
  simp only [List.length_append, List.length_cons] at hdepth
  rw [List.append_assoc]
  refine hleft.gives (d := 16 * (v.length + 1) + d) (quiet_operator hop) (fun depth hdepth => ?_)
    depth (by omega)
  obtain ⟨depth, rfl⟩ := Nat.exists_eq_add_of_le' (show 1 ≤ depth by omega)
  unfold chain
  refine Gives.taken (by rw [hop]; rfl) ?_
  dsimp only
  rw [hop]
  exact (hright.gives depth rest (by omega) hrest).bind (hgo depth (by omega))

theorem ChainGiven.level (h : ChainGiven l n w e m) : LevelGiven l n w e m :=
  ⟨h.begins, fun depth rest hdepth hrest => h.gives (d := 0) (hrest.mono (Nat.le_succ l))
    (fun _ hd => gives_chain_end hd hrest) depth (by omega)⟩

/-- What is read as a call is read as an expression of any level. -/
theorem CallGiven.level (h : CallGiven n w e m) (hl : l ≤ Connective.levels) :
    LevelGiven l n w e m := by
  induction hl using Nat.decreasingInduction with
  | self => exact levelGiven_tightest (unaryGiven_unprefixed h)
  | of_succ l hl ih => exact (chainGiven_tighter hl ih).level

/-! ## Assignments -/

theorem assignmentGiven_loosest (he : LevelGiven 0 n w e m) : AssignmentGiven n w e m := by
  refine ⟨he.begins, fun depth rest hdepth hrest => ?_⟩
  obtain ⟨depth, rfl⟩ := Nat.exists_eq_add_of_le' (show 1 ≤ depth by omega)
  unfold assignment
  refine (he.gives depth rest (by omega) hrest.quiet).bind
    (Gives.untaken (fun k => decide (k = .equal)) (fun k hk => ?_) Gives.pure)
  refine decide_eq_false ?_
  rintro rfl
  exact hrest.ne (by decide) hk

/-- A tree for an assignment to a target. One to a name gets identity `l`. -/
def AssignsTo (target value : Expr) (l : Nat) (e : Expr) (m : Nat) : Prop :=
  (∃ ref, target = .variable ref ∧ e = .assign ⟨l, ref.name⟩ value ∧ m = l + 1) ∨
    ∃ object name, target = .get object name ∧ e = .set object name value ∧ m = l

theorem assignmentGiven_target {target value : Expr} {equals : Token} {l : Nat}
    (htarget : CallGiven n u target k) (hequals : equals.kind = .equal)
    (hvalue : AssignmentGiven k v value l) (he : AssignsTo target value l e m) :
    AssignmentGiven n (u ++ equals :: v) e m := by
  have hlevel := htarget.level (Nat.zero_le _)
  refine ⟨hlevel.begins.append _, fun depth rest hdepth hrest => ?_⟩
  simp only [List.length_append, List.length_cons] at hdepth
  obtain ⟨depth, rfl⟩ := Nat.exists_eq_add_of_le' (show 1 ≤ depth by omega)
  have hquiet : Quiet 0 (equals :: (v ++ rest)) :=
    quiet_of_levelOf? (by rw [hequals]; nofun) (by rw [hequals]; nofun)
      fun i _ => by rw [hequals]; nofun
  rw [List.append_assoc]
  unfold assignment
  refine (hlevel.gives depth _ (by omega) hquiet).bind (Gives.taken (decide_eq_true hequals)
    ((hvalue.gives depth rest (by omega) hrest).bind ?_))
  obtain ⟨ref, rfl, rfl, rfl⟩ | ⟨object, name, rfl, rfl, rfl⟩ := he
  · exact Gives.reference.bind Gives.pure
  · exact Gives.pure

theorem assignmentGiven_name {name equals : Token} {value : Expr} (hname : name.kind = .identifier)
    (hequals : equals.kind = .equal) (h : AssignmentGiven (n + 1) w value m) :
    AssignmentGiven n (name :: equals :: w) (.assign ⟨m, name.ident⟩ value) (m + 1) :=
  assignmentGiven_target (callGiven_callee (primaryGiven_variable hname)) hequals h
    (.inl ⟨_, rfl, rfl, rfl⟩)

theorem assignmentGiven_field {object value : Expr} {dot name equals : Token}
    (hobject : CallGiven n u object k) (hdot : dot.kind = .dot) (hname : name.kind = .identifier)
    (hequals : equals.kind = .equal) (h : AssignmentGiven k w value m) :
    AssignmentGiven n (u ++ dot :: name :: equals :: w) (.set object name.ident value) m := by
  have h := assignmentGiven_target (callGiven_get hobject hdot hname) hequals h
    (.inr ⟨_, _, rfl, rfl, rfl⟩)
  rwa [List.append_assoc] at h

theorem expressionGiven (h : AssignmentGiven n w e m) : ExpressionGiven n w e m := by
  refine ⟨h.begins, fun depth rest hdepth hrest => ?_⟩
  obtain ⟨depth, rfl⟩ := Nat.exists_eq_add_of_le' (show 1 ≤ depth by omega)
  exact h.gives depth rest (by omega) hrest

theorem ExpressionGiven.assignment (h : ExpressionGiven n w e m) : AssignmentGiven n w e m :=
  ⟨h.begins, fun depth rest hdepth hrest => h.gives (depth + 1) rest (by omega) hrest⟩

end Lox.Parser
