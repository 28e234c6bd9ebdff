import Mathlib.Data.List.Forall2
import Lox.Interpreter
import Lox.Proofs.Locals.Trees

/-!
# Values under other names

Two runs are compared in which local variables have different names. Frames have the same handles in both,
and each of them was made for a scope, which is marked if it declares the new name. A function carries code
for the scopes around the frame that it closes over. All else about values is the same.
-/
namespace Lox

theorem rel_cases {α β : Type} {R : α → β → Prop} {a : Option α} {b : Option β} (h : Option.Rel R a b) :
    (a = none ∧ b = none) ∨ ∃ x y, a = some x ∧ b = some y ∧ R x y := by
  cases h with
  | none => exact .inl ⟨rfl, rfl⟩
  | some h => exact .inr ⟨_, _, rfl, rfl, h⟩

theorem rel_mono {α β : Type} {R S : α → β → Prop} {a : Option α} {b : Option β} (h : Option.Rel R a b)
    (hRS : ∀ x y, R x y → S x y) : Option.Rel S a b := by
  cases h with
  | none => exact .none
  | some h => exact .some (hRS _ _ h)

theorem foldr_eq_of_forall₂ {α β γ : Type} {R : α → β → Prop} {f : α → γ → γ} {g : β → γ → γ} {as : List α}
    {bs : List β} (h : List.Forall₂ R as bs) (hfg : ∀ a b, R a b → g b = f a) (c : γ) :
    bs.foldr g c = as.foldr f c := by
  induction h with
  | nil => rfl
  | cons hab _ ih => rw [List.foldr_cons, List.foldr_cons, hfg _ _ hab, ih]

/-! ## Name tables -/

namespace Bindings

variable {α β : Type} {f : String → String} {R S : α → β → Prop} {b : Bindings α} {b' : Bindings β}

/-- The second table holds the like of the first one under other names, in the same order. -/
def Matched (f : String → String) (R : α → β → Prop) (b : Bindings α) (b' : Bindings β) : Prop :=
  List.Forall₂ (fun p q => q.1 = f p.1 ∧ R p.2 q.2) b.entries b'.entries

namespace Matched

theorem empty : (Bindings.empty : Bindings α).Matched f R Bindings.empty := .nil

theorem mono (h : b.Matched f R b') (hRS : ∀ a a', R a a' → S a a') : b.Matched f S b' :=
  List.Forall₂.imp (fun _ _ hp => ⟨hp.1, hRS _ _ hp.2⟩) h

theorem refl {R : α → α → Prop} (h : ∀ a ∈ b.values, R a a) : b.Matched id R b := by
  obtain ⟨entries⟩ := b
  refine List.forall₂_same.2 fun p hp => ⟨rfl, h p.2 ?_⟩
  exact List.mem_map_of_mem hp

theorem values (h : b.Matched f R b') : List.Forall₂ R b.values b'.values := by
  unfold Matched at h
  unfold Bindings.values
  rw [List.forall₂_map_left_iff, List.forall₂_map_right_iff]
  exact h.imp fun _ _ hp => hp.2

theorem find? (hf : Function.Injective f) (h : b.Matched f R b') (name : String) :
    Option.Rel R (b.find? name) (b'.find? (f name)) := by
  obtain ⟨entries⟩ := b
  obtain ⟨entries'⟩ := b'
  unfold Matched at h
  unfold Bindings.find?
  dsimp only at h ⊢
  induction h with
  | nil => exact .none
  | @cons p q rest rest' hpq _ ih =>
    obtain ⟨key, a⟩ := p
    obtain ⟨key', a'⟩ := q
    obtain ⟨rfl, hR⟩ := hpq
    by_cases hkey : key = name
    · simpa [lookup, hkey] using Option.Rel.some hR
    · simpa [lookup, hkey, hf.eq_iff] using ih

theorem insert (hf : Function.Injective f) (h : b.Matched f R b') (name : String) {a : α} {a' : β}
    (ha : R a a') : (b.insert name a).Matched f R (b'.insert (f name) a') := by
  obtain ⟨entries⟩ := b
  obtain ⟨entries'⟩ := b'
  unfold Matched at h ⊢
  unfold Bindings.insert
  dsimp only at h ⊢
  induction h with
  | nil => exact .cons ⟨rfl, ha⟩ .nil
  | @cons p q rest rest' hpq hrest ih =>
    obtain ⟨key, old⟩ := p
    obtain ⟨key', old'⟩ := q
    obtain ⟨rfl, hR⟩ := hpq
    by_cases hkey : key = name
    · simpa [place, hkey] using ⟨ha, hrest⟩
    · simpa [place, hkey, hf.eq_iff] using ⟨hR, ih⟩

end Matched
end Bindings

/-! ## Values -/

/-- The marks of the scopes around a frame, its own scope first, for the frames that have been made. -/
abbrev Marking := Handle → Option (List Bool)

namespace Marking

/-- Whether the scope of the frame itself is marked. -/
def mark (μ : Marking) (h : Handle) : Bool := isMarked ((μ h).getD []) 0

theorem mark_of_some {μ : Marking} {h : Handle} {marks : List Bool} (hm : μ h = some marks) :
    μ.mark h = isMarked marks 0 := by
  rw [mark, hm, Option.getD_some]

/-- The second marking has frames besides. -/
def Extends (μ μ' : Marking) : Prop := ∀ h marks, μ h = some marks → μ' h = some marks

theorem Extends.refl (μ : Marking) : μ.Extends μ := fun _ _ h => h

theorem Extends.trans {μ μ' μ'' : Marking} (h : μ.Extends μ') (h' : μ'.Extends μ'') : μ.Extends μ'' :=
  fun g marks hg => h' g marks (h g marks hg)

end Marking

section

variable (ξ : Exchange) (μ : Marking)

/-- Between its closure and its code a method has the scopes `inner`. -/
structure Function.Exchanged (inner : List Bool) (f g : Function) : Prop where
  stamp : g.stamp = f.stamp
  closure : g.closure = f.closure
  isInitializer : g.isInitializer = f.isInitializer
  binding : g.binding = f.binding
  code : ∃ marks, μ f.closure = some marks ∧ f.decl.Exchanged ξ (inner ++ marks) g.decl

/-- A method lies in the scope of `this`, whose frame is made when it is bound. -/
structure Class.Exchanged (c d : Class) : Prop where
  stamp : d.stamp = c.stamp
  name : d.name = c.name
  closures : d.closures = c.closures
  methods : ∀ name, Option.Rel (Function.Exchanged ξ μ [false]) (c.findMethod? name) (d.findMethod? name)

def Value.Exchanged : Value → Value → Prop
  | .function f, w => ∃ g, w = .function g ∧ f.Exchanged ξ μ [] g
  | .classObject c, w => ∃ d, w = .classObject d ∧ c.Exchanged ξ μ d
  | v, w => w = v

/-- What an operation gives, or why it fails. -/
inductive Outcome.Exchanged : Except RuntimeError Value → Except RuntimeError Value → Prop where
  | ok {v w} (h : v.Exchanged ξ μ w) : Outcome.Exchanged (.ok v) (.ok w)
  | error (cause : RuntimeError) : Outcome.Exchanged (.error cause) (.error cause)

end

variable {ξ : Exchange} {μ μ' : Marking}

theorem FunctionDecl.Exchanged.length_params {marks : List Bool} {decl decl' : FunctionDecl}
    (h : decl.Exchanged ξ marks decl') : decl'.params.length = decl.params.length := by
  cases h
  exact List.length_map _

namespace Function.Exchanged

variable {inner : List Bool} {f g : Function}

theorem mono (h : f.Exchanged ξ μ inner g) (hμ : μ.Extends μ') : f.Exchanged ξ μ' inner g := by
  obtain ⟨marks, hmarks, hcode⟩ := h.code
  exact ⟨h.stamp, h.closure, h.isInitializer, h.binding, marks, hμ _ _ hmarks, hcode⟩

theorem name (h : f.Exchanged ξ μ inner g) : g.name = f.name := by
  obtain ⟨marks, -, hcode⟩ := h.code
  exact congrArg Ident.text hcode.name

theorem arity (h : f.Exchanged ξ μ inner g) : g.arity = f.arity := by
  obtain ⟨marks, -, hcode⟩ := h.code
  exact hcode.length_params

/-- A function that closes over a frame with no mark around it. -/
theorem refl (hf : μ f.closure = some []) (hinner : Unmarked inner) : f.Exchanged ξ μ inner f := by
  refine ⟨rfl, rfl, rfl, rfl, [], hf, ?_⟩
  rw [List.append_nil]
  exact FunctionDecl.Exchanged.refl hinner f.decl

end Function.Exchanged

namespace Class.Exchanged

variable {c d : Class}

theorem mono (h : c.Exchanged ξ μ d) (hμ : μ.Extends μ') : c.Exchanged ξ μ' d :=
  ⟨h.stamp, h.name, h.closures, fun name => rel_mono (h.methods name) fun _ _ hf => hf.mono hμ⟩

theorem arity (h : c.Exchanged ξ μ d) : d.arity = c.arity := by
  unfold Class.arity
  obtain ⟨hc, hd⟩ | ⟨f, g, hc, hd, hf⟩ := rel_cases (h.methods initializerName)
  · rw [hc, hd]
  · rw [hc, hd]
    exact hf.arity

end Class.Exchanged

namespace Value.Exchanged

variable {v v' w w' : Value}

theorem mono (h : v.Exchanged ξ μ w) (hμ : μ.Extends μ') : v.Exchanged ξ μ' w := by
  cases v with
  | function f => exact h.imp fun g hg => ⟨hg.1, hg.2.mono hμ⟩
  | classObject c => exact h.imp fun d hd => ⟨hd.1, hd.2.mono hμ⟩
  | _ => exact h

theorem literal (value : Literal) : (Value.ofLiteral value).Exchanged ξ μ (.ofLiteral value) := by
  cases value <;> exact rfl

theorem object? (h : v.Exchanged ξ μ w) : w.object? = v.object? := by
  cases v with
  | function f =>
    obtain ⟨g, rfl, hf⟩ := h
    exact hf.binding
  | classObject c =>
    obtain ⟨d, rfl, -⟩ := h
    rfl
  | _ => exact congrArg Value.object? h

theorem objects {values values' : List Value} (h : List.Forall₂ (Value.Exchanged ξ μ) values values') :
    Value.objects values' = Value.objects values := by
  induction h with
  | nil => rfl
  | cons hv _ ih =>
    unfold Value.objects at ih ⊢
    rw [List.filterMap_cons, List.filterMap_cons, hv.object?, ih]

theorem nodes (h : v.Exchanged ξ μ w) : w.nodes = v.nodes := by
  cases v with
  | function f =>
    obtain ⟨g, rfl, hf⟩ := h
    exact congrArg (fun closure => [Node.frame closure]) hf.closure
  | classObject c =>
    obtain ⟨d, rfl, hc⟩ := h
    exact congrArg (List.map Node.frame) hc.closures
  | _ => exact congrArg Value.nodes h

theorem flatMap_nodes {values values' : List Value} (h : List.Forall₂ (Value.Exchanged ξ μ) values values') :
    values'.flatMap Value.nodes = values.flatMap Value.nodes := by
  induction h with
  | nil => rfl
  | cons hv _ ih => rw [List.flatMap_cons, List.flatMap_cons, hv.nodes, ih]

theorem isTruthy (h : v.Exchanged ξ μ w) : w.isTruthy = v.isTruthy := by
  cases v with
  | function f =>
    obtain ⟨g, rfl, -⟩ := h
    rfl
  | classObject c =>
    obtain ⟨d, rfl, -⟩ := h
    rfl
  | _ => exact congrArg Value.isTruthy h

theorem arity? (h : v.Exchanged ξ μ w) : w.arity? = v.arity? := by
  cases v with
  | function f =>
    obtain ⟨g, rfl, hf⟩ := h
    exact congrArg some hf.arity
  | classObject c =>
    obtain ⟨d, rfl, hc⟩ := h
    exact congrArg some hc.arity
  | _ => exact congrArg Value.arity? h

theorem same (hv : v.Exchanged ξ μ v') (hw : w.Exchanged ξ μ w') : v'.same w' = v.same w := by
  cases v with
  | function f =>
    obtain ⟨f', rfl, hf⟩ := hv
    cases w with
    | function g =>
      obtain ⟨g', rfl, hg⟩ := hw
      simp only [Value.same, hf.stamp, hf.binding, hg.stamp, hg.binding]
    | classObject c =>
      obtain ⟨c', rfl, -⟩ := hw
      rfl
    | _ =>
      cases hw
      rfl
  | classObject c =>
    obtain ⟨c', rfl, hc⟩ := hv
    cases w with
    | function g =>
      obtain ⟨g', rfl, -⟩ := hw
      rfl
    | classObject d =>
      obtain ⟨d', rfl, hd⟩ := hw
      simp only [Value.same, hc.stamp, hd.stamp]
    | _ =>
      cases hw
      rfl
  | _ =>
    cases hv
    cases w with
    | function g =>
      obtain ⟨g', rfl, -⟩ := hw
      rfl
    | classObject d =>
      obtain ⟨d', rfl, -⟩ := hw
      rfl
    | _ =>
      cases hw
      rfl

end Value.Exchanged

/-! ## Operators -/

section

variable {v v' w w' : Value}

theorem UnaryOp.apply_exchanged (op : UnaryOp) (h : v.Exchanged ξ μ w) :
    Outcome.Exchanged ξ μ (op.apply v) (op.apply w) := by
  cases op with
  | not => exact .ok (congrArg (fun b => Value.boolean !b) h.isTruthy)
  | negate =>
    cases v with
    | function f =>
      obtain ⟨g, rfl, -⟩ := h
      exact .error _
    | classObject c =>
      obtain ⟨d, rfl, -⟩ := h
      exact .error _
    | number x =>
      cases h
      exact .ok rfl
    | _ =>
      cases h
      exact .error _

theorem BinaryOp.arithmetic_exchanged (op : BinaryOp) (x y : Float) :
    Outcome.Exchanged ξ μ (op.arithmetic x y) (op.arithmetic x y) := by
  unfold BinaryOp.arithmetic
  split <;> first | exact .ok rfl | (split <;> first | exact .error _ | exact .ok rfl)

theorem BinaryOp.sum_exchanged (hv : v.Exchanged ξ μ v') (hw : w.Exchanged ξ μ w') :
    Outcome.Exchanged ξ μ (BinaryOp.sum v w) (BinaryOp.sum v' w') := by
  cases v with
  | number x =>
    cases hv
    cases w with
    | number y =>
      cases hw
      exact BinaryOp.add.arithmetic_exchanged x y
    | string s =>
      cases hw
      exact .ok rfl
    | function g =>
      obtain ⟨g', rfl, -⟩ := hw
      exact .error _
    | classObject d =>
      obtain ⟨d', rfl, -⟩ := hw
      exact .error _
    | _ =>
      cases hw
      exact .error _
  | string s =>
    cases hv
    cases w with
    | function g =>
      obtain ⟨g', rfl, -⟩ := hw
      exact .error _
    | classObject d =>
      obtain ⟨d', rfl, -⟩ := hw
      exact .error _
    | number y =>
      cases hw
      exact .ok rfl
    | string t =>
      cases hw
      exact .ok rfl
    | _ =>
      cases hw
      exact .error _
  | function f =>
    obtain ⟨f', rfl, -⟩ := hv
    exact .error _
  | classObject c =>
    obtain ⟨c', rfl, -⟩ := hv
    exact .error _
  | _ =>
    cases hv
    exact .error _

theorem BinaryOp.apply_exchanged (op : BinaryOp) (hv : v.Exchanged ξ μ v') (hw : w.Exchanged ξ μ w') :
    Outcome.Exchanged ξ μ (op.apply v w) (op.apply v' w') := by
  have harithmetic := op.arithmetic_exchanged (ξ := ξ) (μ := μ)
  cases op with
  | add => exact BinaryOp.sum_exchanged hv hw
  | equal =>
    unfold BinaryOp.apply
    rw [hv.same hw]
    exact .ok rfl
  | notEqual =>
    unfold BinaryOp.apply
    rw [hv.same hw]
    exact .ok rfl
  | _ =>
    cases v with
    | number x =>
      cases hv
      cases w with
      | number y =>
        cases hw
        exact harithmetic x y
      | function g =>
        obtain ⟨g', rfl, -⟩ := hw
        exact .error _
      | classObject d =>
        obtain ⟨d', rfl, -⟩ := hw
        exact .error _
      | _ =>
        cases hw
        exact .error _
    | function f =>
      obtain ⟨f', rfl, -⟩ := hv
      exact .error _
    | classObject c =>
      obtain ⟨c', rfl, -⟩ := hv
      exact .error _
    | _ =>
      cases hv
      exact .error _

end

end Lox
