import Lox.Machine
import Lox.Proofs.Bindings
import Lox.Proofs.Relabeling.Trees

/-!
# Relabeling values

Values carry the code of functions. Relabeling that code changes nothing that a program can observe
of a value.
-/
namespace Lox

variable (ψ φ : Labels)

def Function.relabel (f : Function) : Function := { f with decl := f.decl.relabel φ }

def Class.relabel : Class → Class
  | ⟨stamp, name, none, methods⟩ => ⟨stamp, name, none, methods.map (Function.relabel φ)⟩
  | ⟨stamp, name, some parent, methods⟩ =>
    ⟨stamp, name, some parent.relabel, methods.map (Function.relabel φ)⟩

def Value.relabel : Value → Value
  | .function f => .function (f.relabel φ)
  | .classObject c => .classObject (c.relabel φ)
  | v => v

namespace Function

variable (f : Function)

@[simp] theorem name_relabel : (f.relabel φ).name = f.name := by
  unfold name relabel
  rw [FunctionDecl.name_relabel]
  rfl

@[simp] theorem arity_relabel : (f.relabel φ).arity = f.arity := by
  unfold arity relabel
  rw [FunctionDecl.params_relabel, List.length_map]

@[simp] theorem relabel_comp : (f.relabel φ).relabel ψ = f.relabel (ψ.comp φ) := by
  unfold relabel
  rw [FunctionDecl.relabel_comp]

@[simp] theorem relabel_identity : f.relabel .identity = f := by
  unfold relabel
  rw [FunctionDecl.relabel_identity]

end Function

namespace Class

variable (c : Class)

@[simp] theorem stamp_relabel : (c.relabel φ).stamp = c.stamp := by
  obtain ⟨stamp, name, superclass, methods⟩ := c
  cases superclass <;> rfl

@[simp] theorem name_relabel : (c.relabel φ).name = c.name := by
  obtain ⟨stamp, name, superclass, methods⟩ := c
  cases superclass <;> rfl

theorem findMethod?_relabel (name : String) :
    (c.relabel φ).findMethod? name = (c.findMethod? name).map (Function.relabel φ) := by
  fun_induction findMethod? c name with
  | case1 stamp name' methods => exact Bindings.find?_map _ methods name
  | case2 stamp name' parent methods method hm =>
    rw [relabel, findMethod?, Bindings.find?_map, hm]
    rfl
  | case3 stamp name' parent methods hm ih =>
    rw [relabel, findMethod?, Bindings.find?_map, hm]
    exact ih

@[simp] theorem arity_relabel : (c.relabel φ).arity = c.arity := by
  unfold arity
  rw [findMethod?_relabel]
  cases c.findMethod? initializerName with
  | none => rfl
  | some method => exact Function.arity_relabel φ method

@[simp] theorem closures_relabel : (c.relabel φ).closures = c.closures := by
  fun_induction closures c with
  | case1 stamp name methods =>
    rw [relabel, closures, Bindings.values_map, List.map_map]
    rfl
  | case2 stamp name parent methods ih =>
    rw [relabel, closures, ih, Bindings.values_map, List.map_map]
    rfl

@[simp] theorem relabel_comp : (c.relabel φ).relabel ψ = c.relabel (ψ.comp φ) := by
  have hmethods : ∀ methods : Bindings Function,
      (methods.map (Function.relabel φ)).map (Function.relabel ψ) =
        methods.map (Function.relabel (ψ.comp φ)) := by
    intro methods
    rw [Bindings.map_map]
    exact Bindings.map_congr fun f _ => Function.relabel_comp ψ φ f
  fun_induction relabel φ c with
  | case1 stamp name methods => rw [relabel, relabel, hmethods]
  | case2 stamp name parent methods ih => rw [relabel, relabel, ih, hmethods]

@[simp] theorem relabel_identity : c.relabel .identity = c := by
  have hmethods : ∀ methods : Bindings Function,
      methods.map (Function.relabel .identity) = methods := by
    intro methods
    refine Eq.trans ?_ methods.map_id
    exact Bindings.map_congr fun f _ => Function.relabel_identity f
  fun_induction relabel .identity c with
  | case1 stamp name methods => rw [hmethods]
  | case2 stamp name parent methods ih => rw [ih, hmethods]

end Class

namespace Value

variable (v w : Value)

@[simp] theorem object?_relabel : (v.relabel φ).object? = v.object? := by
  cases v <;> rfl

@[simp] theorem objects_relabel (values : List Value) :
    objects (values.map (relabel φ)) = objects values := by
  unfold objects
  rw [List.filterMap_map]
  exact List.filterMap_congr fun v _ => object?_relabel φ v

@[simp] theorem isTruthy_relabel : (v.relabel φ).isTruthy = v.isTruthy := by
  cases v <;> rfl

@[simp] theorem arity?_relabel : (v.relabel φ).arity? = v.arity? := by
  cases v with
  | classObject c => exact congrArg some (Class.arity_relabel φ c)
  | function f => exact congrArg some (Function.arity_relabel φ f)
  | _ => rfl

@[simp] theorem same_relabel : (v.relabel φ).same (w.relabel φ) = v.same w := by
  cases v with
  | classObject c =>
    cases w with
    | classObject d =>
      change ((c.relabel φ).stamp == (d.relabel φ).stamp) = (c.stamp == d.stamp)
      rw [Class.stamp_relabel, Class.stamp_relabel]
    | _ => rfl
  | _ => cases w <;> rfl

@[simp] theorem nodes_relabel : (v.relabel φ).nodes = v.nodes := by
  cases v with
  | classObject c => exact congrArg (List.map Node.frame) (Class.closures_relabel φ c)
  | _ => rfl

@[simp] theorem relabel_comp : (v.relabel φ).relabel ψ = v.relabel (ψ.comp φ) := by
  cases v with
  | function f => exact congrArg function (Function.relabel_comp ψ φ f)
  | classObject c => exact congrArg classObject (Class.relabel_comp ψ φ c)
  | _ => rfl

@[simp] theorem relabel_identity : v.relabel .identity = v := by
  cases v with
  | function f => exact congrArg function (Function.relabel_identity f)
  | classObject c => exact congrArg classObject (Class.relabel_identity c)
  | _ => rfl

@[simp] theorem relabel_ofLiteral (value : Literal) : (ofLiteral value).relabel φ = ofLiteral value := by
  cases value <;> rfl

end Value

/-! ## Operators -/

theorem UnaryOp.apply_relabel (op : UnaryOp) (v : Value) :
    op.apply (v.relabel φ) = (op.apply v).map (Value.relabel φ) := by
  cases op with
  | negate => cases v <;> rfl
  | not => exact congrArg (fun b => Except.ok (Value.boolean !b)) (Value.isTruthy_relabel φ v)

theorem BinaryOp.arithmetic_relabel (op : BinaryOp) (x y : Float) :
    (op.arithmetic x y).map (Value.relabel φ) = op.arithmetic x y := by
  unfold BinaryOp.arithmetic
  split <;> first | rfl | (split <;> rfl)

theorem BinaryOp.sum_relabel (v w : Value) :
    BinaryOp.sum (v.relabel φ) (w.relabel φ) = (BinaryOp.sum v w).map (Value.relabel φ) := by
  cases v <;> cases w <;> rfl

theorem BinaryOp.apply_relabel (op : BinaryOp) (v w : Value) :
    op.apply (v.relabel φ) (w.relabel φ) = (op.apply v w).map (Value.relabel φ) := by
  cases op with
  | add => exact BinaryOp.sum_relabel φ v w
  | equal => exact congrArg (fun b => Except.ok (Value.boolean b)) (Value.same_relabel φ v w)
  | notEqual => exact congrArg (fun b => Except.ok (Value.boolean !b)) (Value.same_relabel φ v w)
  | _ =>
    cases v with
    | number x =>
      cases w with
      | number y => simp only [BinaryOp.apply, Value.relabel, BinaryOp.arithmetic_relabel]
      | _ => rfl
    | _ => rfl

end Lox
