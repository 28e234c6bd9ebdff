import Lox.Machine
import Lox.Proofs.Bindings
import Lox.Proofs.Store.Intact

/-!
# Renaming frames

An interpreter that frees frames gives other handles to its frames than one that does not. A
renaming takes the former to the latter. Everything else about a value, the addresses of
objects included, stays.
-/
namespace Lox

abbrev Renaming := Handle → Handle

/-! ## Values -/

def Function.rename (ρ : Renaming) (f : Function) : Function := { f with closure := ρ f.closure }

theorem Function.rename_congr {ρ ρ' : Renaming} {f : Function} (h : ρ' f.closure = ρ f.closure) :
    f.rename ρ' = f.rename ρ := by
  unfold rename
  rw [h]

def Class.rename (ρ : Renaming) : Class → Class
  | ⟨stamp, name, none, methods⟩ => ⟨stamp, name, none, methods.map (Function.rename ρ)⟩
  | ⟨stamp, name, some parent, methods⟩ =>
    ⟨stamp, name, some (parent.rename ρ), methods.map (Function.rename ρ)⟩

namespace Class

variable (ρ : Renaming)

@[simp] theorem stamp_rename (c : Class) : (c.rename ρ).stamp = c.stamp := by
  obtain ⟨stamp, name, superclass, methods⟩ := c
  cases superclass <;> rfl

@[simp] theorem name_rename (c : Class) : (c.rename ρ).name = c.name := by
  obtain ⟨stamp, name, superclass, methods⟩ := c
  cases superclass <;> rfl

theorem findMethod?_rename (c : Class) (name : String) :
    (c.rename ρ).findMethod? name = (c.findMethod? name).map (Function.rename ρ) := by
  fun_induction findMethod? c name with
  | case1 stamp name' methods => exact Bindings.find?_map _ methods name
  | case2 stamp name' parent methods method hm =>
    rw [rename, findMethod?, Bindings.find?_map, hm]
    rfl
  | case3 stamp name' parent methods hm ih =>
    rw [rename, findMethod?, Bindings.find?_map, hm]
    exact ih

theorem arity_rename (c : Class) : (c.rename ρ).arity = c.arity := by
  unfold arity
  rw [findMethod?_rename]
  cases c.findMethod? initializerName with
  | none => rfl
  | some method => rfl

theorem closures_rename (c : Class) : (c.rename ρ).closures = c.closures.map ρ := by
  fun_induction closures c with
  | case1 stamp name methods =>
    rw [rename, closures, Bindings.values_map, List.map_map, List.map_map]
    rfl
  | case2 stamp name parent methods ih =>
    rw [rename, closures, ih, Bindings.values_map, List.map_append, List.map_map, List.map_map]
    rfl

theorem rename_congr {ρ ρ' : Renaming} {c : Class} (h : ∀ g ∈ c.closures, ρ' g = ρ g) :
    c.rename ρ' = c.rename ρ := by
  have hmethods : ∀ methods : Bindings Function, (∀ g ∈ methods.values.map Function.closure, ρ' g = ρ g) →
      methods.map (Function.rename ρ') = methods.map (Function.rename ρ) := by
    exact fun methods hg => Bindings.map_congr fun f hf =>
      Function.rename_congr (hg _ (List.mem_map_of_mem hf))
  fun_induction closures c with
  | case1 stamp name methods => rw [rename, rename, hmethods methods h]
  | case2 stamp name parent methods ih =>
    rw [rename, rename, ih fun g hg => h g (List.mem_append_right _ hg),
      hmethods methods fun g hg => h g (List.mem_append_left _ hg)]

end Class

namespace Value

def rename (ρ : Renaming) : Value → Value
  | function f => function (f.rename ρ)
  | classObject c => classObject (c.rename ρ)
  | v => v

/-- The frames that the value itself refers to. -/
def handles : Value → List Handle
  | function f => [f.closure]
  | classObject c => c.closures
  | _ => []

theorem rename_congr {ρ ρ' : Renaming} {v : Value} (h : ∀ g ∈ v.handles, ρ' g = ρ g) :
    v.rename ρ' = v.rename ρ := by
  cases v with
  | function f => exact congrArg function (Function.rename_congr (h _ List.mem_cons_self))
  | classObject c => exact congrArg classObject (Class.rename_congr h)
  | _ => rfl

variable (ρ : Renaming)

@[simp] theorem object?_rename (v : Value) : (v.rename ρ).object? = v.object? := by
  cases v <;> rfl

@[simp] theorem objects_rename (values : List Value) :
    objects (values.map (rename ρ)) = objects values := by
  unfold objects
  rw [List.filterMap_map]
  exact List.filterMap_congr fun v _ => object?_rename ρ v

@[simp] theorem isTruthy_rename (v : Value) : (v.rename ρ).isTruthy = v.isTruthy := by
  cases v <;> rfl

@[simp] theorem arity?_rename (v : Value) : (v.rename ρ).arity? = v.arity? := by
  cases v with
  | classObject c => exact congrArg some (Class.arity_rename ρ c)
  | _ => rfl

@[simp] theorem same_rename (v w : Value) : (v.rename ρ).same (w.rename ρ) = v.same w := by
  cases v with
  | classObject c =>
    cases w with
    | classObject d =>
      change ((c.rename ρ).stamp == (d.rename ρ).stamp) = (c.stamp == d.stamp)
      rw [Class.stamp_rename, Class.stamp_rename]
    | _ => rfl
  | _ => cases w <;> rfl

end Value

/-! ## Plain data -/

namespace Value

/-- Plain data refers to no frame and no object. -/
def isPlain : Value → Bool
  | nil | boolean _ | number _ | string _ | native _ => true
  | _ => false

variable {v : Value}

theorem object?_of_isPlain (hv : v.isPlain = true) : v.object? = none := by
  cases v <;> first | rfl | cases hv

theorem rename_of_isPlain (ρ : Renaming) (hv : v.isPlain = true) : v.rename ρ = v := by
  cases v <;> first | rfl | cases hv

theorem isPlain_ofLiteral (value : Literal) : (ofLiteral value).isPlain = true := by
  cases value <;> rfl

end Value

theorem Store.supports_of_isPlain {s : Store} {v : Value} (hv : v.isPlain = true) : s.Supports v := by
  cases v <;> trivial

/-! ## Operators -/

theorem UnaryOp.isPlain_of_apply {op : UnaryOp} {v w : Value} (h : op.apply v = .ok w) :
    w.isPlain = true := by
  cases op with
  | negate => cases v <;> first | (cases h; done) | (cases h; rfl)
  | not =>
    cases h
    rfl

theorem BinaryOp.isPlain_of_arithmetic {op : BinaryOp} {x y : Float} {w : Value}
    (h : op.arithmetic x y = .ok w) : w.isPlain = true := by
  cases op with
  | divide | modulo =>
    unfold BinaryOp.arithmetic at h
    dsimp only at h
    split at h
    · cases h
    · cases h
      rfl
  | _ =>
    cases h
    rfl

theorem BinaryOp.isPlain_of_apply {op : BinaryOp} {v w result : Value}
    (h : op.apply v w = .ok result) : result.isPlain = true := by
  cases op with
  | equal | notEqual =>
    cases h
    rfl
  | add =>
    cases v with
    | number x =>
      cases w with
      | number | string =>
        cases h
        rfl
      | _ => cases h
    | string a =>
      cases w with
      | number | string =>
        cases h
        rfl
      | _ => cases h
    | _ => cases h
  | _ =>
    cases v with
    | number x =>
      cases w with
      | number y =>
        simp only [BinaryOp.apply] at h
        exact BinaryOp.isPlain_of_arithmetic h
      | _ => cases h
    | _ => cases h

theorem UnaryOp.apply_rename (ρ : Renaming) (op : UnaryOp) (v : Value) :
    op.apply (v.rename ρ) = (op.apply v).map (Value.rename ρ) := by
  cases op with
  | negate => cases v <;> rfl
  | not => exact congrArg (fun b => Except.ok (Value.boolean !b)) (Value.isTruthy_rename ρ v)

theorem BinaryOp.arithmetic_rename (ρ : Renaming) (op : BinaryOp) (x y : Float) :
    (op.arithmetic x y).map (Value.rename ρ) = op.arithmetic x y := by
  unfold BinaryOp.arithmetic
  split <;> first | rfl | (split <;> rfl)

theorem BinaryOp.sum_rename (ρ : Renaming) (v w : Value) :
    BinaryOp.sum (v.rename ρ) (w.rename ρ) = (BinaryOp.sum v w).map (Value.rename ρ) := by
  cases v <;> cases w <;> rfl

theorem BinaryOp.apply_rename (ρ : Renaming) (op : BinaryOp) (v w : Value) :
    op.apply (v.rename ρ) (w.rename ρ) = (op.apply v w).map (Value.rename ρ) := by
  cases op with
  | add => exact BinaryOp.sum_rename ρ v w
  | equal => exact congrArg (fun b => Except.ok (Value.boolean b)) (Value.same_rename ρ v w)
  | notEqual => exact congrArg (fun b => Except.ok (Value.boolean !b)) (Value.same_rename ρ v w)
  | _ =>
    cases v with
    | number x =>
      cases w with
      | number y => simp only [BinaryOp.apply, Value.rename, BinaryOp.arithmetic_rename]
      | _ => rfl
    | _ => rfl

/-! ## Objects and continuations -/

namespace Payload

def rename (ρ : Renaming) : Payload → Payload
  | .instance parent fields => .instance (parent.rename ρ) (fields.map (Value.rename ρ))
  | array elements => array (elements.map (Value.rename ρ))
  | binding h => binding (ρ h)

variable (ρ : Renaming)

theorem values_rename (p : Payload) : (p.rename ρ).values = p.values.map (Value.rename ρ) := by
  cases p with
  | «instance» parent fields =>
    exact congrArg (Value.classObject (parent.rename ρ) :: ·) (Bindings.values_map _ fields)
  | array elements => exact Array.toList_map
  | binding h => rfl

end Payload

namespace Activation

def rename (ρ : Renaming) (a : Activation) : Activation := ⟨ρ a.frame, a.callee.map (Function.rename ρ)⟩

end Activation

namespace Cont

def rename (ρ : Renaming) : Cont → Cont
  | right op line v => right op line (v.rename ρ)
  | argument line f ready rest => argument line (f.rename ρ) (ready.map (Value.rename ρ)) rest
  | leave previous frame => leave (ρ previous) (ρ frame)
  | finish f => finish (f.rename ρ)
  | k => k

/-- The values that the continuation owns. -/
def held : Cont → List Value
  | right _ _ v => [v]
  | argument _ f ready _ => f :: ready
  | field receiver _ | construct receiver => [.instance receiver]
  | finish f => [.function f]
  | _ => []

end Cont

namespace Control

def rename (ρ : Renaming) : Control → Control
  | yield v => yield (v.rename ρ)
  | returning v => returning (v.rename ρ)
  | c => c

def held : Control → List Value
  | yield v | returning v => [v]
  | _ => []

end Control

end Lox
