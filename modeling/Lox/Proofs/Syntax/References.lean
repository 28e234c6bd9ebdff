import Lox.Program.Parse
import Mathlib.Data.List.Nodup
import Mathlib.Data.List.Perm.Subperm
import Mathlib.Order.Nat

/-!
# The references of a tree

Every node that names a variable, an assignment, `this`, `super` or the superclass of a class has one
reference, wherever in a tree it stands.
-/
namespace Lox

/-! ## References of trees -/

mutual

/-- The references of an expression, in the order in which they are resolved. -/
def Expr.references : Expr → List Reference
  | .literal _ => []
  | .grouping inner => inner.references
  | .unary _ _ operand => operand.references
  | .binary _ _ left right | .logical _ _ left right => left.references ++ right.references
  | .variable ref | .this ref | .super ref _ => [ref]
  | .assign ref value => value.references ++ [ref]
  | .call callee _ arguments => callee.references ++ Expr.referencesAll arguments
  | .get object _ => object.references
  | .set object _ value => value.references ++ object.references

def Expr.referencesAll : List Expr → List Reference
  | [] => []
  | e :: rest => e.references ++ Expr.referencesAll rest

end

mutual

def Stmt.references : Stmt → List Reference
  | .expression e | .print e => e.references
  | .var _ value | .ret _ value => value.elim [] Expr.references
  | .block body => Stmt.referencesAll body
  | .branch condition yes none => condition.references ++ yes.references
  | .branch condition yes (some no) => condition.references ++ yes.references ++ no.references
  | .loop condition body => condition.references ++ body.references
  | .function decl => decl.references
  | .classDecl _ superclass methods => superclass.toList ++ FunctionDecl.referencesAll methods

def Stmt.referencesAll : List Stmt → List Reference
  | [] => []
  | s :: rest => s.references ++ Stmt.referencesAll rest

def FunctionDecl.references : FunctionDecl → List Reference
  | ⟨_, _, body⟩ => Stmt.referencesAll body

def FunctionDecl.referencesAll : List FunctionDecl → List Reference
  | [] => []
  | decl :: rest => decl.references ++ FunctionDecl.referencesAll rest

end

theorem Expr.referencesAll_eq (es : List Expr) : Expr.referencesAll es = es.flatMap Expr.references := by
  induction es with
  | nil => rfl
  | cons e rest ih => rw [referencesAll, ih, List.flatMap_cons]

theorem Stmt.referencesAll_eq (body : List Stmt) :
    Stmt.referencesAll body = body.flatMap Stmt.references := by
  induction body with
  | nil => rfl
  | cons s rest ih => rw [referencesAll, ih, List.flatMap_cons]

theorem FunctionDecl.referencesAll_eq (methods : List FunctionDecl) :
    FunctionDecl.referencesAll methods = methods.flatMap FunctionDecl.references := by
  induction methods with
  | nil => rfl
  | cons method rest ih => rw [referencesAll, ih, List.flatMap_cons]

theorem Connective.references_join (op : Connective) (line : Nat) (left right : Expr) :
    (op.join line left right).references = left.references ++ right.references := by
  cases op <;> rfl

theorem Stmt.references_forLoop (start : Option Stmt) (condition increment : Option Expr)
    (body : Stmt) : (Stmt.forLoop start condition increment body).references =
      start.elim [] Stmt.references ++ (condition.elim [] Expr.references ++
        (body.references ++ increment.elim [] Expr.references)) := by
  cases start <;> cases condition <;> cases increment <;>
    simp [Stmt.forLoop, Stmt.references, Stmt.referencesAll, Expr.references]

/-! ## Different identities -/

/-- Different identities, from `n` on and below `m`. -/
structure Distinct (n m : Nat) (refs : List Reference) : Prop where
  nodup : (refs.map Reference.id).Nodup
  bounds : ∀ ref ∈ refs, n ≤ ref.id ∧ ref.id < m

namespace Distinct

variable {n k m : Nat} {refs refs' : List Reference}

theorem nil : Distinct n m [] := ⟨List.nodup_nil, nofun⟩

theorem singleton (name : Ident) : Distinct n (n + 1) [⟨n, name⟩] := by
  refine ⟨List.nodup_singleton _, fun ref hr => ?_⟩
  cases List.mem_singleton.1 hr
  exact ⟨le_rfl, n.lt_succ_self⟩

theorem of_mem_ids (h : Distinct n m refs) {x : Nat} (hx : x ∈ refs.map Reference.id) : n ≤ x ∧ x < m := by
  obtain ⟨ref, hr, rfl⟩ := List.mem_map.1 hx
  exact h.bounds ref hr

theorem append (h : Distinct n k refs) (h' : Distinct k m refs') (hnk : n ≤ k) (hkm : k ≤ m) :
    Distinct n m (refs ++ refs') := by
  constructor
  · rw [List.map_append]
    refine List.Nodup.append h.nodup h'.nodup fun id hid hid' => ?_
    have := (h.of_mem_ids hid).2
    have := (h'.of_mem_ids hid').1
    omega
  · intro ref hr
    obtain hr | hr := List.mem_append.1 hr
    · exact ⟨(h.bounds ref hr).1, (h.bounds ref hr).2.trans_le hkm⟩
    · exact ⟨hnk.trans (h'.bounds ref hr).1, (h'.bounds ref hr).2⟩

theorem subperm (h : Distinct n m refs) (hs : refs'.Subperm refs) : Distinct n m refs' := by
  obtain ⟨some, hperm, hsublist⟩ := hs
  refine ⟨?_, fun ref hr => h.bounds ref (hsublist.subset (hperm.mem_iff.2 hr))⟩
  rw [← (hperm.map Reference.id).nodup_iff]
  exact h.nodup.sublist (hsublist.map Reference.id)

theorem mono (h : Distinct n k refs) (hkm : k ≤ m) : Distinct n m refs :=
  ⟨h.nodup, fun ref hr => ⟨(h.bounds ref hr).1, (h.bounds ref hr).2.trans_le hkm⟩⟩

end Distinct

end Lox
