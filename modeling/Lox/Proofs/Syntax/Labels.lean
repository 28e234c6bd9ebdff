import Lox.Proofs.Syntax.Phrases

/-!
# Lines and identities

Trees carry two sorts of labels, the lines of their tokens and the identities of their references.
Relabeling changes them and nothing else; erasing them sets all to zero.
-/
namespace Lox

structure Labels where
  line : Nat → Nat
  id : Nat → Nat

/-- Forgets lines and identities. -/
def Labels.erasing : Labels := ⟨fun _ => 0, fun _ => 0⟩

variable (φ : Labels)

def Ident.relabel (name : Ident) : Ident := ⟨name.text, φ.line name.line⟩

def Reference.relabel (ref : Reference) : Reference := ⟨φ.id ref.id, ref.name.relabel φ⟩

mutual

def Expr.relabel : Expr → Expr
  | .literal value => .literal value
  | .unary op line e => .unary op (φ.line line) e.relabel
  | .binary op line l r => .binary op (φ.line line) l.relabel r.relabel
  | .logical op line l r => .logical op (φ.line line) l.relabel r.relabel
  | .grouping e => .grouping e.relabel
  | .variable ref => .variable (ref.relabel φ)
  | .assign ref value => .assign (ref.relabel φ) value.relabel
  | .call callee line arguments => .call callee.relabel (φ.line line) (Expr.relabelAll arguments)
  | .get object name => .get object.relabel (name.relabel φ)
  | .set object name value => .set object.relabel (name.relabel φ) value.relabel
  | .this ref => .this (ref.relabel φ)
  | .super ref method => .super (ref.relabel φ) (method.relabel φ)

def Expr.relabelAll : List Expr → List Expr
  | [] => []
  | e :: rest => e.relabel :: Expr.relabelAll rest

end

mutual

def Stmt.relabel : Stmt → Stmt
  | .expression e => .expression (e.relabel φ)
  | .print e => .print (e.relabel φ)
  | .var name initializer => .var (name.relabel φ) (initializer.map (·.relabel φ))
  | .block body => .block (Stmt.relabelAll body)
  | .branch condition yes no =>
    .branch (condition.relabel φ) yes.relabel (match no with
      | none => none
      | some no => some no.relabel)
  | .loop condition body => .loop (condition.relabel φ) body.relabel
  | .function decl => .function decl.relabel
  | .classDecl name superclass methods =>
    .classDecl (name.relabel φ) (superclass.map (·.relabel φ)) (FunctionDecl.relabelAll methods)
  | .ret line value => .ret (φ.line line) (value.map (·.relabel φ))

def Stmt.relabelAll : List Stmt → List Stmt
  | [] => []
  | s :: rest => s.relabel :: Stmt.relabelAll rest

def FunctionDecl.relabel : FunctionDecl → FunctionDecl
  | ⟨name, params, body⟩ => ⟨name.relabel φ, params.map (·.relabel φ), Stmt.relabelAll body⟩

def FunctionDecl.relabelAll : List FunctionDecl → List FunctionDecl
  | [] => []
  | decl :: rest => decl.relabel :: FunctionDecl.relabelAll rest

end

abbrev Stmt.erase (s : Stmt) : Stmt := s.relabel .erasing

@[simp] theorem Expr.relabelAll_eq_map (es : List Expr) :
    Expr.relabelAll φ es = es.map (·.relabel φ) := by
  induction es with
  | nil => rfl
  | cons e rest ih => rw [Expr.relabelAll, ih, List.map_cons]

@[simp] theorem Stmt.relabelAll_eq_map (body : List Stmt) :
    Stmt.relabelAll φ body = body.map (·.relabel φ) := by
  induction body with
  | nil => rfl
  | cons s rest ih => rw [Stmt.relabelAll, ih, List.map_cons]

@[simp] theorem FunctionDecl.relabelAll_eq_map (methods : List FunctionDecl) :
    FunctionDecl.relabelAll φ methods = methods.map (·.relabel φ) := by
  induction methods with
  | nil => rfl
  | cons decl rest ih => rw [FunctionDecl.relabelAll, ih, List.map_cons]

@[simp] theorem FunctionDecl.name_relabel (decl : FunctionDecl) :
    (decl.relabel φ).name = decl.name.relabel φ := by
  obtain ⟨name, params, body⟩ := decl
  rfl

@[simp] theorem FunctionDecl.params_relabel (decl : FunctionDecl) :
    (decl.relabel φ).params = decl.params.map (·.relabel φ) := by
  obtain ⟨name, params, body⟩ := decl
  rfl

@[simp] theorem FunctionDecl.body_relabel (decl : FunctionDecl) :
    (decl.relabel φ).body = decl.body.map (·.relabel φ) := by
  obtain ⟨name, params, body⟩ := decl
  exact Stmt.relabelAll_eq_map φ body

@[simp] theorem Connective.relabel_join (op : Connective) (line : Nat) (left right : Expr) :
    (op.join line left right).relabel φ =
      op.join (φ.line line) (left.relabel φ) (right.relabel φ) := by
  cases op <;> rfl

theorem Stmt.relabel_forLoop (start : Option Stmt) (condition increment : Option Expr)
    (body : Stmt) : (Stmt.forLoop start condition increment body).relabel φ =
      .forLoop (start.map (·.relabel φ)) (condition.map (·.relabel φ))
        (increment.map (·.relabel φ)) (body.relabel φ) := by
  cases start <;> cases condition <;> cases increment <;>
    simp [Stmt.forLoop, Stmt.relabel, Expr.relabel]

/-- The trees of a phrase, relabeled. -/
def Phrase.relabel : (p : Phrase) → p.Tree → p.Tree
  | .ident => Ident.relabel φ
  | .reference => Reference.relabel φ
  | .expression _ => Expr.relabel φ
  | .expressionStatement | .varDeclaration | .statement _ | .declaration => Stmt.relabel φ
  | .forStart => Option.map (Stmt.relabel φ)
  | .function => FunctionDecl.relabel φ
  | .opt p => Option.map p.relabel
  | .many p | .separated p => List.map p.relabel
  | .after _ p => p.relabel

end Lox
