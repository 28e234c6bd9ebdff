import Lox.Proofs.Syntax.Labels

/-!
# Relabeling twice

Relabeling with two labelings, one after the other, is relabeling with one, and the labeling that
changes nothing changes no tree.
-/
namespace Lox

namespace Labels

/-- First `φ`, then `ψ`. -/
def comp (ψ φ : Labels) : Labels := ⟨fun n => ψ.line (φ.line n), fun n => ψ.id (φ.id n)⟩

def identity : Labels := ⟨fun n => n, fun n => n⟩

variable (ψ φ : Labels) (n : Nat)

@[simp] theorem line_comp : (ψ.comp φ).line n = ψ.line (φ.line n) := rfl

@[simp] theorem line_identity : identity.line n = n := rfl

end Labels

section comp

variable (ψ φ : Labels)

@[simp] theorem Ident.relabel_comp (name : Ident) :
    (name.relabel φ).relabel ψ = name.relabel (ψ.comp φ) := rfl

@[simp] theorem Reference.relabel_comp (ref : Reference) :
    (ref.relabel φ).relabel ψ = ref.relabel (ψ.comp φ) := rfl

theorem Ident.map_relabel_comp (names : List Ident) :
    (names.map (·.relabel φ)).map (·.relabel ψ) = names.map (·.relabel (ψ.comp φ)) := by
  rw [List.map_map]
  rfl

mutual

@[simp] theorem Expr.relabel_comp (e : Expr) : (e.relabel φ).relabel ψ = e.relabel (ψ.comp φ) := by
  cases e with
  | literal | «variable» | this | super => rfl
  | unary op line e => simp only [relabel, Expr.relabel_comp, Labels.line_comp]
  | binary op line l r => simp only [relabel, Expr.relabel_comp, Labels.line_comp]
  | logical op line l r => simp only [relabel, Expr.relabel_comp, Labels.line_comp]
  | grouping e => simp only [relabel, Expr.relabel_comp]
  | assign ref value => simp only [relabel, Expr.relabel_comp, Reference.relabel_comp]
  | call callee line arguments =>
    simp only [relabel, Expr.relabel_comp, Expr.relabelAll_comp, Labels.line_comp]
  | get object name => simp only [relabel, Expr.relabel_comp, Ident.relabel_comp]
  | set object name value => simp only [relabel, Expr.relabel_comp, Ident.relabel_comp]

theorem Expr.relabelAll_comp (es : List Expr) :
    Expr.relabelAll ψ (Expr.relabelAll φ es) = Expr.relabelAll (ψ.comp φ) es := by
  cases es with
  | nil => rfl
  | cons e rest => simp only [relabelAll, Expr.relabel_comp, Expr.relabelAll_comp]

end

theorem Expr.map_relabel_comp (e : Option Expr) :
    (e.map (·.relabel φ)).map (·.relabel ψ) = e.map (·.relabel (ψ.comp φ)) := by
  cases e <;> simp

mutual

@[simp] theorem Stmt.relabel_comp (s : Stmt) : (s.relabel φ).relabel ψ = s.relabel (ψ.comp φ) := by
  cases s with
  | expression e => simp only [Stmt.relabel, Expr.relabel_comp]
  | print e => simp only [Stmt.relabel, Expr.relabel_comp]
  | var name initializer => simp only [Stmt.relabel, Expr.map_relabel_comp, Ident.relabel_comp]
  | block body => simp only [Stmt.relabel, Stmt.relabelAll_comp]
  | branch condition yes no =>
    cases no with
    | none => simp only [Stmt.relabel, Expr.relabel_comp, Stmt.relabel_comp]
    | some no => simp only [Stmt.relabel, Expr.relabel_comp, Stmt.relabel_comp]
  | loop condition body => simp only [Stmt.relabel, Expr.relabel_comp, Stmt.relabel_comp]
  | function decl => simp only [Stmt.relabel, FunctionDecl.relabel_comp]
  | classDecl name superclass methods =>
    cases superclass <;>
      simp only [Stmt.relabel, Ident.relabel_comp, Option.map_none, Option.map_some,
        Reference.relabel_comp, FunctionDecl.relabelAll_comp]
  | ret line value => simp only [Stmt.relabel, Expr.map_relabel_comp, Labels.line_comp]

theorem Stmt.relabelAll_comp (body : List Stmt) :
    Stmt.relabelAll ψ (Stmt.relabelAll φ body) = Stmt.relabelAll (ψ.comp φ) body := by
  cases body with
  | nil => rfl
  | cons s rest => simp only [Stmt.relabelAll, Stmt.relabel_comp, Stmt.relabelAll_comp]

@[simp] theorem FunctionDecl.relabel_comp (decl : FunctionDecl) :
    (decl.relabel φ).relabel ψ = decl.relabel (ψ.comp φ) := by
  obtain ⟨name, params, body⟩ := decl
  simp only [FunctionDecl.relabel, Ident.relabel_comp, Ident.map_relabel_comp, Stmt.relabelAll_comp]

theorem FunctionDecl.relabelAll_comp (methods : List FunctionDecl) :
    FunctionDecl.relabelAll ψ (FunctionDecl.relabelAll φ methods) =
      FunctionDecl.relabelAll (ψ.comp φ) methods := by
  cases methods with
  | nil => rfl
  | cons decl rest => simp only [FunctionDecl.relabelAll, FunctionDecl.relabel_comp, FunctionDecl.relabelAll_comp]

end

end comp

section identity

@[simp] theorem Ident.relabel_identity (name : Ident) : name.relabel .identity = name := rfl

@[simp] theorem Reference.relabel_identity (ref : Reference) : ref.relabel .identity = ref := rfl

mutual

@[simp] theorem Expr.relabel_identity (e : Expr) : e.relabel .identity = e := by
  cases e with
  | literal | «variable» | this | super => rfl
  | unary op line e => simp only [relabel, Expr.relabel_identity, Labels.line_identity]
  | binary op line l r => simp only [relabel, Expr.relabel_identity, Labels.line_identity]
  | logical op line l r => simp only [relabel, Expr.relabel_identity, Labels.line_identity]
  | grouping e => simp only [relabel, Expr.relabel_identity]
  | assign ref value => simp only [relabel, Expr.relabel_identity, Reference.relabel_identity]
  | call callee line arguments =>
    simp only [relabel, Expr.relabel_identity, Expr.relabelAll_identity, Labels.line_identity]
  | get object name => simp only [relabel, Expr.relabel_identity, Ident.relabel_identity]
  | set object name value => simp only [relabel, Expr.relabel_identity, Ident.relabel_identity]

theorem Expr.relabelAll_identity (es : List Expr) : Expr.relabelAll .identity es = es := by
  cases es with
  | nil => rfl
  | cons e rest => simp only [relabelAll, Expr.relabel_identity, Expr.relabelAll_identity]

end

theorem Expr.map_relabel_identity (e : Option Expr) : e.map (·.relabel .identity) = e := by
  cases e <;> simp

theorem Ident.map_relabel_identity (names : List Ident) : names.map (·.relabel .identity) = names :=
  List.map_id' names

mutual

@[simp] theorem Stmt.relabel_identity (s : Stmt) : s.relabel .identity = s := by
  cases s with
  | expression e => simp only [Stmt.relabel, Expr.relabel_identity]
  | print e => simp only [Stmt.relabel, Expr.relabel_identity]
  | var name initializer => simp only [Stmt.relabel, Expr.map_relabel_identity, Ident.relabel_identity]
  | block body => simp only [Stmt.relabel, Stmt.relabelAll_identity]
  | branch condition yes no =>
    cases no with
    | none => simp only [Stmt.relabel, Expr.relabel_identity, Stmt.relabel_identity]
    | some no => simp only [Stmt.relabel, Expr.relabel_identity, Stmt.relabel_identity]
  | loop condition body => simp only [Stmt.relabel, Expr.relabel_identity, Stmt.relabel_identity]
  | function decl => simp only [Stmt.relabel, FunctionDecl.relabel_identity]
  | classDecl name superclass methods =>
    cases superclass <;>
      simp only [Stmt.relabel, Ident.relabel_identity, Option.map_none, Option.map_some,
        Reference.relabel_identity, FunctionDecl.relabelAll_identity]
  | ret line value => simp only [Stmt.relabel, Expr.map_relabel_identity, Labels.line_identity]

theorem Stmt.relabelAll_identity (body : List Stmt) : Stmt.relabelAll .identity body = body := by
  cases body with
  | nil => rfl
  | cons s rest => simp only [Stmt.relabelAll, Stmt.relabel_identity, Stmt.relabelAll_identity]

@[simp] theorem FunctionDecl.relabel_identity (decl : FunctionDecl) : decl.relabel .identity = decl := by
  obtain ⟨name, params, body⟩ := decl
  rw [FunctionDecl.relabel, Ident.map_relabel_identity, Stmt.relabelAll_identity,
    Ident.relabel_identity]

theorem FunctionDecl.relabelAll_identity (methods : List FunctionDecl) :
    FunctionDecl.relabelAll .identity methods = methods := by
  cases methods with
  | nil => rfl
  | cons decl rest =>
    simp only [FunctionDecl.relabelAll, FunctionDecl.relabel_identity, FunctionDecl.relabelAll_identity]

end

end identity
end Lox
