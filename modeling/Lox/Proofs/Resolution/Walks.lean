import Lox.Proofs.Syntax.References
import Lox.Resolution

/-!
# The walk of resolution

Resolution is made of few operations, and scopes are left as often as they are entered. So what
these operations keep is kept by the walk over any tree: of two states before and after a part of the
walk, and of two walks over the same tree.
-/
namespace Lox

namespace Resolver

variable {R : List Reference → Resolver → Resolver → Prop} {refs : List Reference} {r q t : Resolver}

/-- Relates the states before and after parts of a walk over an expression, by its references. -/
structure Steady (R : List Reference → Resolver → Resolver → Prop) : Prop where
  refl : ∀ {refs} r, R refs r r
  trans : ∀ {refs refs' r q t}, R refs r q → R refs' q t → R (refs ++ refs') r t
  report : ∀ {refs} r name cause, R refs r (r.report name cause)
  refer : ∀ r ref, R [ref] r (r.refer ref)

/-- Relates the states before and after parts of any walk, by the references on the way. -/
structure Bracketed (R : List Reference → Resolver → Resolver → Prop) : Prop extends Steady R where
  declare : ∀ r name, R [] r (r.declare name)
  ready : ∀ r text, R [] r (r.mark text true)
  scope : ∀ {refs r q}, R refs r.enter q → R refs r q.leave

namespace Steady

variable (h : Steady R)

include h

theorem after (hq : R [] r q) (ht : R refs q t) : R refs r t := h.trans hq ht

theorem reportIf (refs : List Reference) (r : Resolver) (c : Prop) [Decidable c] (name : Ident)
    (cause : ResolutionError) : R refs r (if c then r.report name cause else r) := by
  split
  · exact h.report r name cause
  · exact h.refl r

theorem superclass (r : Resolver) (name : Ident) (parent : Reference) :
    R [parent] r (r.superclass name parent) :=
  h.after (h.reportIf [] r _ parent.name .selfInheritance) (h.refer _ parent)

end Steady

namespace Bracketed

variable (h : Bracketed R)

include h

theorem bind (r : Resolver) (name : Ident) : R [] r (r.bind name) :=
  h.trans (h.declare r name) (h.ready _ name.text)

theorem bindAll (r : Resolver) (names : List Ident) : R [] r (names.foldl Resolver.bind r) := by
  induction names generalizing r with
  | nil => exact h.refl r
  | cons name rest ih => exact h.trans (h.bind r name) (ih _)

end Bracketed

/-- Relates the states of two walks over the same tree. -/
structure Paired (R : Resolver → Resolver → Prop) : Prop where
  report : ∀ {r q}, R r q → ∀ name cause, R (r.report name cause) (q.report name cause)
  declare : ∀ {r q}, R r q → ∀ name, R (r.declare name) (q.declare name)
  ready : ∀ {r q}, R r q → ∀ text, R (r.mark text true) (q.mark text true)
  refer : ∀ {r q}, R r q → ∀ ref, R (r.refer ref) (q.refer ref)
  enter : ∀ {r q}, R r q → R r.enter q.enter
  leave : ∀ {r q}, R r q → R r.leave q.leave

namespace Paired

variable {R : Resolver → Resolver → Prop} (h : Paired R) {r q : Resolver} (hr : R r q)

include h hr

theorem bind (name : Ident) : R (r.bind name) (q.bind name) := h.ready (h.declare hr name) name.text

theorem bindAll (names : List Ident) :
    R (names.foldl Resolver.bind r) (names.foldl Resolver.bind q) := by
  induction names generalizing r q with
  | nil => exact hr
  | cons name rest ih => exact ih (h.bind hr name)

theorem reportIf (c : Prop) [Decidable c] (name : Ident) (cause : ResolutionError) :
    R (if c then r.report name cause else r) (if c then q.report name cause else q) := by
  split
  · exact h.report hr name cause
  · exact hr

theorem superclass (name : Ident) (parent : Reference) :
    R (r.superclass name parent) (q.superclass name parent) :=
  h.refer (h.reportIf hr _ parent.name .selfInheritance) parent

end Paired

end Resolver

open Resolver (Steady Bracketed Paired)

section Steady

variable {R : List Reference → Resolver → Resolver → Prop} (h : Steady R)

include h

mutual

theorem Expr.resolve_steady (context : Context) (r : Resolver) (e : Expr) :
    R e.references r (e.resolve context r) := by
  cases e with
  | literal value => exact h.refl r
  | unary op line operand => exact Expr.resolve_steady context r operand
  | binary op line left right =>
    exact h.trans (Expr.resolve_steady context r left) (Expr.resolve_steady context _ right)
  | logical op line left right =>
    exact h.trans (Expr.resolve_steady context r left) (Expr.resolve_steady context _ right)
  | grouping inner => exact Expr.resolve_steady context r inner
  | «variable» ref => exact h.refer r ref
  | assign ref value => exact h.trans (Expr.resolve_steady context r value) (h.refer _ ref)
  | call callee line arguments =>
    exact h.trans (Expr.resolve_steady context r callee)
      (Expr.resolveAll_steady context _ arguments)
  | get object name => exact Expr.resolve_steady context r object
  | set object name value =>
    exact h.trans (Expr.resolve_steady context r value) (Expr.resolve_steady context _ object)
  | this ref =>
    rw [Expr.resolve]
    split
    · exact h.report r ref.name .thisOutsideClass
    · exact h.refer r ref
  | super ref method =>
    rw [Expr.resolve]
    split
    · exact h.report r ref.name .superOutsideClass
    · exact h.report r ref.name .noSuperclass
    · exact h.refer r ref

theorem Expr.resolveAll_steady (context : Context) (r : Resolver) (es : List Expr) :
    R (Expr.referencesAll es) r (Expr.resolveAll context r es) := by
  cases es with
  | nil => exact h.refl r
  | cons e rest =>
    exact h.trans (Expr.resolve_steady context r e) (Expr.resolveAll_steady context _ rest)

end

theorem Expr.resolveOption_steady (context : Context) (r : Resolver) (e : Option Expr) :
    R (e.elim [] Expr.references) r (Expr.resolveOption context r e) := by
  cases e with
  | none => exact h.refl r
  | some e => exact Expr.resolve_steady h context r e

end Steady

section Bracketed

variable {R : List Reference → Resolver → Resolver → Prop} (h : Bracketed R)

include h

mutual

theorem Stmt.resolve_bracketed (context : Context) (r : Resolver) (s : Stmt) :
    R s.references r (s.resolve context r) := by
  cases s with
  | expression e => exact Expr.resolve_steady h.toSteady context r e
  | print e => exact Expr.resolve_steady h.toSteady context r e
  | var name initializer =>
    have hready := h.trans (Expr.resolveOption_steady h.toSteady context (r.declare name) initializer)
      (h.ready _ name.text)
    rw [List.append_nil] at hready
    exact h.after (h.declare r name) hready
  | block body =>
    rw [Stmt.resolve]
    exact h.scope (Stmt.resolveAll_bracketed context r.enter body)
  | branch condition yes no =>
    have hyes := h.trans (Expr.resolve_steady h.toSteady context r condition)
      (Stmt.resolve_bracketed context _ yes)
    cases no with
    | none =>
      rw [Stmt.resolve]
      exact hyes
    | some no =>
      rw [Stmt.resolve]
      exact h.trans hyes (Stmt.resolve_bracketed context _ no)
  | loop condition body =>
    rw [Stmt.resolve]
    exact h.trans (Expr.resolve_steady h.toSteady context r condition)
      (Stmt.resolve_bracketed context _ body)
  | function decl =>
    rw [Stmt.resolve]
    exact h.after (h.bind r decl.name) (FunctionDecl.resolve_bracketed _ _ decl)
  | classDecl name superclass methods =>
    cases superclass with
    | none =>
      rw [Stmt.resolve]
      exact h.after (h.bind r name) (h.scope (h.after (h.ready _ "this")
        (FunctionDecl.resolveMethods_bracketed _ _ methods)))
    | some parent =>
      rw [Stmt.resolve]
      exact h.after (h.bind r name) (h.trans (h.superclass _ name parent)
        (h.scope (h.after (h.ready _ "super") (h.scope (h.after (h.ready _ "this")
          (FunctionDecl.resolveMethods_bracketed _ _ methods))))))
  | ret line value =>
    cases value with
    | none =>
      rw [Stmt.resolve]
      exact h.reportIf [] r _ _ _
    | some e =>
      rw [Stmt.resolve]
      exact h.after (h.reportIf [] r _ _ _)
        (h.after (h.reportIf [] _ _ _ _) (Expr.resolve_steady h.toSteady context _ e))

theorem Stmt.resolveAll_bracketed (context : Context) (r : Resolver) (body : List Stmt) :
    R (Stmt.referencesAll body) r (Stmt.resolveAll context r body) := by
  cases body with
  | nil => exact h.refl r
  | cons s rest =>
    rw [Stmt.resolveAll]
    exact h.trans (Stmt.resolve_bracketed context r s) (Stmt.resolveAll_bracketed context _ rest)

theorem FunctionDecl.resolve_bracketed (context : Context) (r : Resolver) (decl : FunctionDecl) :
    R decl.references r (decl.resolve context r) := by
  obtain ⟨name, params, body⟩ := decl
  rw [FunctionDecl.resolve]
  exact h.scope (h.after (h.bindAll _ params) (Stmt.resolveAll_bracketed context _ body))

theorem FunctionDecl.resolveMethods_bracketed (context : Context) (r : Resolver)
    (methods : List FunctionDecl) :
    R (FunctionDecl.referencesAll methods) r (FunctionDecl.resolveMethods context r methods) := by
  cases methods with
  | nil => exact h.refl r
  | cons method rest =>
    rw [FunctionDecl.resolveMethods]
    exact h.trans (FunctionDecl.resolve_bracketed _ r method)
      (FunctionDecl.resolveMethods_bracketed context _ rest)

end

end Bracketed

section Paired

variable {R : Resolver → Resolver → Prop}

mutual

theorem Expr.resolve_paired (h : Paired R) {r q : Resolver} (context : Context) (e : Expr) (hr : R r q) :
    R (e.resolve context r) (e.resolve context q) := by
  cases e with
  | literal value => exact hr
  | unary op line operand => exact Expr.resolve_paired h context operand hr
  | binary op line left right =>
    exact Expr.resolve_paired h context right (Expr.resolve_paired h context left hr)
  | logical op line left right =>
    exact Expr.resolve_paired h context right (Expr.resolve_paired h context left hr)
  | grouping inner => exact Expr.resolve_paired h context inner hr
  | «variable» ref => exact h.refer hr ref
  | assign ref value => exact h.refer (Expr.resolve_paired h context value hr) ref
  | call callee line arguments =>
    exact Expr.resolveAll_paired h context arguments (Expr.resolve_paired h context callee hr)
  | get object name => exact Expr.resolve_paired h context object hr
  | set object name value =>
    exact Expr.resolve_paired h context object (Expr.resolve_paired h context value hr)
  | this ref =>
    rw [Expr.resolve, Expr.resolve]
    split
    · exact h.report hr ref.name .thisOutsideClass
    · exact h.refer hr ref
  | super ref method =>
    rw [Expr.resolve, Expr.resolve]
    split
    · exact h.report hr ref.name .superOutsideClass
    · exact h.report hr ref.name .noSuperclass
    · exact h.refer hr ref

theorem Expr.resolveAll_paired (h : Paired R) {r q : Resolver} (context : Context) (es : List Expr)
    (hr : R r q) : R (Expr.resolveAll context r es) (Expr.resolveAll context q es) := by
  cases es with
  | nil => exact hr
  | cons e rest =>
    exact Expr.resolveAll_paired h context rest (Expr.resolve_paired h context e hr)

end

theorem Expr.resolveOption_paired (h : Paired R) {r q : Resolver} (context : Context)
    (e : Option Expr) (hr : R r q) :
    R (Expr.resolveOption context r e) (Expr.resolveOption context q e) := by
  cases e with
  | none => exact hr
  | some e => exact Expr.resolve_paired h context e hr

mutual

theorem Stmt.resolve_paired (h : Paired R) {r q : Resolver} (context : Context) (s : Stmt) (hr : R r q) :
    R (s.resolve context r) (s.resolve context q) := by
  cases s with
  | expression e => exact Expr.resolve_paired h context e hr
  | print e => exact Expr.resolve_paired h context e hr
  | var name initializer =>
    exact h.ready (Expr.resolveOption_paired h context initializer (h.declare hr name)) name.text
  | block body =>
    rw [Stmt.resolve, Stmt.resolve]
    exact h.leave (Stmt.resolveAll_paired h context body (h.enter hr))
  | branch condition yes no =>
    have hyes := Stmt.resolve_paired h context yes (Expr.resolve_paired h context condition hr)
    cases no with
    | none =>
      rw [Stmt.resolve, Stmt.resolve]
      exact hyes
    | some no =>
      rw [Stmt.resolve, Stmt.resolve]
      exact Stmt.resolve_paired h context no hyes
  | loop condition body =>
    rw [Stmt.resolve, Stmt.resolve]
    exact Stmt.resolve_paired h context body (Expr.resolve_paired h context condition hr)
  | function decl =>
    rw [Stmt.resolve, Stmt.resolve]
    exact FunctionDecl.resolve_paired h _ decl (h.bind hr decl.name)
  | classDecl name superclass methods =>
    cases superclass with
    | none =>
      rw [Stmt.resolve, Stmt.resolve]
      exact h.leave (FunctionDecl.resolveMethods_paired h _ methods
        (h.ready (h.enter (h.bind hr name)) "this"))
    | some parent =>
      rw [Stmt.resolve, Stmt.resolve]
      have hsuper := h.ready (h.enter (h.superclass (h.bind hr name) name parent)) "super"
      exact h.leave (h.leave (FunctionDecl.resolveMethods_paired h _ methods
        (h.ready (h.enter hsuper) "this")))
  | ret line value =>
    cases value with
    | none =>
      rw [Stmt.resolve, Stmt.resolve]
      exact h.reportIf hr _ _ _
    | some e =>
      rw [Stmt.resolve, Stmt.resolve]
      exact Expr.resolve_paired h context e (h.reportIf (h.reportIf hr _ _ _) _ _ _)

theorem Stmt.resolveAll_paired (h : Paired R) {r q : Resolver} (context : Context)
    (body : List Stmt) (hr : R r q) :
    R (Stmt.resolveAll context r body) (Stmt.resolveAll context q body) := by
  cases body with
  | nil => exact hr
  | cons s rest =>
    rw [Stmt.resolveAll, Stmt.resolveAll]
    exact Stmt.resolveAll_paired h context rest (Stmt.resolve_paired h context s hr)

theorem FunctionDecl.resolve_paired (h : Paired R) {r q : Resolver} (context : Context)
    (decl : FunctionDecl) (hr : R r q) : R (decl.resolve context r) (decl.resolve context q) := by
  obtain ⟨name, params, body⟩ := decl
  rw [FunctionDecl.resolve, FunctionDecl.resolve]
  exact h.leave (Stmt.resolveAll_paired h context body (h.bindAll (h.enter hr) params))

theorem FunctionDecl.resolveMethods_paired (h : Paired R) {r q : Resolver} (context : Context)
    (methods : List FunctionDecl) (hr : R r q) :
    R (FunctionDecl.resolveMethods context r methods)
      (FunctionDecl.resolveMethods context q methods) := by
  cases methods with
  | nil => exact hr
  | cons method rest =>
    rw [FunctionDecl.resolveMethods, FunctionDecl.resolveMethods]
    exact FunctionDecl.resolveMethods_paired h context rest
      (FunctionDecl.resolve_paired h _ method hr)

end

end Paired
end Lox
