import Lox.Proofs.Syntax.Labels
import Lox.Resolution

/-!
# Resolution and labels

Lines and identities play no part in resolution: they are only handed on, lines to faults and
identities to distances.
-/
namespace Lox

variable (φ : Labels)

def ResolutionFault.relabel (f : ResolutionFault) : ResolutionFault := ⟨f.name.relabel φ, f.cause⟩

/-- Distances of references with other identities. -/
def Labels.distances (distances : List (Nat × Nat)) : List (Nat × Nat) :=
  distances.map fun (id, d) => (φ.id id, d)

namespace Resolver

def relabel (r : Resolver) : Resolver :=
  { r with distances := φ.distances r.distances, faults := r.faults.map (·.relabel φ) }

variable (r : Resolver) (name : Ident) (ref : Reference)

theorem report_relabel (cause : ResolutionError) :
    (r.relabel φ).report (name.relabel φ) cause = (r.report name cause).relabel φ := by
  unfold report relabel
  rw [List.map_append]
  rfl

theorem mark_relabel (text : String) (ready : Bool) :
    (r.relabel φ).mark text ready = (r.mark text ready).relabel φ := by
  obtain ⟨scopes, globals, distances, faults⟩ := r
  cases scopes <;> rfl

theorem declare_relabel : (r.relabel φ).declare (name.relabel φ) = (r.declare name).relabel φ := by
  have hscopes : (r.relabel φ).scopes = r.scopes := rfl
  have hglobals : (r.relabel φ).globals = r.globals := rfl
  have htext : (name.relabel φ).text = name.text := rfl
  unfold declare
  rw [hscopes, hglobals, htext]
  cases r.scopes with
  | nil =>
    dsimp only
    rw [mark_relabel, ← apply_ite (relabel φ)]
  | cons scope outer =>
    dsimp only
    rw [report_relabel, ← apply_ite (relabel φ), mark_relabel]

theorem define_relabel : (r.relabel φ).define (name.relabel φ) = (r.define name).relabel φ :=
  mark_relabel φ r name.text true

theorem bind_relabel : (r.relabel φ).bind (name.relabel φ) = (r.bind name).relabel φ := by
  unfold bind
  rw [declare_relabel, define_relabel]

theorem refer_relabel : (r.relabel φ).refer (ref.relabel φ) = (r.refer ref).relabel φ := by
  have hreport : (if r.scopes.any (·.contains ref.name.text) then
      (r.relabel φ).report (ref.name.relabel φ) .ownInitializer else r.relabel φ) =
        (if r.scopes.any (·.contains ref.name.text) then r.report ref.name .ownInitializer
          else r).relabel φ := by
    rw [apply_ite (relabel φ), report_relabel]
  have hscopes : (r.relabel φ).scopes = r.scopes := rfl
  have hglobals : (r.relabel φ).globals = r.globals := rfl
  have hname : (ref.relabel φ).name = ref.name.relabel φ := rfl
  have htext : (ref.name.relabel φ).text = ref.name.text := rfl
  unfold refer
  dsimp only
  rw [hscopes, hglobals, hname, htext]
  cases distance? ref.name.text 0 r.scopes with
  | some d => rfl
  | none =>
    cases r.globals.find? ref.name.text with
    | none => exact hreport
    | some ready =>
      cases ready with
      | true => rfl
      | false => exact report_relabel φ r ref.name .ownInitializer

theorem enter_relabel : (r.relabel φ).enter = r.enter.relabel φ := rfl

theorem leave_relabel : (r.relabel φ).leave = r.leave.relabel φ := rfl

theorem superclass_relabel (parent : Reference) :
    (r.relabel φ).superclass (name.relabel φ) (parent.relabel φ) =
      (r.superclass name parent).relabel φ := by
  have hreport : (if parent.name.text = name.text then
      (r.relabel φ).report (parent.name.relabel φ) .selfInheritance else r.relabel φ) =
        (if parent.name.text = name.text then r.report parent.name .selfInheritance else r).relabel φ := by
    rw [apply_ite (relabel φ), report_relabel]
  exact (congrArg (refer · (parent.relabel φ)) hreport).trans (refer_relabel φ _ _)

theorem foldl_bind_relabel (params : List Ident) :
    (params.map (·.relabel φ)).foldl Resolver.bind (r.relabel φ) =
      (params.foldl Resolver.bind r).relabel φ := by
  induction params generalizing r with
  | nil => rfl
  | cons p rest ih =>
    rw [List.map_cons, List.foldl_cons, List.foldl_cons, bind_relabel, ih]

end Resolver

mutual

theorem Expr.resolve_relabel (context : Context) (r : Resolver) (e : Expr) :
    (e.relabel φ).resolve context (r.relabel φ) = (e.resolve context r).relabel φ := by
  cases e with
  | literal value => rfl
  | unary op line operand => exact Expr.resolve_relabel context r operand
  | binary op line left right =>
    rw [Expr.relabel, Expr.resolve, Expr.resolve, Expr.resolve_relabel, Expr.resolve_relabel]
  | logical op line left right =>
    rw [Expr.relabel, Expr.resolve, Expr.resolve, Expr.resolve_relabel, Expr.resolve_relabel]
  | grouping inner => exact Expr.resolve_relabel context r inner
  | «variable» ref => exact Resolver.refer_relabel φ r ref
  | assign ref value =>
    rw [Expr.relabel, Expr.resolve, Expr.resolve, Expr.resolve_relabel, Resolver.refer_relabel]
  | call callee line arguments =>
    rw [Expr.relabel, Expr.resolve, Expr.resolve, Expr.resolve_relabel, Expr.resolveAll_relabel]
  | get object name => exact Expr.resolve_relabel context r object
  | set object name value =>
    rw [Expr.relabel, Expr.resolve, Expr.resolve, Expr.resolve_relabel, Expr.resolve_relabel]
  | this ref =>
    rw [Expr.relabel, Expr.resolve, Expr.resolve]
    cases context.classes with
    | outside => exact Resolver.report_relabel φ r ref.name .thisOutsideClass
    | base => exact Resolver.refer_relabel φ r ref
    | derived => exact Resolver.refer_relabel φ r ref
  | super ref method =>
    rw [Expr.relabel, Expr.resolve, Expr.resolve]
    cases context.classes with
    | outside => exact Resolver.report_relabel φ r ref.name .superOutsideClass
    | base => exact Resolver.report_relabel φ r ref.name .noSuperclass
    | derived => exact Resolver.refer_relabel φ r ref

theorem Expr.resolveAll_relabel (context : Context) (r : Resolver) (es : List Expr) :
    Expr.resolveAll context (r.relabel φ) (Expr.relabelAll φ es) =
      (Expr.resolveAll context r es).relabel φ := by
  cases es with
  | nil => rfl
  | cons e rest =>
    rw [Expr.relabelAll, Expr.resolveAll, Expr.resolveAll, Expr.resolve_relabel,
      Expr.resolveAll_relabel]

end

theorem Expr.resolveOption_relabel (context : Context) (r : Resolver) (e : Option Expr) :
    Expr.resolveOption context (r.relabel φ) (e.map (·.relabel φ)) =
      (Expr.resolveOption context r e).relabel φ := by
  cases e with
  | none => rfl
  | some e => exact Expr.resolve_relabel φ context r e

mutual

theorem Stmt.resolve_relabel (context : Context) (r : Resolver) (s : Stmt) :
    (s.relabel φ).resolve context (r.relabel φ) = (s.resolve context r).relabel φ := by
  cases s with
  | expression e => exact Expr.resolve_relabel φ context r e
  | print e => exact Expr.resolve_relabel φ context r e
  | var name initializer =>
    rw [Stmt.relabel, Stmt.resolve, Stmt.resolve, Resolver.declare_relabel, Expr.resolveOption_relabel,
      Resolver.define_relabel]
  | block body =>
    rw [Stmt.relabel, Stmt.resolve, Stmt.resolve, Resolver.enter_relabel, Stmt.resolveAll_relabel,
      Resolver.leave_relabel]
  | branch condition yes no =>
    cases no with
    | none =>
      rw [Stmt.relabel, Stmt.resolve, Stmt.resolve, Expr.resolve_relabel, Stmt.resolve_relabel]
    | some no =>
      rw [Stmt.relabel, Stmt.resolve, Stmt.resolve, Expr.resolve_relabel, Stmt.resolve_relabel,
        Stmt.resolve_relabel]
  | loop condition body =>
    rw [Stmt.relabel, Stmt.resolve, Stmt.resolve, Expr.resolve_relabel, Stmt.resolve_relabel]
  | function decl =>
    rw [Stmt.relabel, Stmt.resolve, Stmt.resolve, FunctionDecl.name_relabel, Resolver.bind_relabel,
      FunctionDecl.resolve_relabel]
  | classDecl name superclass methods =>
    cases superclass with
    | none =>
      rw [Stmt.relabel, Option.map_none, Stmt.resolve, Stmt.resolve, Resolver.bind_relabel,
        Resolver.enter_relabel, Resolver.mark_relabel, FunctionDecl.resolveMethods_relabel,
        Resolver.leave_relabel]
    | some parent =>
      rw [Stmt.relabel, Option.map_some, Stmt.resolve, Stmt.resolve, Resolver.bind_relabel,
        Resolver.superclass_relabel, Resolver.enter_relabel, Resolver.mark_relabel,
        Resolver.enter_relabel, Resolver.mark_relabel, FunctionDecl.resolveMethods_relabel,
        Resolver.leave_relabel, Resolver.leave_relabel]
  | ret line value =>
    have hreport : ∀ (c : Prop) [Decidable c] (cause : ResolutionError) (r : Resolver),
        (if c then (r.relabel φ).report ⟨"return", φ.line line⟩ cause else r.relabel φ) =
          (if c then r.report ⟨"return", line⟩ cause else r).relabel φ := by
      intro c _ cause r
      rw [apply_ite (Resolver.relabel φ), ← Resolver.report_relabel]
      rfl
    cases value with
    | none =>
      rw [Stmt.relabel, Option.map_none, Stmt.resolve, Stmt.resolve]
      exact hreport _ .topLevelReturn r
    | some e =>
      rw [Stmt.relabel, Option.map_some, Stmt.resolve, Stmt.resolve, hreport, hreport,
        Expr.resolve_relabel]

theorem Stmt.resolveAll_relabel (context : Context) (r : Resolver) (body : List Stmt) :
    Stmt.resolveAll context (r.relabel φ) (Stmt.relabelAll φ body) =
      (Stmt.resolveAll context r body).relabel φ := by
  cases body with
  | nil => rfl
  | cons s rest =>
    rw [Stmt.relabelAll, Stmt.resolveAll, Stmt.resolveAll, Stmt.resolve_relabel,
      Stmt.resolveAll_relabel]

theorem FunctionDecl.resolve_relabel (context : Context) (r : Resolver) (decl : FunctionDecl) :
    (decl.relabel φ).resolve context (r.relabel φ) = (decl.resolve context r).relabel φ := by
  obtain ⟨name, params, body⟩ := decl
  rw [FunctionDecl.relabel, FunctionDecl.resolve, FunctionDecl.resolve, Resolver.enter_relabel,
    Resolver.foldl_bind_relabel, Stmt.resolveAll_relabel, Resolver.leave_relabel]

theorem FunctionDecl.resolveMethods_relabel (context : Context) (r : Resolver)
    (methods : List FunctionDecl) :
    FunctionDecl.resolveMethods context (r.relabel φ) (FunctionDecl.relabelAll φ methods) =
      (FunctionDecl.resolveMethods context r methods).relabel φ := by
  cases methods with
  | nil => rfl
  | cons method rest =>
    rw [FunctionDecl.relabelAll, FunctionDecl.resolveMethods, FunctionDecl.resolveMethods,
      FunctionDecl.name_relabel, FunctionDecl.resolve_relabel, FunctionDecl.resolveMethods_relabel]
    rfl

end

theorem Resolver.finish_relabel (r : Resolver) : (r.relabel φ).finish =
    match r.finish with
    | .ok distances => .ok (φ.distances distances)
    | .error faults => .error (faults.map (·.relabel φ)) := by
  unfold finish
  change (if (r.faults.map _).isEmpty = true then _ else _) = _
  rw [List.isEmpty_map]
  split <;> rfl

/-- What is found in a program with other labels. -/
theorem resolveProgram_relabel (globals : List String) (program : List Stmt) :
    resolveProgram globals (program.map (·.relabel φ)) =
      match resolveProgram globals program with
      | .ok distances => .ok (φ.distances distances)
      | .error faults => .error (faults.map (·.relabel φ)) := by
  have hresolve := Stmt.resolveAll_relabel φ .topLevel (.start globals) program
  rw [Stmt.relabelAll_eq_map] at hresolve
  unfold resolveProgram
  rw [← Resolver.finish_relabel, ← hresolve]
  rfl

end Lox
