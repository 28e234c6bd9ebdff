import Std.Data.TreeMap.Basic
import Lox.Bindings
import Lox.Diagnostic
import Lox.Program

/-!
# Static resolution

One walk over a tree finds, for every reference, how many scopes lie between it and the
declaration it means. A reference without a distance means a global. The walk also reports
everything that is statically wrong; no error stops it.
-/
namespace Lox

/-- Distances by the identity of the reference. -/
abbrev Distances := Std.TreeMap Nat Nat

structure ResolutionFault where
  name : Ident
  cause : ResolutionError
  deriving DecidableEq, Repr

def ResolutionFault.diagnostic (f : ResolutionFault) : Diagnostic :=
  .resolution f.name.line (.at f.name.text) f.cause

/-- The names that a scope declares. A name is mapped to `false` until its initializer has been
resolved. -/
abbrev Scope := Bindings Bool

inductive FunctionContext where
  | outside | function | method | initializer
  deriving DecidableEq, Repr

inductive ClassContext where
  | outside | base | derived
  deriving DecidableEq, Repr

/-- The innermost function and class around a node. -/
structure Context where
  function : FunctionContext
  classes : ClassContext
  deriving DecidableEq, Repr

def Context.topLevel : Context := ⟨.outside, .outside⟩

/-- What resolution knows at a point of its walk. Scopes are innermost first. -/
structure Resolver where
  scopes : List Scope
  globals : Scope
  distances : List (Nat × Nat)
  faults : List ResolutionFault

namespace Resolver

/-- Begins with the names of globals that have a value already. -/
def start (globals : List String) : Resolver where
  scopes := []
  globals := globals.foldl (·.insert · true) Bindings.empty
  distances := []
  faults := []

def report (r : Resolver) (name : Ident) (cause : ResolutionError) : Resolver :=
  { r with faults := r.faults ++ [⟨name, cause⟩] }

def enter (r : Resolver) : Resolver := { r with scopes := Bindings.empty :: r.scopes }

def leave (r : Resolver) : Resolver := { r with scopes := r.scopes.tail }

/-- Sets the state of a name in the innermost scope. -/
def mark (r : Resolver) (name : String) (ready : Bool) : Resolver :=
  match r.scopes with
  | [] => { r with globals := r.globals.insert name ready }
  | scope :: outer => { r with scopes := scope.insert name ready :: outer }

/-- Globals may be declared again, and stay readable then. -/
def declare (r : Resolver) (name : Ident) : Resolver :=
  match r.scopes with
  | [] => if r.globals.contains name.text then r else r.mark name.text false
  | scope :: _ =>
    let r := if scope.contains name.text then r.report name .redeclared else r
    r.mark name.text false

def define (r : Resolver) (name : Ident) : Resolver := r.mark name.text true

def bind (r : Resolver) (name : Ident) : Resolver := (r.declare name).define name

/-- The nearest scope that holds `name` ready for use, counted from `depth`. -/
def distance? (name : String) (depth : Nat) : List Scope → Option Nat
  | [] => none
  | scope :: outer =>
    if scope.find? name = some true then some depth else distance? name (depth + 1) outer

/-- A declaration whose initializer is being resolved is passed over, so that `var a = a + 1;`
in a block reads the outer `a`. If nothing outside declares the name, the reference can only mean
the variable itself. -/
def refer (r : Resolver) (ref : Reference) : Resolver :=
  let name := ref.name.text
  match distance? name 0 r.scopes with
  | some d => { r with distances := (ref.id, d) :: r.distances }
  | none =>
    match r.globals.find? name with
    | some true => r
    | some false => r.report ref.name .ownInitializer
    | none => if r.scopes.any (·.contains name) then r.report ref.name .ownInitializer else r

end Resolver

mutual

def Expr.resolve (context : Context) (r : Resolver) : Expr → Resolver
  | .literal _ => r
  | .grouping inner => inner.resolve context r
  | .unary _ _ operand => operand.resolve context r
  | .binary _ _ left right | .logical _ _ left right =>
    right.resolve context (left.resolve context r)
  | .variable ref => r.refer ref
  | .assign ref value => (value.resolve context r).refer ref
  | .call callee _ arguments => Expr.resolveAll context (callee.resolve context r) arguments
  | .get object _ => object.resolve context r
  | .set object _ value => object.resolve context (value.resolve context r)
  | .this ref =>
    match context.classes with
    | .outside => r.report ref.name .thisOutsideClass
    | _ => r.refer ref
  | .super ref _ =>
    match context.classes with
    | .outside => r.report ref.name .superOutsideClass
    | .base => r.report ref.name .noSuperclass
    | .derived => r.refer ref

def Expr.resolveAll (context : Context) (r : Resolver) : List Expr → Resolver
  | [] => r
  | e :: rest => Expr.resolveAll context (e.resolve context r) rest

end

def Expr.resolveOption (context : Context) (r : Resolver) : Option Expr → Resolver
  | none => r
  | some e => e.resolve context r

/-- The class itself, before its methods: its name is bound and its superclass resolved. -/
def Resolver.superclass (r : Resolver) (name : Ident) (parent : Reference) : Resolver :=
  let r := if parent.name.text = name.text then r.report parent.name .selfInheritance else r
  r.refer parent

mutual

def Stmt.resolve (context : Context) (r : Resolver) : Stmt → Resolver
  | .expression e | .print e => e.resolve context r
  | .var name initializer =>
    (Expr.resolveOption context (r.declare name) initializer).define name
  | .block body => (Stmt.resolveAll context r.enter body).leave
  | .branch condition yes no =>
    let r := yes.resolve context (condition.resolve context r)
    match no with
    | none => r
    | some no => no.resolve context r
  | .loop condition body => body.resolve context (condition.resolve context r)
  | .function decl => decl.resolve { context with function := .function } (r.bind decl.name)
  | .classDecl name none methods =>
    let r := ((r.bind name).enter).mark "this" true
    (FunctionDecl.resolveMethods { context with classes := .base } r methods).leave
  | .classDecl name (some parent) methods =>
    let r := (((r.bind name).superclass name parent).enter).mark "super" true
    let r := r.enter.mark "this" true
    (FunctionDecl.resolveMethods { context with classes := .derived } r methods).leave.leave
  | .ret line value =>
    let keyword : Ident := ⟨"return", line⟩
    let r := if context.function = .outside then r.report keyword .topLevelReturn else r
    match value with
    | none => r
    | some e =>
      let r := if context.function = .initializer then r.report keyword .initializerValue else r
      e.resolve context r

def Stmt.resolveAll (context : Context) (r : Resolver) : List Stmt → Resolver
  | [] => r
  | s :: rest => Stmt.resolveAll context (s.resolve context r) rest

/-- One scope holds the parameters and the top level of the body, as one frame does when the
function is called. -/
def FunctionDecl.resolve (context : Context) (r : Resolver) : FunctionDecl → Resolver
  | ⟨_, params, body⟩ => (Stmt.resolveAll context (params.foldl Resolver.bind r.enter) body).leave

def FunctionDecl.resolveMethods (context : Context) (r : Resolver) :
    List FunctionDecl → Resolver
  | [] => r
  | method :: rest =>
    let sort := if method.name.text = initializerName then .initializer else .method
    let r := method.resolve { context with function := sort } r
    FunctionDecl.resolveMethods context r rest

end

/-- The distances that were found, or the errors if there are any. -/
def Resolver.finish (r : Resolver) : Except (List ResolutionFault) (List (Nat × Nat)) :=
  if r.faults.isEmpty then .ok r.distances else .error r.faults

/-- Resolves a program in a session whose globals have the given names. -/
def resolveProgram (globals : List String) (program : List Stmt) :
    Except (List ResolutionFault) (List (Nat × Nat)) :=
  (Stmt.resolveAll .topLevel (.start globals) program).finish

def resolveExpression (globals : List String) (e : Expr) :
    Except (List ResolutionFault) (List (Nat × Nat)) :=
  (e.resolve .topLevel (.start globals)).finish

end Lox
