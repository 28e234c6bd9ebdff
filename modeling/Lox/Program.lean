import Lox.Number.Text

/-!
# Syntax trees

There is no node for `for`: such loops are written as the block and the `while` loop that they
abbreviate. Every node that names a variable has an identity of its own, by which the
distance table speaks of it.
-/
namespace Lox

/-- An occurrence of a name in the source. -/
structure Ident where
  text : String
  line : Nat
  deriving DecidableEq, Repr

/-- A use of a variable. No two uses have the same `id`. -/
structure Reference where
  id : Nat
  name : Ident
  deriving DecidableEq, Repr

inductive Literal where
  | number (value : Float)
  | string (value : String)
  | boolean (value : Bool)
  | nil
  deriving Repr

inductive UnaryOp where
  | negate | not
  deriving DecidableEq, Repr

inductive BinaryOp where
  | add | subtract | multiply | divide | modulo
  | greater | greaterEqual | less | lessEqual | equal | notEqual
  deriving DecidableEq, Repr

inductive LogicalOp where
  | and | or
  deriving DecidableEq, Repr

def UnaryOp.symbol : UnaryOp → String
  | negate => "-"
  | not => "!"

def BinaryOp.symbol : BinaryOp → String
  | add => "+"
  | subtract => "-"
  | multiply => "*"
  | divide => "/"
  | modulo => "%"
  | greater => ">"
  | greaterEqual => ">="
  | less => "<"
  | lessEqual => "<="
  | equal => "=="
  | notEqual => "!="

def LogicalOp.symbol : LogicalOp → String
  | and => "and"
  | or => "or"

/-- Lines locate errors: of an operator, of the closing parenthesis of a call. -/
inductive Expr where
  | literal (value : Literal)
  | unary (op : UnaryOp) (line : Nat) (operand : Expr)
  | binary (op : BinaryOp) (line : Nat) (left right : Expr)
  | logical (op : LogicalOp) (line : Nat) (left right : Expr)
  | grouping (inner : Expr)
  | variable (ref : Reference)
  | assign (ref : Reference) (value : Expr)
  | call (callee : Expr) (line : Nat) (arguments : List Expr)
  | get (object : Expr) (name : Ident)
  | set (object : Expr) (name : Ident) (value : Expr)
  | this (ref : Reference)
  | super (ref : Reference) (method : Ident)
  deriving Repr

mutual

inductive Stmt where
  | expression (e : Expr)
  | print (e : Expr)
  | var (name : Ident) (initializer : Option Expr)
  | block (body : List Stmt)
  | branch (condition : Expr) (yes : Stmt) (no : Option Stmt)
  | loop (condition : Expr) (body : Stmt)
  | function (decl : FunctionDecl)
  | classDecl (name : Ident) (superclass : Option Reference) (methods : List FunctionDecl)
  | ret (line : Nat) (value : Option Expr)
  deriving Repr

structure FunctionDecl where
  name : Ident
  params : List Ident
  body : List Stmt
  deriving Repr

end

/-- Methods of this name initialize the instances of their class. -/
def initializerName : String := "init"

/-- The line that best locates an expression; a literal has none. -/
def Expr.line : Expr → Nat
  | .literal _ => 0
  | .unary _ line _ | .binary _ line _ _ | .logical _ line _ _ | .call _ line _ => line
  | .grouping inner => inner.line
  | .variable ref | .assign ref _ | .this ref | .super ref _ => ref.name.line
  | .get _ name | .set _ name _ => name.line

/-- The loop that `for (start; condition; increment) body` stands for. -/
def Stmt.forLoop (start : Option Stmt) (condition increment : Option Expr) (body : Stmt) : Stmt :=
  let round := match increment with
    | some e => block [body, expression e]
    | none => body
  let whole := loop (condition.getD (.literal (.boolean true))) round
  match start with
  | some s => block [s, whole]
  | none => whole

end Lox
