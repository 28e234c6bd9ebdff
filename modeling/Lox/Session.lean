import Lox.Program.Parse
import Lox.Run

/-!
# Sessions

A session is fed source texts, one run for each. Lexical and syntax errors are all reported and
keep a text from being resolved; resolution errors are all reported and keep it from being
executed; the first failure ends execution. Globals last from run to run.
-/
namespace Lox

/-- What a source text is taken for. -/
inductive Mode where
  | program
  /-- A single expression, whose value is printed. -/
  | expression
  deriving DecidableEq, Repr

inductive Status where
  | ok
  /-- Nothing was executed. -/
  | staticError
  | runtimeError
  deriving DecidableEq, Repr

/-- The exit code that is customary for each outcome. -/
def Status.exitCode : Status → Nat
  | ok => 0
  | staticError => 65
  | runtimeError => 70

/-- How a run ended: with a status, or without one. -/
inductive Outcome where
  | status (s : Status)
  | crashed
  | exhausted
  deriving DecidableEq, Repr

structure Report where
  outcome : Outcome
  diagnostics : List Diagnostic
  deriving DecidableEq, Repr

def Report.static (diagnostics : List Diagnostic) : Report := ⟨.status .staticError, diagnostics⟩

def Report.ofEnding : Ending → Report
  | .completed => ⟨.status .ok, []⟩
  | .failed failure => ⟨.status .runtimeError, [failure.diagnostic]⟩
  | .crashed => ⟨.crashed, []⟩
  | .exhausted => ⟨.exhausted, []⟩

structure Session where
  interpreter : Interpreter
  /-- The identity of the next reference that is parsed. -/
  nextId : Nat

namespace Session

def new (sink : Sink) (clock : Clock) : Session := ⟨.new sink clock, 0⟩

/-- Prints the value of an expression that has been evaluated, then drops it. -/
def printResult (i : Interpreter) (v : Value) : Ending × Interpreter :=
  match i.writeLine v with
  | (some cause, i) => (.failed (.output cause), i.discard v)
  | (none, i) =>
    match i.sink.flush with
    | some cause => (.failed (.output cause), i.discard v)
    | none => (.completed, i.discard v)

def runExpression (fuel : Nat) (i : Interpreter) (e : Expr) : Ending × Interpreter :=
  match i.interpretExpression fuel e with
  | (.value v, i) => printResult i v
  | (.failed failure, i) => (.failed failure, i)
  | (.crashed, i) => (.crashed, i)
  | (.exhausted, i) => (.exhausted, i)

/-- Executes what resolution has accepted. -/
def execute (s : Session)
    (resolved : Except (List ResolutionFault) (List (Nat × Nat)))
    (body : Interpreter → Ending × Interpreter) : Report × Session :=
  match resolved with
  | .error faults => (.static (faults.map ResolutionFault.diagnostic), s)
  | .ok distances =>
    let (ending, i) := body (s.interpreter.learn distances)
    (.ofEnding ending, { s with interpreter := i })

def runProgram (fuel : Nat) (s : Session) (source : String) : Report × Session :=
  let (tokens, lexical) := tokenize source
  let parsed := parseProgram s.nextId tokens
  let errors := lexical ++ parsed.faults.map SyntaxFault.diagnostic
  let s := { s with nextId := parsed.nextId }
  if errors.isEmpty then
    s.execute (resolveProgram s.interpreter.globalNames parsed.tree) fun i =>
      i.interpret fuel parsed.tree
  else (.static errors, s)

def runExpressionSource (fuel : Nat) (s : Session) (source : String) : Report × Session :=
  let (tokens, lexical) := tokenize source
  let parsed := parseExpression s.nextId tokens
  let errors := lexical ++ parsed.faults.map SyntaxFault.diagnostic
  let s := { s with nextId := parsed.nextId }
  match parsed.tree, errors with
  | some e, [] =>
    s.execute (resolveExpression s.interpreter.globalNames e) fun i => runExpression fuel i e
  | _, _ => (.static errors, s)

/-- Scans, parses, resolves and executes a source text, with at most `fuel` steps for each top-level
statement. -/
def run (fuel : Nat) (s : Session) (mode : Mode) (source : String) : Report × Session :=
  match mode with
  | .program => s.runProgram fuel source
  | .expression => s.runExpressionSource fuel source

end Session
end Lox
