import Lox.Machine

/-!
# Running programs

Top-level statements run one after the other. Between them no value is held anywhere but in
frames, so that is where unreachable frames are looked for. The first failure ends a run; all
that was done before it stays in effect.
-/
namespace Lox

/-- How running a program ended. -/
inductive Ending where
  | completed
  | failed (failure : Failure)
  | crashed
  /-- The bound on the number of steps was reached. -/
  | exhausted
  deriving DecidableEq, Repr

/-- How evaluating an expression ended. The caller owns the value. -/
inductive Evaluation where
  | value (v : Value)
  | failed (failure : Failure)
  | crashed
  | exhausted

namespace Interpreter

/-- Frees released frames, and unreachable ones if it is time to look for them. -/
def settle (i : Interpreter) : Interpreter :=
  let i := i.drain
  if i.store.arena.shouldCollect then { i with store := (i.store.collect [i.active]).2 } else i

/-- Returns to the global frame after a failure. A flush that fails now takes the place
of the failure. -/
def abort (i : Interpreter) (failure : Failure) : Ending × Interpreter :=
  let i := { i with active := .globals }.drain
  match i.sink.flush with
  | some cause => (.failed (.output cause), i)
  | none => (.failed failure, i)

/-- Runs a program with at most `fuel` steps for each of its top-level statements. -/
def interpret (fuel : Nat) (i : Interpreter) : List Stmt → Ending × Interpreter
  | [] =>
    match i.sink.flush with
    | some cause => (.failed (.output cause), i)
    | none => (.completed, i)
  | s :: rest =>
    match Machine.run fuel ⟨.exec s, [], i⟩ with
    | ⟨.done, [], i⟩ => i.settle.interpret fuel rest
    | ⟨.yield v, [], i⟩ | ⟨.returning v, [], i⟩ => (i.discard v).settle.interpret fuel rest
    | ⟨.failed failure, [], i⟩ => i.abort failure
    | ⟨.crashed, _, i⟩ => (.crashed, i)
    | ⟨_, _, i⟩ => (.exhausted, i)

/-- Evaluates an expression in the global frame. -/
def interpretExpression (fuel : Nat) (i : Interpreter) (e : Expr) : Evaluation × Interpreter :=
  match Machine.run fuel ⟨.eval e, [], i⟩ with
  | ⟨.yield v, [], i⟩ => (.value v, { i with active := .globals }.settle)
  | ⟨.failed failure, [], i⟩ => (.failed failure, { i with active := .globals }.settle)
  | ⟨.crashed, _, i⟩ => (.crashed, i)
  | ⟨_, _, i⟩ => (.exhausted, i)

end Interpreter
end Lox
