import Lox.Proofs.Relabeling.Machine
import Lox.Session

/-!
# Relabeling runs

What a run does and how it ends does not depend on lines and identities, except for the lines it
reports.
-/
namespace Lox

/-! ## The labeling that changes nothing -/

theorem Failure.relabel_identity (f : Failure) : f.relabel .identity = f := by
  cases f <;> rfl

theorem Control.relabel_identity (c : Control) : c.relabel .identity = c := by
  cases c with
  | eval e => exact congrArg eval (Expr.relabel_identity e)
  | exec s => exact congrArg exec (Stmt.relabel_identity s)
  | yield v => exact congrArg yield (Value.relabel_identity v)
  | returning v => exact congrArg returning (Value.relabel_identity v)
  | failed f => exact congrArg failed (Failure.relabel_identity f)
  | _ => rfl

theorem Cont.relabel_identity (k : Cont) : k.relabel .identity = k := by
  cases k <;> simp [Cont.relabel]

theorem Interpreter.relabel_identity (i : Interpreter) : i.relabel .identity i.distances = i := by
  unfold relabel
  rw [Store.relabel_identity]

namespace Machine

theorem relabel_identity (m : Machine) : m.relabel .identity m.state.distances = m := by
  have hstack : m.stack.map (Cont.relabel .identity) = m.stack :=
    (List.map_congr_left fun k _ => Cont.relabel_identity k).trans (List.map_id' _)
  unfold relabel
  rw [Control.relabel_identity, hstack, Interpreter.relabel_identity]

/-- What is learned from resolution is never forgotten or changed: a relabeled machine keeps its table,
and every machine is itself relabeled. -/
@[simp] theorem distances_step (m : Machine) : m.step.state.distances = m.state.distances := by
  have h := step_relabel m (φ := .identity) (D := m.state.distances) fun _ => rfl
  rw [relabel_identity] at h
  rw [h]
  rfl

variable {φ : Labels} {D : Distances} {fuel : Nat}

theorem distances_run (fuel : Nat) (m : Machine) : (m.run fuel).state.distances = m.state.distances := by
  induction fuel generalizing m with
  | zero => rfl
  | succ fuel ih =>
    unfold run
    split
    · rfl
    · exact (ih m.step).trans (distances_step m)

theorem run_relabel (fuel : Nat) (m : Machine) (hD : m.state.Finds φ D) :
    (m.relabel φ D).run fuel = (m.run fuel).relabel φ D := by
  induction fuel generalizing m with
  | zero => rfl
  | succ fuel ih =>
    have hstep : m.step.state.Finds φ D := by
      unfold Interpreter.Finds
      rw [distances_step]
      exact hD
    unfold run
    rw [isFinal_relabel, step_relabel m hD, ih m.step hstep]
    split <;> rfl

end Machine

def Ending.relabel (φ : Labels) : Ending → Ending
  | completed => completed
  | failed failure => failed (failure.relabel φ)
  | crashed => crashed
  | exhausted => exhausted

def Diagnostic.relabel (φ : Labels) : Diagnostic → Diagnostic
  | lexical line cause => lexical (φ.line line) cause
  | grammar line location cause => grammar (φ.line line) location cause
  | resolution line location cause => resolution (φ.line line) location cause
  | runtime line cause => runtime (φ.line line) cause
  | output cause => output cause

def Report.relabel (φ : Labels) (r : Report) : Report :=
  { r with diagnostics := r.diagnostics.map (Diagnostic.relabel φ) }

namespace Interpreter

variable {φ : Labels} {D : Distances} (i : Interpreter) (v : Value)

theorem settle_relabel : (i.relabel φ D).settle = i.settle.relabel φ D := by
  have hcollect : (i.drain.relabel φ D).store.collect [(i.drain.relabel φ D).active] =
      ((i.drain.store.collect [i.drain.active]).1, (i.drain.store.collect [i.drain.active]).2.relabel φ) :=
    Store.collect_relabel φ i.drain.store [i.drain.active]
  have hdue : (i.drain.relabel φ D).store.arena.shouldCollect = i.drain.store.arena.shouldCollect := rfl
  unfold settle
  dsimp only
  rw [drain_relabel, hdue, hcollect]
  split <;> rfl

@[simp] theorem distances_settle : i.settle.distances = i.distances := by
  unfold settle
  dsimp only
  split <;> rfl

theorem abort_relabel (failure : Failure) : (i.relabel φ D).abort (failure.relabel φ) =
    ((i.abort failure).1.relabel φ, (i.abort failure).2.relabel φ D) := by
  have hdrain : ({ i.relabel φ D with active := .globals } : Interpreter).drain =
      ({ i with active := .globals } : Interpreter).drain.relabel φ D :=
    drain_relabel { i with active := .globals }
  have hsink : ∀ j : Interpreter, (j.relabel φ D).sink = j.sink := fun _ => rfl
  unfold abort
  dsimp only
  rw [hdrain, hsink]
  cases ({ i with active := .globals } : Interpreter).drain.sink.flush <;> rfl

/-- Programs with other labels do the same, and fail in the same places. -/
theorem interpret_relabel (fuel : Nat) (program : List Stmt) (hD : i.Finds φ D) :
    (i.relabel φ D).interpret fuel (program.map (Stmt.relabel φ)) =
      ((i.interpret fuel program).1.relabel φ, (i.interpret fuel program).2.relabel φ D) := by
  induction program generalizing i with
  | nil =>
    have hsink : (i.relabel φ D).sink = i.sink := rfl
    rw [List.map_nil]
    unfold interpret
    rw [hsink]
    cases i.sink.flush <;> rfl
  | cons s rest ih =>
    have hrun : Machine.run fuel ⟨.exec (s.relabel φ), [], i.relabel φ D⟩ =
        (Machine.run fuel ⟨.exec s, [], i⟩).relabel φ D := Machine.run_relabel fuel ⟨.exec s, [], i⟩ hD
    have hkept := Machine.distances_run fuel ⟨.exec s, [], i⟩
    rw [List.map_cons]
    unfold interpret
    rw [hrun]
    generalize Machine.run fuel ⟨.exec s, [], i⟩ = last at hkept ⊢
    obtain ⟨control, stack, j⟩ := last
    have hnext : ∀ k : Interpreter, k.distances = j.distances →
        (k.relabel φ D).settle.interpret fuel (rest.map (Stmt.relabel φ)) =
          ((k.settle.interpret fuel rest).1.relabel φ, (k.settle.interpret fuel rest).2.relabel φ D) := by
      intro k hk
      rw [settle_relabel]
      refine ih k.settle fun id => ?_
      rw [distances_settle, hk, hkept]
      exact hD id
    cases control with
    | done =>
      cases stack with
      | nil => exact hnext j rfl
      | cons k stack => rfl
    | yield v =>
      cases stack with
      | nil =>
        have hdiscard := hnext (j.discard v) rfl
        rw [← discard_relabel] at hdiscard
        exact hdiscard
      | cons k stack => rfl
    | returning v =>
      cases stack with
      | nil =>
        have hdiscard := hnext (j.discard v) rfl
        rw [← discard_relabel] at hdiscard
        exact hdiscard
      | cons k stack => rfl
    | failed failure =>
      cases stack with
      | nil => exact abort_relabel j failure
      | cons k stack => rfl
    | _ => cases stack <;> rfl

theorem distances_interpret (fuel : Nat) (program : List Stmt) :
    (i.interpret fuel program).2.distances = i.distances := by
  have hsame : program.map (Stmt.relabel .identity) = program :=
    (List.map_congr_left fun s _ => Stmt.relabel_identity s).trans (List.map_id' _)
  have h := interpret_relabel i fuel program (φ := .identity) (D := i.distances) fun _ => rfl
  rw [relabel_identity, hsame] at h
  exact congrArg (fun p : Ending × Interpreter => p.2.distances) h

end Interpreter

namespace Session

variable {φ : Labels} {D : Distances} (i : Interpreter)

theorem printResult_relabel (v : Value) : printResult (i.relabel φ D) (v.relabel φ) =
    ((printResult i v).1.relabel φ, (printResult i v).2.relabel φ D) := by
  unfold printResult
  rw [Interpreter.writeLine_relabel]
  rcases i.writeLine v with ⟨error, j⟩
  have hsink : (j.relabel φ D).sink = j.sink := rfl
  cases error with
  | some cause => exact congrArg (Prod.mk _) (Interpreter.discard_relabel j v)
  | none =>
    dsimp only
    rw [hsink, Interpreter.discard_relabel]
    cases j.sink.flush <;> rfl

theorem runExpression_relabel (fuel : Nat) (e : Expr) (hD : i.Finds φ D) :
    runExpression fuel (i.relabel φ D) (e.relabel φ) =
      ((runExpression fuel i e).1.relabel φ, (runExpression fuel i e).2.relabel φ D) := by
  have hrun : Machine.run fuel ⟨.eval (e.relabel φ), [], i.relabel φ D⟩ =
      (Machine.run fuel ⟨.eval e, [], i⟩).relabel φ D := Machine.run_relabel fuel ⟨.eval e, [], i⟩ hD
  unfold runExpression Interpreter.interpretExpression
  rw [hrun]
  obtain ⟨control, stack, j⟩ := Machine.run fuel ⟨.eval e, [], i⟩
  have hsettle : ({ j.relabel φ D with active := .globals } : Interpreter).settle =
      ({ j with active := .globals } : Interpreter).settle.relabel φ D :=
    Interpreter.settle_relabel { j with active := .globals }
  cases control with
  | yield v =>
    cases stack with
    | nil => exact (congrArg (printResult · _) hsettle).trans (printResult_relabel _ v)
    | cons k stack => rfl
  | failed failure =>
    cases stack with
    | nil => exact congrArg (Prod.mk _) hsettle
    | cons k stack => rfl
  | _ => cases stack <;> rfl

theorem distances_runExpression (fuel : Nat) (e : Expr) :
    (runExpression fuel i e).2.distances = i.distances := by
  have h := runExpression_relabel i fuel e (φ := .identity) (D := i.distances) fun _ => rfl
  rw [Interpreter.relabel_identity, Expr.relabel_identity] at h
  exact congrArg (fun p : Ending × Interpreter => p.2.distances) h

end Session

/-! ## Interpreters that differ in labels -/

namespace Interpreter

theorem learn_append (i : Interpreter) (d d' : List (Nat × Nat)) : i.learn (d ++ d') = (i.learn d).learn d' := by
  unfold learn
  rw [List.foldl_append]

section

variable {i j : Interpreter} {id : Nat} {d : List (Nat × Nat)}

theorem getElem?_learn_congr (h : i.distances[id]? = j.distances[id]?) (d : List (Nat × Nat)) :
    (i.learn d).distances[id]? = (j.learn d).distances[id]? := by
  induction d generalizing i j with
  | nil => exact h
  | cons entry rest ih =>
    refine ih (i := i.learn [entry]) (j := j.learn [entry]) ?_
    change (i.distances.insert entry.1 entry.2)[id]? = (j.distances.insert entry.1 entry.2)[id]?
    rw [Std.TreeMap.getElem?_insert, Std.TreeMap.getElem?_insert, h]

theorem getElem?_learn_of_not_mem (h : ∀ entry ∈ d, entry.1 ≠ id) :
    (i.learn d).distances[id]? = i.distances[id]? := by
  induction d generalizing i with
  | nil => rfl
  | cons entry rest ih =>
    refine (ih (i := i.learn [entry]) fun e he => h e (List.mem_cons_of_mem _ he)).trans ?_
    change (i.distances.insert entry.1 entry.2)[id]? = i.distances[id]?
    rw [Std.TreeMap.getElem?_insert, if_neg]
    rw [Nat.compare_eq_eq]
    exact h entry List.mem_cons_self

end

/-- The code in the second interpreter is that in the first with other labels. -/
def Relabels (φ : Labels) (t i : Interpreter) : Prop := ∃ D, t.Finds φ D ∧ i = t.relabel φ D

namespace Relabels

variable {φ : Labels} {t i : Interpreter}

theorem globalNames (h : Relabels φ t i) : i.globalNames = t.globalNames := by
  obtain ⟨D, hD, rfl⟩ := h
  exact globalNames_relabel t

theorem sink (h : Relabels φ t i) : i.sink = t.sink := by
  obtain ⟨D, hD, rfl⟩ := h
  rfl

theorem clock (h : Relabels φ t i) : i.clock = t.clock := by
  obtain ⟨D, hD, rfl⟩ := h
  rfl

theorem learn (h : Relabels φ t i) (hid : φ.id = id) (d : List (Nat × Nat)) :
    Relabels φ (t.learn d) (i.learn d) := by
  obtain ⟨D, hD, rfl⟩ := h
  refine ⟨((t.relabel φ D).learn d).distances, fun n => ?_, rfl⟩
  have hn := hD n
  rw [hid] at hn ⊢
  exact getElem?_learn_congr (i := t.relabel φ D) (j := t) hn d

theorem interpret (h : Relabels φ t i) (fuel : Nat) (program : List Stmt) :
    (i.interpret fuel (program.map (Stmt.relabel φ))).1 = (t.interpret fuel program).1.relabel φ ∧
      Relabels φ (t.interpret fuel program).2 (i.interpret fuel (program.map (Stmt.relabel φ))).2 := by
  obtain ⟨D, hD, rfl⟩ := h
  rw [interpret_relabel t fuel program hD]
  refine ⟨rfl, D, fun n => ?_, rfl⟩
  rw [distances_interpret]
  exact hD n

theorem runExpression (h : Relabels φ t i) (fuel : Nat) (e : Expr) :
    (Session.runExpression fuel i (e.relabel φ)).1 = (Session.runExpression fuel t e).1.relabel φ ∧
      Relabels φ (Session.runExpression fuel t e).2 (Session.runExpression fuel i (e.relabel φ)).2 := by
  obtain ⟨D, hD, rfl⟩ := h
  rw [Session.runExpression_relabel t fuel e hD]
  refine ⟨rfl, D, fun n => ?_, rfl⟩
  rw [Session.distances_runExpression]
  exact hD n

end Relabels
end Interpreter
end Lox
