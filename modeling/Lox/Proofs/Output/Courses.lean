import Lox.Proofs.Output.Runs

/-!
# Failures with a writer that cannot be relied on

The course of a run, step by step. What the sink takes can change before every step: any write can fail, after
any part of a text, and so can any flush. With a sink that is left alone a course ends where the run ends.

A failure that has been raised is not lost on the way out, however deep it was raised and whatever becomes of
the sink. There is one place where another one takes over, the flush at the end of a program.
-/
namespace Lox

/-- What becomes of a sink before each step. -/
abbrev Writer := Nat → Sink → Sink

/-- The sink is left alone. -/
def Writer.steady : Writer := fun _ sink => sink

/-- Where the run of a source stands. -/
inductive Course where
  /-- A statement is executed; others come after it. -/
  | executing (m : Machine) (rest : List Stmt)
  | evaluating (m : Machine)
  | ended (report : Report) (i : Interpreter)

namespace Course

def ofResult (result : Ending × Interpreter) : Course := .ended (.ofEnding result.1) result.2

/-- Begins the next statement, or ends the program. -/
def next (i : Interpreter) : List Stmt → Course
  | [] => ofResult (i.interpret 0 [])
  | s :: rest => executing ⟨.exec s, [], i⟩ rest

def step : Course → Course
  | executing m rest =>
    if m.isFinal then
      match m.ended? with
      | some i => next i rest
      | none => ofResult m.stopped
    else executing m.step rest
  | evaluating m => if m.isFinal then ofResult m.concluded else evaluating m.step
  | ended report i => ended report i

/-- Nothing is written when the run is over. -/
def alter (change : Sink → Sink) : Course → Course
  | executing m rest => executing (m.withSink (change m.state.sink)) rest
  | evaluating m => evaluating (m.withSink (change m.state.sink))
  | ended report i => ended report i

/-- The course after so many steps. -/
def after (w : Writer) (c : Course) : Nat → Course
  | 0 => c
  | n + 1 => ((c.after w n).alter (w n)).step

def mode? : Course → Option Mode
  | executing .. => some .program
  | evaluating _ => some .expression
  | ended .. => none

/-- The failure on its way out, however deep. -/
def failure? : Course → Option Failure
  | executing ⟨.failed failure, _, _⟩ _ | evaluating ⟨.failed failure, _, _⟩ => some failure
  | _ => none

end Course

/-- The course of a run from its first step on. What is rejected is not executed. -/
def Session.course (s : Session) (mode : Mode) (source : String) : Course :=
  match (s.analyze mode source).1 with
  | .rejected diagnostics => .ended (.static diagnostics) s.interpreter
  | .program tree distances => .next (s.interpreter.learn distances) tree
  | .expression e distances => .evaluating ⟨.eval e, [], s.interpreter.learn distances⟩

namespace Course

variable {c : Course} {w : Writer} {n : Nat} {report : Report} {i : Interpreter}

theorem after_add_of_ended (h : c.after w n = ended report i) (k : Nat) : c.after w (n + k) = ended report i := by
  induction k with
  | zero => exact h
  | succ k ih =>
    rw [← Nat.add_assoc, after, ih]
    rfl

/-! ## Failures on their way out -/

theorem alter_mode? (change : Sink → Sink) (c : Course) : (c.alter change).mode? = c.mode? := by
  cases c <;> rfl

theorem step_mode? (c : Course) : c.step.mode? = c.mode? ∨ c.step.mode? = none := by
  unfold step
  cases c with
  | executing m rest =>
    dsimp only
    split
    · cases m.ended? with
      | none => exact .inr rfl
      | some i =>
        cases rest with
        | nil => exact .inr rfl
        | cons s rest => exact .inl rfl
    · exact .inl rfl
  | evaluating m =>
    dsimp only
    split
    · exact .inr rfl
    · exact .inl rfl
  | ended report i => exact .inl rfl

theorem after_mode? (w : Writer) (c : Course) (n : Nat) :
    (c.after w n).mode? = c.mode? ∨ (c.after w n).mode? = none := by
  induction n with
  | zero => exact .inl rfl
  | succ n ih =>
    rw [after]
    obtain hstep | hstep := step_mode? ((c.after w n).alter (w n))
    · rwa [hstep, alter_mode?]
    · exact .inr hstep

/-- What a run ends with that fails in this mode, when the sink is in this state. -/
def leaving (mode : Mode) (failure : Failure) (sink : Sink) : Failure :=
  match mode with
  | .program => (sink.flush.map Failure.output).getD failure
  | .expression => failure

/-- In a program a failure leaves one continuation with each step, and then the program. -/
theorem ended_of_executing {failure : Failure} {stack : List Cont} {rest : List Stmt}
    (h : c.after w n = executing ⟨.failed failure, stack, i⟩ rest) :
    ∃ j : Interpreter, c.after w (n + stack.length + 1) =
      ended ⟨.status .runtimeError, [(leaving .program failure j.sink).diagnostic]⟩ j := by
  induction stack generalizing n i with
  | nil =>
    have hstep : c.after w (n + 1) = ofResult ((i.withSink (w n i.sink)).abort failure) := by
      rw [after, h]
      rfl
    rw [List.length_nil, Nat.add_zero, hstep]
    unfold Interpreter.abort leaving
    dsimp only
    generalize hj : ({ i.withSink (w n i.sink) with active := .globals } : Interpreter).drain = j
    cases hflush : j.sink.flush with
    | none => exact ⟨j, by rw [hflush]; rfl⟩
    | some cause => exact ⟨j, by rw [hflush]; rfl⟩
  | cons k stack ih =>
    have hstep : ∃ i', c.after w (n + 1) = executing ⟨.failed failure, stack, i'⟩ rest := by
      rw [after, h]
      exact ⟨_, rfl⟩
    obtain ⟨i', hstep⟩ := hstep
    have hlength : n + (k :: stack).length + 1 = n + 1 + stack.length + 1 := by
      rw [List.length_cons]
      omega
    rw [hlength]
    exact ih hstep

theorem ended_of_evaluating {failure : Failure} {stack : List Cont}
    (h : c.after w n = evaluating ⟨.failed failure, stack, i⟩) :
    ∃ j : Interpreter, c.after w (n + stack.length + 1) =
      ended ⟨.status .runtimeError, [failure.diagnostic]⟩ j := by
  induction stack generalizing n i with
  | nil =>
    rw [List.length_nil, Nat.add_zero, after, h]
    exact ⟨_, rfl⟩
  | cons k stack ih =>
    have hstep : ∃ i', c.after w (n + 1) = evaluating ⟨.failed failure, stack, i'⟩ := by
      rw [after, h]
      exact ⟨_, rfl⟩
    obtain ⟨i', hstep⟩ := hstep
    have hlength : n + (k :: stack).length + 1 = n + 1 + stack.length + 1 := by
      rw [List.length_cons]
      omega
    rw [hlength]
    exact ih hstep

/-- A failure ends the course, unless the last flush fails as itself. -/
theorem ended_of_failure {failure : Failure} (h : (c.after w n).failure? = some failure) :
    ∃ mode, c.mode? = some mode ∧ ∃ last, ∃ j : Interpreter, ∀ k, last ≤ k →
      c.after w k = ended ⟨.status .runtimeError, [(leaving mode failure j.sink).diagnostic]⟩ j := by
  have hmode := after_mode? w c n
  cases hc : c.after w n with
  | ended report i =>
    rw [hc] at h
    cases h
  | executing m rest =>
    rw [hc] at h hmode
    obtain ⟨control, stack, i⟩ := m
    cases control with
    | failed f =>
      cases h
      obtain ⟨j, hj⟩ := ended_of_executing hc
      refine ⟨.program, (hmode.resolve_right nofun).symm, n + stack.length + 1, j, fun k hk => ?_⟩
      obtain ⟨d, rfl⟩ := Nat.exists_eq_add_of_le hk
      exact after_add_of_ended hj d
    | _ => cases h
  | evaluating m =>
    rw [hc] at h hmode
    obtain ⟨control, stack, i⟩ := m
    cases control with
    | failed f =>
      cases h
      obtain ⟨j, hj⟩ := ended_of_evaluating hc
      refine ⟨.expression, (hmode.resolve_right nofun).symm, n + stack.length + 1, j, fun k hk => ?_⟩
      obtain ⟨d, rfl⟩ := Nat.exists_eq_add_of_le hk
      exact after_add_of_ended hj d
    | _ => cases h

/-! ## A sink that is left alone -/

@[simp] theorem alter_steady (c : Course) (n : Nat) : c.alter (Writer.steady n) = c := by
  cases c <;> rfl

theorem after_steady_succ (c : Course) (n : Nat) :
    c.after .steady (n + 1) = c.step.after .steady n := by
  induction n with
  | zero => rw [after, after, after, alter_steady]
  | succ n ih => rw [after, ih, after, alter_steady, alter_steady]

/-- The rest of a run: at most `f` steps for what is worked on, at most `g` for each statement after it. -/
def finish (f g : Nat) : Course → Report × Interpreter
  | executing m rest => let (ending, i) := (m.run f).proceed g rest; (.ofEnding ending, i)
  | evaluating m => let (ending, i) := (m.run f).concluded; (.ofEnding ending, i)
  | ended report i => (report, i)

theorem finish_next (g : Nat) (i : Interpreter) (rest : List Stmt) :
    (next i rest).finish g g = (.ofEnding (i.interpret g rest).1, (i.interpret g rest).2) := by
  cases rest with
  | nil => rfl
  | cons s rest =>
    rw [Interpreter.interpret_cons]
    rfl

/-- A step is the first one of the run of a machine, or goes on behind it. -/
theorem finish_succ (c : Course) (f g : Nat) :
    c.finish (f + 1) g = c.step.finish f g ∨ c.finish (f + 1) g = c.step.finish g g := by
  cases c with
  | ended report i => exact .inl rfl
  | executing m rest =>
    unfold step
    dsimp only [finish]
    by_cases hfinal : m.isFinal = true
    · rw [if_pos hfinal, Machine.run_of_isFinal hfinal, Machine.proceed]
      right
      cases m.ended? with
      | none => rfl
      | some i => exact (finish_next g i rest).symm
    · have hrun : m.run (f + 1) = m.step.run f := if_neg hfinal
      rw [if_neg hfinal, hrun]
      exact .inl rfl
  | evaluating m =>
    unfold step
    dsimp only [finish]
    by_cases hfinal : m.isFinal = true
    · rw [if_pos hfinal, Machine.run_of_isFinal hfinal]
      exact .inl rfl
    · have hrun : m.run (f + 1) = m.step.run f := if_neg hfinal
      rw [if_neg hfinal, hrun]
      exact .inl rfl

/-- A run that is given enough steps ends where its course ends. -/
theorem finish_of_ended (h : c.after .steady n = ended report i) :
    ∃ k, ∀ f g, k ≤ f → k ≤ g → c.finish f g = (report, i) := by
  induction n generalizing c with
  | zero =>
    cases h
    exact ⟨0, fun _ _ _ _ => rfl⟩
  | succ n ih =>
    rw [after_steady_succ] at h
    obtain ⟨k, hk⟩ := ih h
    refine ⟨k + 1, fun f g hf hg => ?_⟩
    obtain ⟨f, rfl⟩ : ∃ f', f = f' + 1 := ⟨f - 1, by omega⟩
    obtain hnext | hnext := finish_succ c f g
    · rw [hnext]
      exact hk f g (by omega) (by omega)
    · rw [hnext]
      exact hk g g (by omega) (by omega)

theorem ended_of_step (h : ∃ n, c.step.after .steady n = ended report i) :
    ∃ n, c.after .steady n = ended report i := by
  obtain ⟨n, hn⟩ := h
  exact ⟨n + 1, by rw [after_steady_succ, hn]⟩

theorem ended_of_conclusion {m : Machine} (h : (evaluating m).finish 0 0 = (report, i)) (hfinal : m.isFinal = true) :
    ∃ n, (evaluating m).after .steady n = ended report i := by
  refine ended_of_step ⟨0, ?_⟩
  rw [after, step, if_pos hfinal]
  cases h
  rfl

theorem ended_of_evaluation {m : Machine} {f g : Nat} (h : (evaluating m).finish f g = (report, i))
    (hover : report.outcome ≠ .exhausted) : ∃ n, (evaluating m).after .steady n = ended report i := by
  induction f generalizing m with
  | zero =>
    by_cases hfinal : m.isFinal = true
    · exact ended_of_conclusion h hfinal
    · dsimp only [finish, Machine.run] at h
      rw [Machine.concluded_of_not_final (Bool.not_eq_true _ ▸ hfinal)] at h
      cases h
      exact absurd rfl hover
  | succ f ih =>
    by_cases hfinal : m.isFinal = true
    · refine ended_of_conclusion ?_ hfinal
      dsimp only [finish] at h
      rwa [Machine.run_of_isFinal hfinal] at h
    · have hstep : (evaluating m).step = evaluating m.step := if_neg hfinal
      have hrun : m.run (f + 1) = m.step.run f := if_neg hfinal
      dsimp only [finish] at h
      rw [hrun] at h
      exact ended_of_step (hstep ▸ ih h)

section

variable {g : Nat} {rest : List Stmt} (hnext : ∀ j : Interpreter,
  (next j rest).finish g g = (report, i) → ∃ n, (next j rest).after .steady n = ended report i)

include hnext

theorem ended_of_final {m : Machine} (h : (executing m rest).finish 0 g = (report, i))
    (hfinal : m.isFinal = true) : ∃ n, (executing m rest).after .steady n = ended report i := by
  refine ended_of_step ?_
  dsimp only [finish, Machine.run] at h
  rw [Machine.proceed] at h
  rw [step, if_pos hfinal]
  cases hended : m.ended? with
  | none =>
    rw [hended] at h
    cases h
    exact ⟨0, rfl⟩
  | some j =>
    rw [hended] at h
    exact hnext j ((finish_next g j rest).trans h)

theorem ended_of_execution {m : Machine} {f : Nat} (h : (executing m rest).finish f g = (report, i))
    (hover : report.outcome ≠ .exhausted) : ∃ n, (executing m rest).after .steady n = ended report i := by
  induction f generalizing m with
  | zero =>
    by_cases hfinal : m.isFinal = true
    · exact ended_of_final hnext h hfinal
    · obtain ⟨hended, hstopped⟩ := Machine.exhausted_of_not_final (Bool.not_eq_true _ ▸ hfinal)
      dsimp only [finish, Machine.run] at h
      rw [Machine.proceed, hended, hstopped] at h
      cases h
      exact absurd rfl hover
  | succ f ih =>
    by_cases hfinal : m.isFinal = true
    · refine ended_of_final hnext ?_ hfinal
      dsimp only [finish] at h ⊢
      rwa [Machine.run_of_isFinal hfinal] at h
    · have hstep : (executing m rest).step = executing m.step rest := if_neg hfinal
      have hrun : m.run (f + 1) = m.step.run f := if_neg hfinal
      dsimp only [finish] at h
      rw [hrun] at h
      exact ended_of_step (hstep ▸ ih h)

end

theorem ended_of_statements {g : Nat} {rest : List Stmt} {j : Interpreter}
    (h : (next j rest).finish g g = (report, i)) (hover : report.outcome ≠ .exhausted) :
    ∃ n, (next j rest).after .steady n = ended report i := by
  induction rest generalizing j with
  | nil =>
    cases h
    exact ⟨0, rfl⟩
  | cons s rest ih => exact ended_of_execution (fun _ h' => ih h') h hover

end Course

namespace Session

variable {s : Session} {mode : Mode} {source : String} {report : Report} {i : Interpreter}

theorem finish_course (fuel : Nat) (s : Session) (mode : Mode) (source : String) :
    (s.course mode source).finish fuel fuel = (s.analyze mode source).1.carryOut fuel s.interpreter := by
  unfold course
  cases (s.analyze mode source).1 with
  | rejected diagnostics => rfl
  | program tree distances => exact Course.finish_next fuel _ tree
  | expression e distances =>
    unfold Analysis.carryOut
    dsimp only
    rw [runExpression_eq]
    rfl

theorem mode_course {mode' : Mode} (h : (s.course mode source).mode? = some mode') : mode' = mode := by
  unfold course at h
  cases mode with
  | program =>
    obtain ⟨diagnostics, hanalyze⟩ | ⟨tree, distances, -, -, hanalyze⟩ := analyze_program_cases s source
    · rw [hanalyze] at h
      cases h
    · rw [hanalyze] at h
      cases tree <;> cases h
      rfl
  | expression =>
    obtain ⟨diagnostics, hanalyze⟩ | ⟨e, distances, -, -, -, hanalyze⟩ := analyze_expression_cases s source
    · rw [hanalyze] at h
      cases h
    · rw [hanalyze] at h
      cases h
      rfl

theorem run_of_ended {n : Nat} (h : (s.course mode source).after .steady n = .ended report i) :
    ∃ least, ∀ fuel, least ≤ fuel →
      s.run fuel mode source = (report, ⟨i, (s.analyze mode source).2⟩) := by
  obtain ⟨least, hleast⟩ := Course.finish_of_ended h
  refine ⟨least, fun fuel hfuel => ?_⟩
  rw [run_eq, ← finish_course, hleast fuel fuel hfuel hfuel]

/-- With a sink that is left alone, the course of a run ends where the run ends, if that ends. -/
theorem ended_iff_run (hover : report.outcome ≠ .exhausted) :
    (∃ n, (s.course mode source).after .steady n = .ended report i) ↔
      ∃ fuel, s.run fuel mode source = (report, ⟨i, (s.analyze mode source).2⟩) := by
  constructor
  · rintro ⟨n, hn⟩
    obtain ⟨least, hleast⟩ := run_of_ended hn
    exact ⟨least, hleast least le_rfl⟩
  · rintro ⟨fuel, hfuel⟩
    rw [run_eq, ← finish_course] at hfuel
    have hfinish : (s.course mode source).finish fuel fuel = (report, i) := by
      obtain ⟨hreport, hsession⟩ := Prod.mk.inj hfuel
      exact Prod.ext hreport (Session.mk.inj hsession).1
    revert hfinish
    unfold course
    cases (s.analyze mode source).1 with
    | rejected diagnostics =>
      rintro ⟨⟩
      exact ⟨0, rfl⟩
    | program tree distances => exact fun h => Course.ended_of_statements h hover
    | expression e distances => exact fun h => Course.ended_of_evaluation h hover

/-- A failure at run time that is raised while a source is executed, however deep and with whatever writer,
ends the run with the status of an error at run time and one report. In an expression that is the report of this
failure. In a program it is, too, if the flush at the end succeeds, and otherwise that of the flush. -/
theorem report_of_failure (w : Writer) (s : Session) (mode : Mode) (source : String) (n : Nat) {line : Nat}
    {cause : RuntimeError} (h : ((s.course mode source).after w n).failure? = some (.runtime line cause)) :
    ∃ i : Interpreter,
      let report : Report :=
        ⟨.status .runtimeError, [(Course.leaving mode (.runtime line cause) i.sink).diagnostic]⟩
      (∃ last, ∀ k, last ≤ k → (s.course mode source).after w k = .ended report i) ∧
        (w = .steady → ∃ least, ∀ fuel, least ≤ fuel →
          s.run fuel mode source = (report, ⟨i, (s.analyze mode source).2⟩)) := by
  obtain ⟨mode', hmode, last, i, hlast⟩ := Course.ended_of_failure h
  cases mode_course hmode
  refine ⟨i, ⟨last, hlast⟩, ?_⟩
  rintro rfl
  exact run_of_ended (hlast last le_rfl)

/-- The failure comes out of a block while the sink refuses every other flush. -/
theorem report_of_failure_block :
    let s := Session.new {} ⟨fun _ => 0, 0, 0⟩
    let w : Writer := fun k sink => { sink with flushFails := k % 2 = 0 }
    ((s.course .program "{ nil(); }").after w 6).failure? = some (.runtime 1 .notCallable) ∧
      ∃ i : Interpreter, ∃ last, ∀ k, last ≤ k → (s.course .program "{ nil(); }").after w k =
        .ended ⟨.status .runtimeError,
          [(Course.leaving .program (.runtime 1 .notCallable) i.sink).diagnostic]⟩ i := by
  intro s w
  have hraised : ((s.course .program "{ nil(); }").after w 6).failure? = some (.runtime 1 .notCallable) := by
    decide +kernel
  obtain ⟨i, hended, -⟩ := report_of_failure w s .program "{ nil(); }" 6 hraised
  exact ⟨hraised, i, hended⟩

/-- One and the same failure is reported by an expression, and not by a program. -/
theorem run_refusing_flush :
    let s := Session.new { flushFails := true } ⟨fun _ => 0, 0, 0⟩
    ((s.course .program "nil();").after .steady 4).failure? = some (.runtime 1 .notCallable) ∧
      (s.run 9 .program "nil();").1 = ⟨.status .runtimeError, [.output .flush]⟩ ∧
      (s.run 9 .expression "nil()").1 = ⟨.status .runtimeError, [.runtime 1 .notCallable]⟩ := by
  decide +kernel

end Session
end Lox
