import Lox.Proofs.Output.Truncation
import Lox.Proofs.Splicing.Analysis

/-!
# Runs on a full sink

A run on a sink that takes only so many bytes writes the beginning of what it writes otherwise. If that is
all, it ends in the same way. If not, it fails, and nothing is done after the write that did not fit.
-/
namespace Lox

open Machine (BreaksOff)

/-- With a limit there is the same result as without one, after the same states. -/
structure Agrees (cap : Nat) (states states' : List Machine) (r r' : Ending × Interpreter) : Prop where
  within : r.2.sink.Within cap
  ending : r'.1 = r.1
  state : r'.2 = r.2.unlimited
  states : states' = states.map Machine.unlimited

/-- With a limit nothing has been done after the first write that did not fit. -/
structure Truncates (cap : Nat) (states states' : List Machine) (r r' : Ending × Interpreter) : Prop where
  failed : ∃ failure, r.1 = .failed failure ∧ failure.Tells .full
  cut : r.2.sink.Cut cap r'.2.sink
  states : BreaksOff states states' r.2.sink.written

namespace Machine

variable {states states' : List Machine} {written : ByteArray} {m : Machine}

theorem BreaksOff.further (h : BreaksOff states states' written) (later : List Machine) :
    BreaksOff states (states' ++ later) written := by
  obtain ⟨before, after, hsplit, hprefix, hafter⟩ := h
  exact ⟨before, after, hsplit, hprefix.trans (List.prefix_append _ _), hafter⟩

theorem BreaksOff.behind (h : BreaksOff states states' written) (earlier : List Machine) :
    BreaksOff (earlier ++ states) (earlier.map unlimited ++ states') written := by
  obtain ⟨before, after, rfl, hprefix, hafter⟩ := h
  refine ⟨earlier ++ before, after, (List.append_assoc _ _ _).symm, ?_, hafter⟩
  rw [List.map_append]
  exact (List.prefix_append_right_inj _).2 hprefix

/-- The interpreter that goes on with the next statement, if this machine has come to the end of one. -/
def ended? : Machine → Option Interpreter
  | ⟨.done, [], i⟩ => some i.settle
  | ⟨.yield v, [], i⟩ | ⟨.returning v, [], i⟩ => some (i.discard v).settle
  | _ => none

/-- What a program ends with that goes no further. -/
def stopped : Machine → Ending × Interpreter
  | ⟨.failed failure, [], i⟩ => i.abort failure
  | ⟨.crashed, _, i⟩ => (.crashed, i)
  | ⟨_, _, i⟩ => (.exhausted, i)

/-- Goes on with some statements. -/
def proceed (fuel : Nat) (m : Machine) (rest : List Stmt) : Ending × Interpreter :=
  match m.ended? with
  | some i => i.interpret fuel rest
  | none => m.stopped

/-- The states of the statements that are gone on with. -/
def further (fuel : Nat) (m : Machine) (rest : List Stmt) : List Machine :=
  match m.ended? with
  | some i => i.history fuel rest
  | none => []

end Machine

namespace Interpreter

variable {cap f g : Nat} {i : Interpreter}

theorem interpret_cons (fuel : Nat) (i : Interpreter) (s : Stmt) (rest : List Stmt) :
    i.interpret fuel (s :: rest) = (Machine.run fuel ⟨.exec s, [], i⟩).proceed fuel rest := by
  rw [interpret]
  rcases Machine.run fuel ⟨.exec s, [], i⟩ with ⟨control, _ | ⟨k, stack⟩, j⟩ <;> cases control <;> rfl

theorem history_cons (fuel : Nat) (i : Interpreter) (s : Stmt) (rest : List Stmt) :
    i.history fuel (s :: rest) = Machine.history fuel ⟨.exec s, [], i⟩ ++
      (Machine.run fuel ⟨.exec s, [], i⟩).further fuel rest := by
  rw [history]
  rcases Machine.run fuel ⟨.exec s, [], i⟩ with ⟨control, _ | ⟨k, stack⟩, j⟩ <;> cases control <;> rfl

/-! ## Upkeep does not touch the sink -/

theorem settle_withSink (i : Interpreter) (sink : Sink) : (i.withSink sink).settle = i.settle.withSink sink := by
  have hdrain : (i.withSink sink).drain = i.drain.withSink sink := rfl
  unfold settle
  rw [hdrain]
  dsimp only
  rw [store_withSink]
  split <;> rfl

theorem sink_settle (i : Interpreter) : i.settle.sink = i.sink := by
  have h := settle_withSink i i.sink
  rw [withSink_sink] at h
  rw [h]
  rfl

theorem abort_eq (hflush : i.sink.flushFails = false) (failure : Failure) :
    i.abort failure = (.failed failure, ({ i with active := .globals } : Interpreter).drain) := by
  have hnone : ({ i with active := .globals } : Interpreter).drain.sink.flush = none := by
    change i.sink.flush = none
    rw [Sink.flush, hflush]
    rfl
  unfold abort
  dsimp only
  rw [hnone]

end Interpreter

open Interpreter (interpret_cons history_cons settle_withSink sink_settle abort_eq)

namespace Machine

variable {cap f g : Nat} {m : Machine}

theorem sink_ended? {i : Interpreter} (h : m.ended? = some i) : i.sink = m.state.sink := by
  obtain ⟨control, _ | ⟨k, stack⟩, j⟩ := m
  · cases control with
    | done | yield v | returning v =>
      cases h
      exact sink_settle _
    | _ => cases h
  · cases control <;> cases h

theorem ended?_unlimited (m : Machine) : m.unlimited.ended? = m.ended?.map Interpreter.unlimited := by
  obtain ⟨control, _ | ⟨k, stack⟩, i⟩ := m
  · cases control with
    | done =>
      change some (i.withSink _).settle = some (i.settle.withSink i.settle.sink.unlimited)
      rw [settle_withSink, sink_settle]
    | yield v | returning v =>
      change some ((i.discard v).withSink _).settle =
        some ((i.discard v).settle.withSink (i.discard v).settle.sink.unlimited)
      rw [settle_withSink, sink_settle]
      rfl
    | _ => rfl
  · cases control <;> rfl

theorem exhausted_of_not_final (h : m.isFinal = false) :
    m.ended? = none ∧ m.stopped = (.exhausted, m.state) := by
  obtain ⟨control, _ | ⟨k, stack⟩, i⟩ := m
  · cases control <;> first | exact ⟨rfl, rfl⟩ | cases h
  · cases control <;> first | exact ⟨rfl, rfl⟩ | cases h

theorem sink_stopped (m : Machine) : m.stopped.2.sink = m.state.sink := by
  obtain ⟨control, _ | ⟨k, stack⟩, i⟩ := m
  · cases control with
    | failed failure =>
      change (i.abort failure).2.sink = i.sink
      unfold Interpreter.abort
      dsimp only
      split <;> rfl
    | _ => rfl
  · cases control <;> rfl

theorem stopped_unlimited (h : m.state.sink.flushFails = false) :
    m.unlimited.stopped = (m.stopped.1, m.stopped.2.unlimited) := by
  obtain ⟨control, _ | ⟨k, stack⟩, i⟩ := m
  · cases control with
    | failed failure =>
      change i.unlimited.abort failure = ((i.abort failure).1, (i.abort failure).2.unlimited)
      rw [abort_eq h, abort_eq (i := i.unlimited) h]
      rfl
    | _ => rfl
  · cases control <;> rfl

end Machine

/-! ## Programs -/

theorem Sink.flush_eq_none {sink : Sink} (h : sink.flushFails = false) : sink.flush = none := by
  unfold flush
  rw [h]
  rfl

theorem Interpreter.interpret_nil {i : Interpreter} (hflush : i.sink.flushFails = false) (fuel : Nat) :
    i.interpret fuel [] = (.completed, i) := by
  rw [interpret, Sink.flush_eq_none hflush]

variable {cap f g : Nat}

/-- Nothing that has been written is lost when a program is executed. -/
theorem extends_interpret {i : Interpreter} (fuel : Nat) (program : List Stmt) (h : i.sink.Open) :
    (i.interpret fuel program).2.sink.Open ∧ i.sink.Extends (i.interpret fuel program).2.sink := by
  induction program generalizing i with
  | nil =>
    rw [Interpreter.interpret_nil h.flush]
    exact ⟨h, .refl _⟩
  | cons s rest ih =>
    obtain ⟨hopen, hrun⟩ := Machine.extends_run (m := ⟨.exec s, [], i⟩) fuel h
    rw [interpret_cons]
    generalize Machine.run fuel ⟨.exec s, [], i⟩ = m at hopen hrun
    unfold Machine.proceed
    cases hended : m.ended? with
    | none =>
      dsimp only
      rw [m.sink_stopped]
      exact ⟨hopen, hrun⟩
    | some j =>
      rw [← Machine.sink_ended? hended] at hopen hrun
      obtain ⟨hlast, hrest⟩ := ih hopen
      exact ⟨hlast, hrun.trans hrest⟩

theorem extends_proceed {m : Machine} (fuel : Nat) (rest : List Stmt) (h : m.state.sink.Open) :
    (m.proceed fuel rest).2.sink.Open ∧ m.state.sink.Extends (m.proceed fuel rest).2.sink := by
  unfold Machine.proceed
  cases hended : m.ended? with
  | none =>
    dsimp only
    rw [m.sink_stopped]
    exact ⟨h, .refl _⟩
  | some j =>
    rw [← Machine.sink_ended? hended] at h ⊢
    exact extends_interpret fuel rest h

/-- A machine that is stuck is not gone on with, and whatever the other one does then, it does not lose
what has been written. -/
theorem Machine.Stuck.truncates {m u : Machine} {states states' : List Machine} (h : Stuck cap m u)
    (hfinal : m.isFinal = true) (hstates : BreaksOff states states' m.state.sink.written) (rest : List Stmt) :
    Truncates cap (states ++ m.further f rest) (states' ++ u.further g rest) (m.proceed f rest)
      (u.proceed g rest) := by
  obtain ⟨hopen, hextends⟩ := extends_proceed g rest h.cut.full
  obtain ⟨failure, hfailed, htells⟩ := h.failed
  have hcut := h.cut
  obtain ⟨control, stack, i⟩ := m
  cases hfailed
  cases stack with
  | cons k stack => cases hfinal
  | nil =>
    have hproceed : Machine.proceed f ⟨.failed failure, [], i⟩ rest = (.failed failure, _) :=
      abort_eq hcut.flush failure
    have hfurther : Machine.further f ⟨.failed failure, [], i⟩ rest = [] := rfl
    rw [hproceed, hfurther, List.append_nil]
    exact ⟨⟨failure, rfl, htells⟩, hcut.extends hextends hopen, hstates.further _⟩

theorem interpret_limited {i : Interpreter} {program : List Stmt} (h : i.sink.Within cap) (hg : f ≤ g)
    (hover : (i.interpret f program).1 ≠ .exhausted) :
    Agrees cap (i.history f program) (i.unlimited.history g program) (i.interpret f program)
        (i.unlimited.interpret g program) ∨
      Truncates cap (i.history f program) (i.unlimited.history g program) (i.interpret f program)
        (i.unlimited.interpret g program) := by
  induction program generalizing i with
  | nil =>
    rw [Interpreter.interpret_nil h.flush, Interpreter.interpret_nil (i := i.unlimited) h.flush]
    exact .inl ⟨h, rfl, rfl, rfl⟩
  | cons s rest ih =>
    rw [interpret_cons] at hover
    rw [interpret_cons, interpret_cons, history_cons, history_cons]
    have hfinal : (Machine.run f ⟨.exec s, [], i⟩).isFinal = true := by
      by_contra hnot
      obtain ⟨hended, hexhausted⟩ := Machine.exhausted_of_not_final (Bool.not_eq_true _ ▸ hnot)
      rw [Machine.proceed, hended] at hover
      exact hover (congrArg Prod.fst hexhausted)
    obtain ⟨hwithin, hrun, hhistory⟩ | ⟨hstuck, hbreaks⟩ :=
      Machine.run_within (m := ⟨.exec s, [], i⟩) h hg hfinal
    · change Machine.run g ⟨.exec s, [], i.unlimited⟩ = _ at hrun
      change Machine.history g ⟨.exec s, [], i.unlimited⟩ = _ at hhistory
      rw [hrun, hhistory]
      generalize Machine.run f ⟨.exec s, [], i⟩ = m at hover hwithin ⊢
      unfold Machine.proceed Machine.further at *
      rw [Machine.ended?_unlimited]
      cases hended : m.ended? with
      | none =>
        simp only [Option.map_none, List.append_nil]
        rw [Machine.stopped_unlimited hwithin.flush]
        refine .inl ⟨?_, rfl, rfl, rfl⟩
        rwa [Machine.sink_stopped]
      | some j =>
        rw [hended] at hover
        rw [← Machine.sink_ended? hended] at hwithin
        simp only [Option.map_some]
        obtain hagrees | htruncates := ih hwithin hover
        · left
          refine ⟨hagrees.within, hagrees.ending, hagrees.state, ?_⟩
          rw [List.map_append, ← hagrees.states]
        · right
          exact ⟨htruncates.failed, htruncates.cut, htruncates.states.behind _⟩
    · exact .inr (hstuck.truncates hfinal hbreaks rest)

/-! ## Expressions -/

theorem Interpreter.writeLine_withSink (i : Interpreter) (sink : Sink) (v : Value) :
    (i.withSink sink).writeLine v =
      ((sink.write (i.store.display v ++ "\n")).1, i.withSink (sink.write (i.store.display v ++ "\n")).2) :=
  rfl

theorem extends_printResult {i : Interpreter} (h : i.sink.Open) (v : Value) :
    (Session.printResult i v).2.sink.Open ∧ i.sink.Extends (Session.printResult i v).2.sink := by
  have hwrite := Interpreter.writeLine_withSink i i.sink v
  rw [Interpreter.withSink_sink, h.write] at hwrite
  have hopen : ({ i.sink with written := i.sink.written ++ (i.store.display v ++ "\n").toUTF8 } : Sink).Open :=
    ⟨h.room, h.flush⟩
  have hflush := Sink.flush_eq_none hopen.flush
  unfold Session.printResult
  rw [hwrite]
  dsimp only
  rw [Interpreter.sink_withSink, hflush]
  exact ⟨hopen, _, rfl⟩

theorem printResult_limited {i : Interpreter} (h : i.sink.Within cap) (states : List Machine) (v : Value) :
    Agrees cap states (states.map Machine.unlimited) (Session.printResult i v)
        (Session.printResult i.unlimited v) ∨
      Truncates cap states (states.map Machine.unlimited) (Session.printResult i v)
        (Session.printResult i.unlimited v) := by
  have hlimited := Interpreter.writeLine_withSink i i.sink v
  have hunlimited := Interpreter.writeLine_withSink i i.sink.unlimited v
  rw [Interpreter.withSink_sink] at hlimited
  unfold Session.printResult Interpreter.unlimited
  obtain ⟨sink, hsink, hwrite, hwrite'⟩ | ⟨sink, full, hcut, hwrite, hwrite'⟩ :=
    h.write (i.store.display v ++ "\n")
  · rw [hwrite] at hlimited
    rw [hwrite'] at hunlimited
    have hflush := Sink.flush_eq_none hsink.flush
    have hflush' := Sink.flush_eq_none hsink.unlimited.flush
    rw [hlimited, hunlimited]
    dsimp only
    rw [Interpreter.sink_withSink, Interpreter.sink_withSink, hflush, hflush']
    exact .inl ⟨hsink, rfl, rfl, rfl⟩
  · rw [hwrite] at hlimited
    rw [hwrite'] at hunlimited
    have hflush := Sink.flush_eq_none hcut.full.flush
    rw [hlimited, hunlimited]
    dsimp only
    rw [Interpreter.sink_withSink, hflush]
    refine .inr ⟨⟨_, rfl, .inl rfl⟩, hcut, states, [], (List.append_nil _).symm, List.prefix_rfl, nofun⟩

namespace Machine

variable {m : Machine}

/-- What the run of an expression ends with. -/
def concluded : Machine → Ending × Interpreter
  | ⟨.yield v, [], i⟩ => Session.printResult ({ i with active := .globals } : Interpreter).settle v
  | ⟨.failed failure, [], i⟩ => (.failed failure, ({ i with active := .globals } : Interpreter).settle)
  | ⟨.crashed, _, i⟩ => (.crashed, i)
  | ⟨_, _, i⟩ => (.exhausted, i)

theorem concluded_of_not_final (h : m.isFinal = false) : m.concluded = (.exhausted, m.state) := by
  obtain ⟨control, _ | ⟨k, stack⟩, i⟩ := m
  · cases control <;> first | rfl | cases h
  · cases control <;> first | rfl | cases h

theorem extends_concluded (h : m.state.sink.Open) :
    m.concluded.2.sink.Open ∧ m.state.sink.Extends m.concluded.2.sink := by
  obtain ⟨control, _ | ⟨k, stack⟩, i⟩ := m
  · have hsettle : ({ i with active := .globals } : Interpreter).settle.sink = i.sink := sink_settle _
    have hopen : i.sink.Open := h
    rw [← hsettle] at hopen
    cases control with
    | yield v =>
      have hprint := extends_printResult hopen v
      rwa [hsettle] at hprint
    | failed failure => exact ⟨hopen, .empty, by rw [ByteArray.append_empty]; exact congrArg _ hsettle⟩
    | _ => exact ⟨h, .refl _⟩
  · cases control <;> exact ⟨h, .refl _⟩

theorem concluded_limited (h : m.state.sink.Within cap) (states : List Machine) :
    Agrees cap states (states.map unlimited) m.concluded m.unlimited.concluded ∨
      Truncates cap states (states.map unlimited) m.concluded m.unlimited.concluded := by
  obtain ⟨control, _ | ⟨k, stack⟩, i⟩ := m
  · have hsettle : ({ i with active := .globals } : Interpreter).settle.sink = i.sink := sink_settle _
    have hunlimited : ({ i.unlimited with active := .globals } : Interpreter).settle =
        ({ i with active := .globals } : Interpreter).settle.unlimited := by
      refine (settle_withSink { i with active := .globals } i.sink.unlimited).trans ?_
      rw [Interpreter.unlimited, hsettle]
    have hwithin : i.sink.Within cap := h
    rw [← hsettle] at hwithin
    cases control with
    | yield v =>
      have hprint := printResult_limited hwithin states v
      rwa [← hunlimited] at hprint
    | failed failure => exact .inl ⟨hwithin, rfl, hunlimited, rfl⟩
    | _ => exact .inl ⟨h, rfl, rfl, rfl⟩
  · cases control <;> exact .inl ⟨h, rfl, rfl, rfl⟩

theorem Stuck.truncates_concluded {m u : Machine} {states states' : List Machine} (h : Stuck cap m u)
    (hfinal : m.isFinal = true) (hstates : BreaksOff states states' m.state.sink.written) :
    Truncates cap states states' m.concluded u.concluded := by
  obtain ⟨hopen, hextends⟩ := extends_concluded h.cut.full
  obtain ⟨failure, hfailed, htells⟩ := h.failed
  have hcut := h.cut.extends hextends hopen
  obtain ⟨control, stack, i⟩ := m
  cases hfailed
  cases stack with
  | cons k stack => cases hfinal
  | nil =>
    have hsettle : (Machine.concluded ⟨.failed failure, [], i⟩).2.sink = i.sink := sink_settle _
    refine ⟨⟨failure, rfl, htells⟩, ?_, ?_⟩
    · rwa [hsettle]
    · rwa [hsettle]

end Machine

theorem runExpression_eq (fuel : Nat) (i : Interpreter) (e : Expr) :
    Session.runExpression fuel i e = (Machine.run fuel ⟨.eval e, [], i⟩).concluded := by
  unfold Session.runExpression Interpreter.interpretExpression
  rcases Machine.run fuel ⟨.eval e, [], i⟩ with ⟨control, _ | ⟨k, stack⟩, j⟩ <;> cases control <;> rfl

theorem extends_runExpression {i : Interpreter} (fuel : Nat) (e : Expr) (h : i.sink.Open) :
    (Session.runExpression fuel i e).2.sink.Open ∧
      i.sink.Extends (Session.runExpression fuel i e).2.sink := by
  obtain ⟨hopen, hrun⟩ := Machine.extends_run (m := ⟨.eval e, [], i⟩) fuel h
  obtain ⟨hlast, hrest⟩ := Machine.extends_concluded hopen
  rw [runExpression_eq]
  exact ⟨hlast, hrun.trans hrest⟩

theorem runExpression_limited {i : Interpreter} {e : Expr} (h : i.sink.Within cap) (hg : f ≤ g)
    (hover : (Session.runExpression f i e).1 ≠ .exhausted) :
    let states := Machine.history f ⟨.eval e, [], i⟩
    let states' := Machine.history g ⟨.eval e, [], i.unlimited⟩
    Agrees cap states states' (Session.runExpression f i e) (Session.runExpression g i.unlimited e) ∨
      Truncates cap states states' (Session.runExpression f i e)
        (Session.runExpression g i.unlimited e) := by
  intro states states'
  rw [runExpression_eq] at hover
  rw [runExpression_eq, runExpression_eq]
  have hfinal : (Machine.run f ⟨.eval e, [], i⟩).isFinal = true := by
    by_contra hnot
    exact hover (congrArg Prod.fst (Machine.concluded_of_not_final (Bool.not_eq_true _ ▸ hnot)))
  obtain ⟨hwithin, hrun, hhistory⟩ | ⟨hstuck, hbreaks⟩ :=
    Machine.run_within (m := ⟨.eval e, [], i⟩) h hg hfinal
  · change Machine.run g ⟨.eval e, [], i.unlimited⟩ = _ at hrun
    change states' = _ at hhistory
    rw [hrun, hhistory]
    exact Machine.concluded_limited hwithin states
  · exact .inr (hstuck.truncates_concluded hfinal hbreaks)

/-! ## Sessions -/

namespace Session

/-- The session with a sink that takes so many bytes more. -/
def withRoom (s : Session) (room : Option Nat) : Session :=
  ⟨s.interpreter.withSink { s.interpreter.sink with room := room }, s.nextId⟩

/-- What has been written is the beginning of what is written without a limit, and how much that is tells
whether anything has been cut off. -/
theorem cut_off {w : ByteArray} {n : Nat} {states states' : List Machine} {r r' : Ending × Interpreter}
    (hextends : ∃ out, r'.2.sink.written = w ++ out)
    (h : Agrees (w.size + n) states states' r r' ∨ Truncates (w.size + n) states states' r r') (next : Nat) :
    ∃ out, r'.2.sink.written = w ++ out ∧ r.2.sink.written = w ++ out.extract 0 n ∧
      (out.size ≤ n → Report.ofEnding r.1 = Report.ofEnding r'.1 ∧
        (⟨r.2, next⟩ : Session).withRoom none = ⟨r'.2, next⟩) ∧
      (n < out.size → ∃ failure : Failure, failure.Tells .full ∧
        Report.ofEnding r.1 = ⟨.status .runtimeError, [failure.diagnostic]⟩ ∧
        BreaksOff states states' r.2.sink.written) := by
  obtain ⟨out, hout⟩ := hextends
  refine ⟨out, hout, ?_⟩
  obtain hagrees | htruncates := h
  · obtain ⟨room, -, hsize⟩ := hagrees.within.room
    have hsame : r.2.sink.written = w ++ out := by
      rw [← hout, hagrees.state]
      rfl
    rw [hsame, ByteArray.size_append] at hsize
    have hle : out.size ≤ n := by omega
    rw [hsame, extract_of_size_le hle, hagrees.ending, hagrees.state]
    exact ⟨rfl, fun _ => ⟨rfl, rfl⟩, fun hlt => absurd hle (Nat.not_le.2 hlt)⟩
  · have hcut := htruncates.cut
    obtain ⟨failure, hfailed, htells⟩ := htruncates.failed
    have hsize := hcut.size
    rw [hout, ByteArray.size_append] at hsize
    have hlt : n < out.size := by omega
    rw [hcut.written, hout, extract_append_add, hfailed]
    refine ⟨rfl, fun hle => absurd hle (Nat.not_le.2 hlt), fun _ => ⟨failure, htells, rfl, ?_⟩⟩
    rw [← extract_append_add, ← hout, ← hcut.written]
    exact htruncates.states

/-- Output that does not fit is cut off, and that is all that a full sink does. A run that ends on a sink
that takes `n` bytes more has written the first `n` bytes of what it writes on one without a limit, however
long that goes on. If there are no more, it reports the same and leaves the same session. If there are, it
reports one error, and after the write that did not fit there was nothing but the failure. -/
theorem run_limited (s : Session) (hflush : s.interpreter.sink.flushFails = false) (n : Nat) (mode : Mode)
    (source : String) (hg : f ≤ g)
    (hover : ((s.withRoom (some n)).run f mode source).1.outcome ≠ .exhausted) :
    let limited := (s.withRoom (some n)).run f mode source
    let unlimited := (s.withRoom none).run g mode source
    ∃ out, unlimited.2.interpreter.sink.written = s.interpreter.sink.written ++ out ∧
      limited.2.interpreter.sink.written = s.interpreter.sink.written ++ out.extract 0 n ∧
      (out.size ≤ n → limited.1 = unlimited.1 ∧ limited.2.withRoom none = unlimited.2) ∧
      (n < out.size → ∃ failure : Failure, failure.Tells .full ∧
        limited.1 = ⟨.status .runtimeError, [failure.diagnostic]⟩ ∧
        BreaksOff ((s.withRoom (some n)).states f mode source) ((s.withRoom none).states g mode source)
          limited.2.interpreter.sink.written) := by
  intro limited unlimited
  have hanalyze : ∀ room, (s.withRoom room).analyze mode source = s.analyze mode source := fun _ => rfl
  have hlimited : limited = _ := run_eq f (s.withRoom (some n)) mode source
  have hunlimited : unlimited = _ := run_eq g (s.withRoom none) mode source
  rw [run_eq, hanalyze] at hover
  rw [hlimited, hunlimited, states_eq, states_eq, hanalyze, hanalyze]
  have hwithin : ∀ d, ((s.withRoom (some n)).interpreter.learn d).sink.Within
      (s.interpreter.sink.written.size + n) := fun _ => ⟨⟨n, rfl, rfl⟩, hflush⟩
  have hopen : ∀ d, ((s.withRoom none).interpreter.learn d).sink.Open := fun _ => ⟨rfl, hflush⟩
  cases h : (s.analyze mode source).1 with
  | rejected diagnostics =>
    refine ⟨.empty, ByteArray.append_empty.symm, ?_, fun _ => ⟨rfl, rfl⟩, fun hlt => absurd hlt n.not_lt_zero⟩
    have hempty : ByteArray.empty.extract 0 n = .empty := extract_of_size_le n.zero_le
    rw [hempty, ByteArray.append_empty]
    rfl
  | program tree d =>
    rw [h] at hover
    have hend : (((s.withRoom (some n)).interpreter.learn d).interpret f tree).1 ≠ .exhausted :=
      fun hending => hover (congrArg (fun e => (Report.ofEnding e).outcome) hending)
    exact cut_off (extends_interpret g tree (hopen d)).2 (interpret_limited (hwithin d) hg hend) _
  | expression e d =>
    rw [h] at hover
    have hend : (runExpression f ((s.withRoom (some n)).interpreter.learn d) e).1 ≠ .exhausted :=
      fun hending => hover (congrArg (fun e => (Report.ofEnding e).outcome) hending)
    exact cut_off (extends_runExpression g e (hopen d)).2 (runExpression_limited (hwithin d) hg hend) _

/-- The second statement is not executed. -/
theorem run_limited_print :
    let s := Session.new {} ⟨fun _ => 0, 0, 0⟩
    let limited := (s.withRoom (some 2)).run 9 .program "print true; print nil;"
    let unlimited := (s.withRoom none).run 9 .program "print true; print nil;"
    unlimited.1 = ⟨.status .ok, []⟩ ∧ ∃ failure : Failure, failure.Tells .full ∧
      limited.1 = ⟨.status .runtimeError, [failure.diagnostic]⟩ ∧
      limited.2.interpreter.sink.written = unlimited.2.interpreter.sink.written.extract 0 2 := by
  intro s limited unlimited
  have hlimited : limited.1.outcome = .status .runtimeError := by decide +kernel
  have hunlimited : unlimited.1 = ⟨.status .ok, []⟩ := by decide +kernel
  have hsize : unlimited.2.interpreter.sink.written.size = 9 := by decide +kernel
  have hover : limited.1.outcome ≠ .exhausted := by
    rw [hlimited]
    decide
  obtain ⟨out, hout, hcut, -, hfailed⟩ :=
    run_limited s rfl 2 .program "print true; print nil;" (Nat.le_refl 9) hover
  have hempty : s.interpreter.sink.written = .empty := rfl
  rw [hempty, ByteArray.empty_append] at hout hcut
  have hlong : 2 < out.size := by
    rw [← hout, hsize]
    decide
  obtain ⟨failure, htells, hreport, -⟩ := hfailed hlong
  exact ⟨hunlimited, failure, htells, hreport, hcut.trans (by rw [hout])⟩

end Session
end Lox
