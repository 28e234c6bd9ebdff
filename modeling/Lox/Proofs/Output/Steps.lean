import Lox.Proofs.Failures

/-!
# What a step writes

A step writes one text or none. If it writes none, the sink makes no difference to it. If it writes one,
it depends on the sink only in whether the text has been written or not, and fails in the second case.
-/
namespace Lox

namespace Interpreter

variable (i : Interpreter) (sink : Sink)

def withSink : Interpreter := { i with sink := sink }

@[simp] theorem sink_withSink : (i.withSink sink).sink = sink := rfl

@[simp] theorem store_withSink : (i.withSink sink).store = i.store := rfl

@[simp] theorem active_withSink : (i.withSink sink).active = i.active := rfl

@[simp] theorem distances_withSink : (i.withSink sink).distances = i.distances := rfl

@[simp] theorem clock_withSink : (i.withSink sink).clock = i.clock := rfl

@[simp] theorem withSink_sink : i.withSink i.sink = i := rfl

theorem lookup?_withSink (ref : Reference) : (i.withSink sink).lookup? ref = i.lookup? ref := rfl

theorem assign_withSink (ref : Reference) (v : Value) :
    (i.withSink sink).assign ref v = ((i.assign ref v).1, (i.assign ref v).2.withSink sink) := by
  unfold assign
  rw [distances_withSink]
  cases i.distances[ref.id]? <;> rfl

theorem property_withSink (v : Value) (name : String) :
    (i.withSink sink).property v name = ((i.property v name).1, (i.property v name).2.withSink sink) := by
  unfold property
  simp only [store_withSink]
  repeat' split
  all_goals rfl

theorem superMethod_withSink (ref : Reference) (name : String) :
    (i.withSink sink).superMethod ref name =
      ((i.superMethod ref name).1, (i.superMethod ref name).2.withSink sink) := by
  unfold superMethod
  simp only [store_withSink, distances_withSink, active_withSink]
  repeat' split
  all_goals rfl

theorem callNative_withSink {n : Native} (hn : n ≠ .clear) (arguments : List Value) :
    (i.withSink sink).callNative n arguments =
      ((i.callNative n arguments).1, (i.callNative n arguments).2.withSink sink) := by
  unfold callNative
  simp only [store_withSink, clock_withSink]
  repeat' split
  all_goals first | rfl | simp_all

theorem closeOverMethods_withSink (table : Bindings Function) (methods : List FunctionDecl) :
    (i.withSink sink).closeOverMethods table methods =
      ((i.closeOverMethods table methods).1, (i.closeOverMethods table methods).2.withSink sink) := by
  induction methods generalizing i table with
  | nil => rfl
  | cons decl rest ih => exact ih (i.closeOver decl (decl.name.text = initializerName)).2 _

theorem closeOverDerived_withSink (parent : Class) (methods : List FunctionDecl) :
    (i.withSink sink).closeOverDerived parent methods =
      ((i.closeOverDerived parent methods).1, (i.closeOverDerived parent methods).2.withSink sink) := by
  have hinner : ((i.withSink sink).enter (i.withSink sink).active).define "super" (.classObject parent) =
      ((i.enter i.active).define "super" (.classObject parent)).withSink sink := rfl
  unfold closeOverDerived
  dsimp only
  rw [hinner, closeOverMethods_withSink]
  rfl

theorem declareClass_withSink (name : String) (superclass : Option Class) (methods : List FunctionDecl) :
    (i.withSink sink).declareClass name superclass methods =
      (i.declareClass name superclass methods).withSink sink := by
  have hname : (i.withSink sink).define name .nil = (i.define name .nil).withSink sink := rfl
  unfold declareClass
  rw [hname]
  cases superclass with
  | none =>
    simp only [closeOverMethods_withSink]
    rfl
  | some parent =>
    simp only [closeOverDerived_withSink]
    rfl

theorem foldl_define_withSink (bound : List (Ident × Value)) (i : Interpreter) :
    bound.foldl (fun i (p, v) => i.define p.text v) (i.withSink sink) =
      (bound.foldl (fun i (p, v) => i.define p.text v) i).withSink sink := by
  induction bound generalizing i with
  | nil => rfl
  | cons entry rest ih => exact ih (i.define entry.1.text entry.2)

end Interpreter

namespace Machine

variable (m : Machine) (sink : Sink)

def withSink : Machine := { m with state := m.state.withSink sink }

/-- The text that the next step writes. -/
def output? : Machine → Option String
  | ⟨.yield v, .print :: _, i⟩ => some (i.store.display v ++ "\n")
  | m =>
    match m.call? with
    | some (.native .clear, []) => some Interpreter.clearSequence
    | _ => none

theorem not_clear_of_output? {m : Machine} (h : m.output? = none) {callee : Value} {arguments : List Value}
    (hcall : m.call? = some (callee, arguments)) : callee ≠ .native .clear ∨ arguments ≠ [] := by
  unfold output? at h
  split at h
  · cases h
  · rw [hcall] at h
    by_cases hcallee : callee = .native .clear
    · subst hcallee
      right
      rintro rfl
      cases h
    · exact .inl hcallee

section

variable (stack : List Cont) (i : Interpreter)

theorem callFunction_withSink (line : Nat) (f : Function) (arguments : List Value) :
    callFunction line f arguments stack (i.withSink sink) =
      (callFunction line f arguments stack i).withSink sink := by
  have henter : (i.withSink sink).enter f.closure = (i.enter f.closure).withSink sink := rfl
  unfold callFunction
  simp only [Interpreter.store_withSink, henter, Interpreter.foldl_define_withSink]
  split <;> rfl

theorem instantiate_withSink (line : Nat) (c : Class) (arguments : List Value) :
    instantiate line c arguments stack (i.withSink sink) =
      (instantiate line c arguments stack i).withSink sink := by
  unfold instantiate
  rw [Interpreter.store_withSink]
  rcases i.store.allocate (.instance c Bindings.empty) with ⟨id, store⟩
  dsimp only
  cases c.findMethod? initializerName with
  | none => rfl
  | some method =>
    dsimp only
    exact callFunction_withSink sink _ { i with store := (store.bind method (.instance id)).2 } _ _ _

theorem call_withSink (line : Nat) {callee : Value} {arguments : List Value}
    (h : callee ≠ .native .clear ∨ arguments ≠ []) :
    call line callee arguments stack (i.withSink sink) =
      (call line callee arguments stack i).withSink sink := by
  unfold call
  split
  · rfl
  · split
    · next harity arity hsome hlength =>
      cases callee with
      | native n =>
        have hn : n ≠ .clear := by
          rintro rfl
          have hnone := List.length_eq_zero_iff.1 (hlength.trans (Option.some.inj hsome).symm)
          exact h.elim (absurd rfl) (absurd hnone)
        simp only [Interpreter.callNative_withSink i sink hn]
        rcases i.callNative n arguments with ⟨_ | _ | _, j⟩ <;> rfl
      | function f => exact callFunction_withSink sink stack i line f arguments
      | classObject c => exact instantiate_withSink sink stack i line c arguments
      | arrayMethod id method =>
        dsimp only
        unfold callArrayMethod
        split <;> rfl
      | _ => rfl
    · rfl

theorem evalStep_withSink (e : Expr) :
    evalStep e stack (i.withSink sink) = (evalStep e stack i).withSink sink := by
  cases e with
  | «variable» ref | this ref =>
    simp only [evalStep, Interpreter.lookup?_withSink]
    split <;> rfl
  | super ref method =>
    simp only [evalStep, Interpreter.superMethod_withSink]
    rcases i.superMethod ref method.text with ⟨cause | v, j⟩
    · cases cause <;> rfl
    · rfl
  | _ => rfl

theorem execStep_withSink (s : Stmt) :
    execStep s stack (i.withSink sink) = (execStep s stack i).withSink sink := by
  cases s with
  | var name initializer => cases initializer <;> rfl
  | ret line value => cases value <;> rfl
  | classDecl name superclass methods =>
    cases superclass with
    | none => exact congrArg (Machine.mk _ _) (Interpreter.declareClass_withSink i sink _ _ _)
    | some parent => rfl
  | _ => rfl

theorem yieldStep_withSink {v : Value} {k : Cont} (h : output? ⟨.yield v, k :: stack, i⟩ = none) :
    yieldStep v k stack (i.withSink sink) = (yieldStep v k stack i).withSink sink := by
  have hcall {callee arguments} (hcall : call? ⟨.yield v, k :: stack, i⟩ = some (callee, arguments)) :
      callee ≠ .native .clear ∨ arguments ≠ [] := not_clear_of_output? h hcall
  cases k with
  | print => cases h
  | callee line rest =>
    cases rest with
    | nil => exact call_withSink sink stack i line (hcall rfl)
    | cons e rest => rfl
  | argument line callee ready rest =>
    cases rest with
    | nil => exact call_withSink sink stack i line (hcall rfl)
    | cons e rest => rfl
  | logical op right =>
    simp only [yieldStep]
    split <;> rfl
  | branch yes no =>
    simp only [yieldStep]
    repeat' split
    all_goals rfl
  | test condition body =>
    simp only [yieldStep]
    split <;> rfl
  | target name value =>
    simp only [yieldStep]
    split <;> rfl
  | assign ref =>
    have hassign := Interpreter.assign_withSink (i.retain v) sink ref v
    have hretain : (i.withSink sink).retain v = (i.retain v).withSink sink := rfl
    simp only [yieldStep, hretain, hassign]
    rcases (i.retain v).assign ref v with ⟨_ | _, j⟩ <;> rfl
  | get name =>
    simp only [yieldStep, Interpreter.property_withSink]
    rfl
  | superclass name parent methods =>
    simp only [yieldStep]
    split
    · exact congrArg (Machine.mk _ _) (Interpreter.declareClass_withSink i sink _ _ _)
    · rfl
  | _ => rfl

theorem finishCall_withSink (f : Function) (v : Value) :
    finishCall f v stack (i.withSink sink) = (finishCall f v stack i).withSink sink := by
  unfold finishCall callResult
  cases f.isInitializer <;> rfl

theorem doneStep_withSink (k : Cont) :
    doneStep k stack (i.withSink sink) = (doneStep k stack i).withSink sink := by
  cases k with
  | sequence rest => cases rest <;> rfl
  | finish f => exact finishCall_withSink sink stack i f .nil
  | _ => rfl

theorem returnStep_withSink (v : Value) (k : Cont) :
    returnStep v k stack (i.withSink sink) = (returnStep v k stack i).withSink sink := by
  cases k with
  | finish f => exact finishCall_withSink sink stack i f v
  | _ => rfl

theorem failStep_withSink (failure : Failure) (k : Cont) :
    failStep failure k stack (i.withSink sink) = (failStep failure k stack i).withSink sink := by
  cases k <;> rfl

end

/-- A step that writes nothing does the same whatever the sink. -/
theorem step_withSink {m : Machine} (h : m.output? = none) (sink : Sink) :
    (m.withSink sink).step = m.step.withSink sink := by
  obtain ⟨control, stack, i⟩ := m
  cases control with
  | eval e => exact evalStep_withSink sink stack i e
  | exec s => exact execStep_withSink sink stack i s
  | yield v =>
    cases stack with
    | nil => rfl
    | cons k stack => exact yieldStep_withSink sink stack i h
  | done =>
    cases stack with
    | nil => rfl
    | cons k stack => exact doneStep_withSink sink stack i k
  | returning v =>
    cases stack with
    | nil => rfl
    | cons k stack => exact returnStep_withSink sink stack i v k
  | failed failure =>
    cases stack with
    | nil => rfl
    | cons k stack => exact failStep_withSink sink stack i failure k
  | crashed => rfl

/-! ## Steps that write -/

end Machine

/-- Does the failure tell of this error in the output? `clear` reports it as an error of its own. -/
def Failure.Tells (cause : OutputError) (failure : Failure) : Prop :=
  failure = .output cause ∨ ∃ line, failure = .runtime line (.clearFailed cause)

@[simp] theorem Sink.flushFails_write (sink : Sink) (text : String) :
    (sink.write text).2.flushFails = sink.flushFails := by
  unfold write
  dsimp only
  split
  · rfl
  · split <;> rfl

namespace Machine

theorem call_clear (line : Nat) (stack : List Cont) (i : Interpreter) {sink : Sink}
    (hflush : sink.flushFails = false) :
    call line (.native .clear) [] stack (i.withSink sink) =
      match sink.write Interpreter.clearSequence with
      | (none, sink) => ⟨.yield (.boolean true), stack, (i.discardAll []).withSink sink⟩
      | (some cause, sink) => ⟨fail line (.clearFailed cause), stack, (i.discardAll []).withSink sink⟩ := by
  have hkept := sink.flushFails_write Interpreter.clearSequence
  have harity : (Value.native .clear).arity? = some ([] : List Value).length := rfl
  unfold call
  rw [harity]
  dsimp only
  rw [if_pos rfl]
  unfold Interpreter.callNative Interpreter.write
  dsimp only
  rw [Interpreter.sink_withSink]
  rcases hwrite : sink.write Interpreter.clearSequence with ⟨_ | cause, sink'⟩
  · rw [hwrite] at hkept
    dsimp only at hkept ⊢
    rw [Sink.flush, hkept, hflush]
    rfl
  · rfl

/-- A step that writes goes on as if there were no sink if the text has been written, and fails if not. -/
theorem step_of_output? {m : Machine} {text : String} (h : m.output? = some text) :
    ∃ (control : Control) (stack : List Cont) (i : Interpreter) (failure : OutputError → Failure),
      (∀ cause, (failure cause).Tells cause) ∧ ∀ sink : Sink, sink.flushFails = false →
        (m.withSink sink).step = match sink.write text with
          | (none, sink) => ⟨control, stack, i.withSink sink⟩
          | (some cause, sink) => ⟨.failed (failure cause), stack, i.withSink sink⟩ := by
  unfold output? at h
  split at h
  · next v stack i =>
    cases h
    refine ⟨.done, stack, i.discard v, .output, fun _ => .inl rfl, fun sink _ => ?_⟩
    change yieldStep v .print stack (i.withSink sink) = _
    unfold yieldStep Interpreter.writeLine Interpreter.write
    dsimp only
    rw [Interpreter.sink_withSink, Interpreter.store_withSink]
    rcases sink.write (i.store.display v ++ "\n") with ⟨_ | cause, sink'⟩ <;> rfl
  · split at h
    · next hcall =>
      cases h
      obtain ⟨line, hstep⟩ : ∃ line, ∀ sink, (m.withSink sink).step =
          call line (.native .clear) [] m.stack.tail (m.state.withSink sink) := by
        unfold call? at hcall
        split at hcall
        · cases hcall
          exact ⟨_, fun _ => rfl⟩
        · simp at hcall
        · cases hcall
      refine ⟨.yield (.boolean true), m.stack.tail, m.state.discardAll [],
        fun cause => .runtime line (.clearFailed cause), fun cause => .inr ⟨line, rfl⟩, fun sink hflush => ?_⟩
      rw [hstep, call_clear line _ _ hflush]
      rfl
    · cases h

end Machine
end Lox
