import Lox.Proofs.Output.Truncation

/-!
# What lies below

What a machine does until it comes to its end does not depend on the continuations below its own. With
some below it takes the same steps, and then hands its result to the first one of them.
-/
namespace Lox.Machine

variable {m : Machine} {stack : List Cont} {i : Interpreter}

/-- The machine with more to be done after it. -/
def onto (m : Machine) (below : List Cont) : Machine := ⟨m.control, m.stack ++ below, m.state⟩

variable (below : List Cont)

/-! ## Calls -/

theorem callFunction_onto (line : Nat) (f : Function) (arguments : List Value) :
    callFunction line f arguments (stack ++ below) i =
      (callFunction line f arguments stack i).onto below := by
  simp only [callFunction]
  split <;> rfl

theorem instantiate_onto (line : Nat) (c : Class) (arguments : List Value) :
    instantiate line c arguments (stack ++ below) i =
      (instantiate line c arguments stack i).onto below := by
  simp only [instantiate]
  split
  · rfl
  · rw [← List.cons_append]
    exact callFunction_onto below line _ arguments

theorem call_onto (line : Nat) (callee : Value) (arguments : List Value) :
    call line callee arguments (stack ++ below) i = (call line callee arguments stack i).onto below := by
  simp only [call]
  cases callee.arity? with
  | none => rfl
  | some arity =>
    by_cases hlength : arguments.length = arity
    · simp only [if_pos hlength]
      cases callee with
      | function f => apply callFunction_onto
      | classObject c => apply instantiate_onto
      | native n =>
        dsimp only
        rcases i.callNative n arguments with ⟨result, i'⟩
        cases result <;> rfl
      | _ => rfl
    · simp only [if_neg hlength]
      rfl

/-! ## Steps -/

theorem evalStep_onto (e : Expr) : evalStep e (stack ++ below) i = (evalStep e stack i).onto below := by
  cases e with
  | «variable» ref | this ref =>
    simp only [evalStep]
    cases i.lookup? ref <;> rfl
  | super ref method =>
    simp only [evalStep]
    split <;> rfl
  | _ => rfl

theorem execStep_onto (s : Stmt) : execStep s (stack ++ below) i = (execStep s stack i).onto below := by
  cases s with
  | var name initializer => cases initializer <;> rfl
  | classDecl name superclass methods => cases superclass <;> rfl
  | ret line value => cases value <;> rfl
  | _ => rfl

theorem yieldStep_onto (v : Value) (k : Cont) :
    yieldStep v k (stack ++ below) i = (yieldStep v k stack i).onto below := by
  cases k with
  | callee line arguments =>
    cases arguments with
    | nil => exact call_onto below line v []
    | cons e rest => rfl
  | argument line callee ready rest =>
    cases rest with
    | nil => exact call_onto below line callee (ready ++ [v])
    | cons e rest => rfl
  | logical op right | test condition body =>
    simp only [yieldStep]
    split <;> rfl
  | assign ref | print | target name value | superclass name parent methods =>
    simp only [yieldStep]
    split <;> rfl
  | branch yes no =>
    simp only [yieldStep]
    split
    · rfl
    · cases no <;> rfl
  | _ => rfl

theorem doneStep_onto (k : Cont) : doneStep k (stack ++ below) i = (doneStep k stack i).onto below := by
  cases k with
  | sequence body => cases body <;> rfl
  | _ => rfl

theorem returnStep_onto (v : Value) (k : Cont) :
    returnStep v k (stack ++ below) i = (returnStep v k stack i).onto below := by
  cases k <;> rfl

theorem isFinal_onto (h : m.isFinal = false) : (m.onto below).isFinal = false := by
  obtain ⟨control, _ | ⟨k, stack⟩, i⟩ := m
  · cases control <;> first | rfl | cases h
  · cases control <;> first | rfl | cases h

theorem stack_of_isFinal (hfinal : m.isFinal = true) (hcrash : m.control ≠ .crashed) :
    m.stack = [] := by
  obtain ⟨control, stack, i⟩ := m
  cases control with
  | crashed => exact absurd rfl hcrash
  | eval _ | exec _ => cases hfinal
  | _ => exact List.isEmpty_iff.1 hfinal

/-- With something below it a machine that has come to its end can go on, unless it has crashed. -/
theorem isFinal_onto_of_isFinal (hfinal : m.isFinal = true) (hbelow : below ≠ [])
    (hcrash : m.control ≠ .crashed) : (m.onto below).isFinal = false := by
  have hempty := stack_of_isFinal hfinal hcrash
  obtain ⟨k, rest, rfl⟩ := List.exists_cons_of_ne_nil hbelow
  obtain ⟨control, stack, i⟩ := m
  cases hempty
  cases control <;> first | rfl | exact absurd rfl hcrash

/-- As long as there is something to be done, what lies below stays where it is. -/
theorem step_onto (h : m.isFinal = false) : (m.onto below).step = m.step.onto below := by
  obtain ⟨control, stack, i⟩ := m
  cases control with
  | eval e => exact evalStep_onto below e
  | exec s => exact execStep_onto below s
  | crashed => cases h
  | yield v =>
    cases stack with
    | nil => cases h
    | cons k stack => exact yieldStep_onto below v k
  | done =>
    cases stack with
    | nil => cases h
    | cons k stack => exact doneStep_onto below k
  | returning v =>
    cases stack with
    | nil => cases h
    | cons k stack => exact returnStep_onto below v k
  | failed failure =>
    cases stack with
    | nil => cases h
    | cons k stack => rfl

/-! ## Runs -/

theorem run_succ (h : m.isFinal = false) (fuel : Nat) : m.run (fuel + 1) = m.step.run fuel := by
  rw [run, if_neg (Bool.eq_false_iff.1 h)]

theorem history_succ (h : m.isFinal = false) (fuel : Nat) :
    m.history (fuel + 1) = m :: m.step.history fuel := by
  rw [history, if_neg (Bool.eq_false_iff.1 h)]

theorem run_step {fuel : Nat} (h : (m.run fuel).isFinal = false) : m.run (fuel + 1) = (m.run fuel).step := by
  induction fuel generalizing m with
  | zero => exact run_succ h 0
  | succ fuel ih =>
    cases hm : m.isFinal with
    | true =>
      rw [run_of_isFinal hm, hm] at h
      cases h
    | false =>
      rw [run_succ hm] at h ⊢
      rw [run_succ hm, ih h]

theorem exists_history_eq_cons (fuel : Nat) (m : Machine) : ∃ rest, m.history fuel = m :: rest := by
  cases fuel with
  | zero => exact ⟨[], rfl⟩
  | succ fuel =>
    unfold history
    split <;> exact ⟨_, rfl⟩

/-- A machine that has not come to its end has got just as far with something below it. -/
theorem run_onto {fuel : Nat} (h : (m.run fuel).isFinal = false) :
    (m.onto below).run fuel = (m.run fuel).onto below := by
  induction fuel generalizing m with
  | zero => rfl
  | succ fuel ih =>
    cases hfinal : m.isFinal with
    | true =>
      rw [run_of_isFinal hfinal] at h
      rw [hfinal] at h
      cases h
    | false =>
      rw [run_succ hfinal] at h
      rw [run_succ hfinal, run_succ (isFinal_onto below hfinal), step_onto below hfinal, ih h]

/-- Once it has come to its end, the run goes on with what lies below. -/
theorem run_onto_add {fuel : Nat} (h : (m.run fuel).isFinal = true) :
    ∃ k ≤ fuel, ∀ n, (m.onto below).run (k + n) = ((m.run fuel).onto below).run n := by
  induction fuel generalizing m with
  | zero => exact ⟨0, le_rfl, fun n => by rw [Nat.zero_add, run]⟩
  | succ fuel ih =>
    cases hfinal : m.isFinal with
    | true =>
      refine ⟨0, Nat.zero_le _, fun n => ?_⟩
      rw [Nat.zero_add, run_of_isFinal hfinal]
    | false =>
      rw [run_succ hfinal] at h
      obtain ⟨k, hk, hrest⟩ := ih h
      refine ⟨k + 1, Nat.succ_le_succ hk, fun n => ?_⟩
      rw [Nat.add_right_comm, run_succ (isFinal_onto below hfinal), step_onto below hfinal, hrest,
        run_succ hfinal]

end Lox.Machine
