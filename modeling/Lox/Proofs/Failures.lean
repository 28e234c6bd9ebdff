import Lox.Machine

/-!
# Failures of scoping

Two failures tell that a frame or a name was not where it was looked for: an undefined variable, and
a function that outlived its scope. A step raises the first only if it follows a reference, and the
second only if it makes a call.
-/
namespace Lox

/-- Was a frame, or a name in a frame, not there? -/
def RuntimeError.isScoping : RuntimeError → Bool
  | undefinedVariable _ | outlivedScope _ => true
  | _ => false

theorem UnaryOp.isScoping_of_apply {op : UnaryOp} {v : Value} {cause : RuntimeError}
    (h : op.apply v = .error cause) : cause.isScoping = false := by
  unfold UnaryOp.apply at h
  split at h <;> cases h
  rfl

namespace BinaryOp

theorem isScoping_of_arithmetic {op : BinaryOp} {x y : Float} {cause : RuntimeError}
    (h : op.arithmetic x y = .error cause) : cause.isScoping = false := by
  unfold arithmetic at h
  cases op with
  | divide | modulo =>
    dsimp only at h
    split at h <;> cases h
    rfl
  | _ => cases h

theorem isScoping_of_sum {v w : Value} {cause : RuntimeError} (h : sum v w = .error cause) :
    cause.isScoping = false := by
  unfold sum at h
  split at h <;> cases h
  rfl

theorem isScoping_of_apply {op : BinaryOp} {v w : Value} {cause : RuntimeError}
    (h : op.apply v w = .error cause) : cause.isScoping = false := by
  unfold apply at h
  split at h
  · exact isScoping_of_sum h
  · cases h
  · cases h
  · split at h
    · exact isScoping_of_arithmetic h
    · cases h
      rfl

end BinaryOp

namespace Interpreter

variable {i : Interpreter}

theorem isScoping_of_property {v : Value} {name : String} {cause : RuntimeError}
    (h : (i.property v name).1 = .error cause) : cause.isScoping = false := by
  unfold property at h
  split at h
  · split at h
    · cases h
    · split at h <;> cases h
      rfl
  · split at h <;> cases h
    rfl
  · cases h
    rfl

theorem isScoping_of_superMethod {ref : Reference} {name : String} {cause : RuntimeError}
    (h : (i.superMethod ref name).1 = .error cause) : cause.isScoping = false := by
  unfold superMethod at h
  split at h
  · cases h
    rfl
  · split at h
    · dsimp only at h
      split at h
      · split at h <;> cases h
        rfl
      · cases h
        rfl
    · cases h
      rfl

theorem isScoping_of_callNative {n : Native} {arguments : List Value} {cause : RuntimeError}
    (h : (i.callNative n arguments).1 = .error cause) : cause.isScoping = false := by
  unfold callNative at h
  repeat' split at h
  all_goals
    cases h
    try rfl

/-- An assignment finds what a read finds. -/
theorem assign_found (i : Interpreter) (ref : Reference) (v : Value) :
    (i.assign ref v).1 = (i.lookup? ref).isSome := by
  have hassign : ∀ (s : Store) (h : Handle), (s.assign h ref.name.text v).1 =
      (s.arena.find? h ref.name.text).isSome := by
    intro s h
    unfold Store.assign
    cases s.arena.find? h ref.name.text <;> rfl
  unfold assign lookup? Arena.findAt? Store.assignAt
  cases i.distances[ref.id]? with
  | none => exact hassign _ _
  | some distance =>
    dsimp only
    cases i.store.arena.ancestor? i.active distance with
    | none => rfl
    | some outer => exact hassign _ _

theorem lookup?_retain (i : Interpreter) (v : Value) (ref : Reference) :
    (i.retain v).lookup? ref = i.lookup? ref := by
  unfold lookup? retain Store.retain
  cases v.object? <;> rfl

end Interpreter

namespace Machine

/-- The reference that the next step follows. -/
def reference? : Machine → Option Reference
  | ⟨.eval (.variable ref), _, _⟩ | ⟨.eval (.this ref), _, _⟩ | ⟨.eval (.super ref _), _, _⟩
  | ⟨.yield _, .assign ref :: _, _⟩ => some ref
  | _ => none

/-- The callee and the arguments of the call that the next step makes. -/
def call? : Machine → Option (Value × List Value)
  | ⟨.yield v, .callee _ [] :: _, _⟩ => some (v, [])
  | ⟨.yield v, .argument _ callee ready [] :: _, _⟩ => some (callee, ready ++ [v])
  | _ => none

variable {line : Nat} {cause : RuntimeError} {v : Value} {stack : List Cont} {i : Interpreter}

theorem isScoping_of_ofResult {n : Nat} {result : Except RuntimeError Value}
    (h : ofResult n result = .failed (.runtime line cause))
    (hresult : ∀ c, result = .error c → c.isScoping = false) : cause.isScoping = false := by
  cases result with
  | ok v => cases h
  | error c =>
    cases h
    exact hresult _ rfl

theorem outlived_of_callFunction {n : Nat} {f : Function} {arguments : List Value}
    (h : (callFunction n f arguments stack i).control = .failed (.runtime line cause)) :
    cause = .outlivedScope f.name := by
  unfold callFunction at h
  dsimp only at h
  split at h <;> cases h
  rfl

/-- The only failure of scoping that a call raises is that of a function that outlived its scope. -/
theorem outlived_of_call {n : Nat} {callee : Value} {arguments : List Value}
    (h : (call n callee arguments stack i).control = .failed (.runtime line cause))
    (hc : cause.isScoping = true) : ∃ name, cause = .outlivedScope name := by
  unfold call at h
  split at h
  · cases h
    cases hc
  · split at h
    · split at h
      · next native arguments =>
        split at h
        · cases h
        · next hn =>
          cases h
          rw [Interpreter.isScoping_of_callNative (congrArg Prod.fst hn)] at hc
          cases hc
        · cases h
      · exact ⟨_, outlived_of_callFunction h⟩
      · unfold instantiate at h
        dsimp only at h
        split at h
        · cases h
        · exact ⟨_, outlived_of_callFunction h⟩
      · cases h
      · cases h
        cases hc
    · cases h
      cases hc

theorem raises_evalStep {e : Expr} (h : (evalStep e stack i).control = .failed (.runtime line cause))
    (hc : cause.isScoping = true) :
    ∃ ref, reference? ⟨.eval e, stack, i⟩ = some ref ∧ i.lookup? ref = none ∧
      cause = .undefinedVariable ref.name.text := by
  cases e with
  | «variable» ref | this ref =>
    cases hv : i.lookup? ref with
    | none =>
      unfold evalStep at h
      dsimp only at h
      rw [hv] at h
      cases h
      exact ⟨ref, rfl, hv, rfl⟩
    | some v =>
      unfold evalStep at h
      dsimp only at h
      rw [hv] at h
      cases h
  | super ref method =>
    unfold evalStep at h
    dsimp only at h
    split at h
    · cases h
    · cases h
      cases hc
    · next hs =>
      cases h
      rw [Interpreter.isScoping_of_superMethod (congrArg Prod.fst hs)] at hc
      cases hc
  | _ => cases h

/-- The failures of scoping that a value can meet with. -/
theorem raises_yieldStep {k : Cont}
    (h : (yieldStep v k stack i).control = .failed (.runtime line cause))
    (hc : cause.isScoping = true) :
    (∃ ref, k = .assign ref ∧ i.lookup? ref = none ∧ cause = .undefinedVariable ref.name.text) ∨
      ∃ callee arguments n, call? ⟨.yield v, k :: stack, i⟩ = some (callee, arguments) ∧
        yieldStep v k stack i = call n callee arguments stack i := by
  have hnot : cause.isScoping ≠ false := fun h => by
    rw [h] at hc
    cases hc
  cases k with
  | unary op n => exact absurd (isScoping_of_ofResult h fun _ => UnaryOp.isScoping_of_apply) hnot
  | right op n left => exact absurd (isScoping_of_ofResult h fun _ => BinaryOp.isScoping_of_apply) hnot
  | get name => exact absurd (isScoping_of_ofResult h fun _ => Interpreter.isScoping_of_property) hnot
  | callee n rest =>
    cases rest with
    | nil => exact .inr ⟨v, [], n, rfl, rfl⟩
    | cons e rest => cases h
  | argument n callee ready rest =>
    cases rest with
    | nil => exact .inr ⟨callee, ready ++ [v], n, rfl, rfl⟩
    | cons e rest => cases h
  | assign ref =>
    have hfound := Interpreter.assign_found (i.retain v) ref v
    rw [Interpreter.lookup?_retain] at hfound
    unfold yieldStep at h
    dsimp only at h
    split at h
    · cases h
    · next ha =>
      rw [ha] at hfound
      cases h
      exact .inl ⟨ref, rfl, Option.isNone_iff_eq_none.1 (Option.isSome_eq_false_iff.1 hfound.symm), rfl⟩
  | logical | branch | test | target | print | superclass =>
    unfold yieldStep at h
    dsimp only at h
    repeat' split at h
    all_goals
      cases h
      try cases hc
  | _ => cases h

/-- A failure of scoping was there before the step, or comes from a reference or a call. -/
theorem raises_step {m : Machine} (h : m.step.control = .failed (.runtime line cause))
    (hc : cause.isScoping = true) :
    m.control = .failed (.runtime line cause) ∨
      (∃ ref, m.reference? = some ref ∧ m.state.lookup? ref = none ∧
        cause = .undefinedVariable ref.name.text) ∨
      ∃ callee arguments n, m.call? = some (callee, arguments) ∧
        m.step = call n callee arguments m.stack.tail m.state := by
  obtain ⟨control, stack, i⟩ := m
  cases control with
  | eval e => exact .inr (.inl (raises_evalStep h hc))
  | exec s =>
    cases s with
    | var name initializer => cases initializer <;> cases h
    | classDecl name superclass methods => cases superclass <;> cases h
    | ret n value => cases value <;> cases h
    | _ => cases h
  | yield v =>
    cases stack with
    | nil => cases h
    | cons k stack =>
      obtain ⟨ref, rfl, hraise⟩ | ⟨callee, arguments, n, hcall, hstep⟩ := raises_yieldStep h hc
      · exact .inr (.inl ⟨ref, rfl, hraise⟩)
      · exact .inr (.inr ⟨callee, arguments, n, hcall, hstep⟩)
  | done =>
    cases stack with
    | nil => cases h
    | cons k stack =>
      unfold step doneStep finishCall at h
      dsimp only at h
      split at h <;> cases h
  | returning v =>
    cases stack with
    | nil => cases h
    | cons k stack =>
      unfold step returnStep finishCall at h
      dsimp only at h
      split at h <;> cases h
  | failed failure =>
    cases stack with
    | nil => exact .inl h
    | cons k stack => exact .inl h
  | crashed => cases h

end Machine
end Lox
