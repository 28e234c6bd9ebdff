import Lox.Proofs.Printing.Stacks
import Lox.Proofs.Reclamation.Unobservable
import Lox.Proofs.Resolution.Verdict

/-!
# Returns

A `return` leaves what is around it up to the call that it belongs to. Outside of all calls none is ever on
its way, since resolution accepts none there. In a body the first one that is executed decides: what the
body executes after it is the expression of the `return`, and nothing else.
-/
namespace Lox

/-- What is in the statement and is executed along with it, is in `A` if the statement is. -/
structure Stmt.Closed (A : Stmt → Prop) : Prop where
  block : ∀ {body}, A (.block body) → ∀ s ∈ body, A s
  branch : ∀ {condition yes no}, A (.branch condition yes no) → A yes ∧ ∀ s ∈ no, A s
  loop : ∀ {condition body}, A (.loop condition body) → A body

namespace Cont

/-- Does the continuation end a call? -/
def isFinish : Cont → Bool
  | finish _ => true
  | _ => false

/-- What the continuation executes is in `A`, and it does not return. -/
def Stays (A : Stmt → Prop) : Cont → Prop
  | branch yes no => A yes ∧ ∀ s ∈ no, A s
  | test _ body | round _ body => A body
  | sequence rest => ∀ s ∈ rest, A s
  | result => False
  | _ => True

end Cont

def Control.Stays (A : Stmt → Prop) : Control → Prop
  | exec s => A s
  | returning _ => False
  | _ => True

namespace Machine

/-- Is there a call on the stack that has not come to its end? -/
def inCall (stack : List Cont) : Bool := stack.any Cont.isFinish

/-- The `return` that is executed next, with its expression. Those of functions that are called meanwhile are
not meant. -/
def return? (m : Machine) : Option (Option Expr) :=
  match m.control with
  | .exec (.ret _ value) => if inCall m.stack then none else some value
  | _ => none

def StaysAll (A : Stmt → Prop) : List Cont → Prop
  | [] => True
  | k :: rest => (inCall rest = false → k.Stays A) ∧ StaysAll A rest

/-- What is executed outside of all calls is in `A`, and nothing returns there. -/
structure Stays (A : Stmt → Prop) (m : Machine) : Prop where
  control : inCall m.stack = false → m.control.Stays A
  stack : StaysAll A m.stack

variable {A : Stmt → Prop} {m : Machine} {stack : List Cont} {i : Interpreter} {line : Nat} {v : Value}

/-! ## Steps stay outside of calls -/

theorem stays_ofResult (hs : StaysAll A stack) (result : Except RuntimeError Value) :
    Stays A ⟨ofResult line result, stack, i⟩ := by
  cases result <;> exact ⟨fun _ => trivial, hs⟩

theorem stays_callFunction (hs : StaysAll A stack) (f : Function) (arguments : List Value) :
    Stays A (callFunction line f arguments stack i) := by
  unfold callFunction
  split
  · exact ⟨fun _ => trivial, fun h => Bool.noConfusion h, fun _ => trivial, fun _ => trivial, hs⟩
  · exact ⟨fun _ => trivial, hs⟩

theorem stays_call (hs : StaysAll A stack) (callee : Value) (arguments : List Value) :
    Stays A (call line callee arguments stack i) := by
  have hgive : ∀ {c : Control} {j : Interpreter}, c.Stays A → Stays A ⟨c, stack, j⟩ :=
    fun hc => ⟨fun _ => hc, hs⟩
  unfold call
  split
  · exact hgive trivial
  · split
    · split
      · split <;> exact hgive trivial
      · exact stays_callFunction hs _ arguments
      · unfold instantiate
        dsimp only
        split
        · exact hgive trivial
        · have hconstruct : ∀ id, StaysAll A (.construct id :: stack) := fun _ => ⟨fun _ => trivial, hs⟩
          exact stays_callFunction (hconstruct _) _ arguments
      · exact hgive trivial
      · exact hgive trivial
    · exact hgive trivial

theorem stays_evalStep (hs : StaysAll A stack) (e : Expr) : Stays A (evalStep e stack i) := by
  cases e with
  | «variable» ref | this ref =>
    unfold evalStep
    dsimp only
    split <;> exact ⟨fun _ => trivial, hs⟩
  | super ref method =>
    unfold evalStep
    dsimp only
    split <;> exact ⟨fun _ => trivial, hs⟩
  | literal value | grouping inner => exact ⟨fun _ => trivial, hs⟩
  | _ => exact ⟨fun _ => trivial, fun _ => trivial, hs⟩

theorem stays_execStep {s : Stmt} (hA : Stmt.Closed A) (h : Stays A ⟨.exec s, stack, i⟩)
    (hreturn : return? ⟨.exec s, stack, i⟩ = none) : Stays A (execStep s stack i) := by
  obtain ⟨hcontrol, hs⟩ := h
  cases s with
  | expression e | print e => exact ⟨fun _ => trivial, fun _ => trivial, hs⟩
  | var name initializer =>
    cases initializer with
    | none => exact ⟨fun _ => trivial, hs⟩
    | some e => exact ⟨fun _ => trivial, fun _ => trivial, hs⟩
  | block body =>
    exact ⟨fun _ => trivial, fun hout => hA.block (hcontrol hout), fun _ => trivial, hs⟩
  | branch condition yes no => exact ⟨fun _ => trivial, fun hout => hA.branch (hcontrol hout), hs⟩
  | loop condition body => exact ⟨fun _ => trivial, fun hout => hA.loop (hcontrol hout), hs⟩
  | function decl => exact ⟨fun _ => trivial, hs⟩
  | classDecl name superclass methods =>
    cases superclass with
    | none => exact ⟨fun _ => trivial, hs⟩
    | some parent => exact ⟨fun _ => trivial, fun _ => trivial, hs⟩
  | ret line value =>
    have hin : inCall stack ≠ false := by
      intro hout
      unfold return? at hreturn
      dsimp only at hreturn
      rw [hout] at hreturn
      cases hreturn
    cases value with
    | none => exact ⟨fun hout => hin hout, hs⟩
    | some e => exact ⟨fun _ => trivial, fun hout => hin hout, hs⟩

theorem stays_yieldStep {k : Cont} (h : StaysAll A (k :: stack)) : Stays A (yieldStep v k stack i) := by
  obtain ⟨hk, hs⟩ := h
  cases k with
  | unary op line | right op line left | get name => exact stays_ofResult hs _
  | left op line right => exact ⟨fun _ => trivial, fun _ => trivial, hs⟩
  | logical op right | assign ref | print | superclass name parent methods =>
    unfold yieldStep
    dsimp only
    split <;> exact ⟨fun _ => trivial, hs⟩
  | callee line arguments =>
    cases arguments with
    | nil => exact stays_call hs v []
    | cons e rest => exact ⟨fun _ => trivial, fun _ => trivial, hs⟩
  | argument line callee ready rest =>
    cases rest with
    | nil => exact stays_call hs callee (ready ++ [v])
    | cons e rest => exact ⟨fun _ => trivial, fun _ => trivial, hs⟩
  | target name value =>
    unfold yieldStep
    dsimp only
    split
    · exact ⟨fun _ => trivial, fun _ => trivial, hs⟩
    · exact ⟨fun _ => trivial, hs⟩
    · exact ⟨fun _ => trivial, hs⟩
  | branch yes no =>
    unfold yieldStep
    dsimp only
    split
    · exact ⟨fun hout => (hk hout).1, hs⟩
    · split
      · exact ⟨fun hout => (hk hout).2 _ rfl, hs⟩
      · exact ⟨fun _ => trivial, hs⟩
  | test condition body =>
    unfold yieldStep
    dsimp only
    split
    · exact ⟨hk, hk, hs⟩
    · exact ⟨fun _ => trivial, hs⟩
  | result => exact ⟨hk, hs⟩
  | _ => exact ⟨fun _ => trivial, hs⟩

theorem stays_doneStep {k : Cont} (h : StaysAll A (k :: stack)) : Stays A (doneStep k stack i) := by
  obtain ⟨hk, hs⟩ := h
  cases k with
  | sequence body =>
    cases body with
    | nil => exact ⟨fun _ => trivial, hs⟩
    | cons s rest =>
      exact ⟨fun hout => hk hout s List.mem_cons_self,
        fun hout t ht => hk hout t (List.mem_cons_of_mem _ ht), hs⟩
  | round condition body => exact ⟨fun _ => trivial, hk, hs⟩
  | _ => exact ⟨fun _ => trivial, hs⟩

theorem stays_returnStep {k : Cont} (h : Stays A ⟨.returning v, k :: stack, i⟩) :
    Stays A (returnStep v k stack i) := by
  obtain ⟨hcontrol, -, hs⟩ := h
  cases k with
  | finish f => exact ⟨fun _ => trivial, hs⟩
  | _ => exact ⟨hcontrol, hs⟩

/-- Without a `return` of its own nothing returns outside of calls. -/
theorem Stays.step (h : m.Stays A) (hA : Stmt.Closed A) (hreturn : m.return? = none) : m.step.Stays A := by
  obtain ⟨control, stack, i⟩ := m
  cases control with
  | eval e => exact stays_evalStep h.stack e
  | exec s => exact stays_execStep hA h hreturn
  | yield v =>
    cases stack with
    | nil => exact h
    | cons k stack => exact stays_yieldStep h.stack
  | done =>
    cases stack with
    | nil => exact h
    | cons k stack => exact stays_doneStep h.stack
  | returning v =>
    cases stack with
    | nil => exact h
    | cons k stack => exact stays_returnStep h
  | failed failure =>
    cases stack with
    | nil => exact h
    | cons k stack => exact ⟨fun _ => trivial, h.stack.2⟩
  | crashed => exact h

end Machine

/-! ## Outside of functions -/

/-- The statement stands outside of all functions at a place where the rules are kept. -/
def Stmt.Outside (s : Stmt) : Prop :=
  ∃ globals around, Place.Sound globals ⟨around, s⟩ ∧ around.find? Layer.isFunction = none

theorem Stmt.closed_outside : Stmt.Closed Stmt.Outside where
  block := by
    rintro body ⟨globals, around, hsound, hout⟩ s hs
    obtain ⟨passed, rest, rfl⟩ := List.append_of_mem hs
    exact ⟨globals, _, (Place.sound_block.1 hsound).2 passed s rest rfl, hout⟩
  branch := by
    rintro condition yes no ⟨globals, around, hsound, hout⟩
    obtain ⟨-, hyes, hno⟩ := Place.sound_branch.1 hsound
    exact ⟨⟨globals, around, hyes, hout⟩, fun s hs => ⟨globals, _, hno s hs, hout⟩⟩
  loop := by
    rintro condition body ⟨globals, around, hsound, hout⟩
    exact ⟨globals, around, (Place.sound_loop.1 hsound).2, hout⟩

theorem Stmt.not_outside_ret {line : Nat} {value : Option Expr} : ¬ (Stmt.ret line value).Outside := by
  rintro ⟨globals, around, hsound, hout⟩
  exact (Place.sound_iff.1 hsound).1 (.topLevelReturn hout)

/-- What resolution accepts stands outside of functions. -/
theorem Stmt.Accepted.outside {s : Stmt} (h : s.Accepted) : s.Outside := by
  obtain ⟨globals, program, distances, hresolved, hs⟩ := h
  have hsound := not_malformed.1 ((resolveProgram_ok_iff globals program).1 ⟨distances, hresolved⟩)
  obtain ⟨passed, rest, rfl⟩ := List.append_of_mem hs
  exact ⟨globals, _, hsound passed s rest rfl, rfl⟩

theorem Machine.return?_of_outside {m : Machine} (h : m.Stays Stmt.Outside) : m.return? = none := by
  obtain ⟨control, stack, i⟩ := m
  unfold return?
  split
  · next hcontrol =>
    cases hcontrol
    split
    · rfl
    · next hout => exact absurd (h.control (Bool.eq_false_iff.2 hout)) Stmt.not_outside_ret
  · rfl

/-- Nothing returns outside of calls. -/
theorem Session.stays_history (s : Session) (fuel : Nat) (inputs : List (Mode × String)) :
    ∀ m ∈ s.history fuel inputs, m.Stays Stmt.Outside :=
  forall_history (fun _ hs _ => ⟨fun _ => hs.outside, trivial⟩) (fun _ _ => ⟨fun _ => trivial, trivial⟩)
    fun _ _ h => h.step Stmt.closed_outside (Machine.return?_of_outside h)

end Lox
