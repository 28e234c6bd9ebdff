import Lox.Proofs.Ownership.Upkeep
import Lox.Proofs.Splicing.Analysis
import Lox.Proofs.Reclamation.Unobservable

/-!
# What runs keep

What all operations of the store keep is kept by runs that end with a status. Nothing has been entered
then that would still have to be left.
-/
namespace Lox

open Store (Upkeep)

/-- Has the program been left, with success or without? -/
def Ending.isOver : Ending → Bool
  | completed | failed _ => true
  | crashed | exhausted => false

variable {K : List Handle → Store → Prop} (hK : Upkeep K) {fuel : Nat}

include hK

theorem Machine.Keeps.run {a b : Record} {ρ : Renaming} {m n : Machine} (h : Keeps K m)
    (ht : Twin (Recorded a b) ρ m n) (fuel : Nat) : Keeps K (m.run fuel) := by
  have halong := (ht.run fuel).1
  refine forall_history h (fun m' hm' h' => ?_) _ (run_mem_history fuel m)
  obtain ⟨P, ρ', n', ht'⟩ := halong.twin hm'
  exact h'.step hK ht'.fits

namespace Interpreter

variable {i j : Interpreter}

theorem upkeep_settle (hi : K [] i.store) : K [] i.settle.store := by
  have hdrain := hK.drain hi
  obtain hsettle | ⟨roots, hsettle⟩ := Showing.settle_cases i
  · exact hsettle ▸ hdrain
  · exact hsettle ▸ hK.collect hdrain roots

theorem upkeep_abort (hi : K [] i.store) (failure : Failure) : K [] (i.abort failure).2.store := by
  unfold abort
  dsimp only
  split <;> exact hK.drain hi

theorem upkeep_interpret {a b : Record} (program : List Stmt) (hidle : Idle (Recorded a b) i j)
    (hi : K [] i.store) (hover : (i.interpret fuel program).1.isOver = true) :
    K [] (i.interpret fuel program).2.store := by
  induction program generalizing i j a b with
  | nil =>
    unfold interpret
    split <;> exact hi
  | cons s rest ih =>
    obtain ⟨ρ, ht⟩ := hidle
    have hstart := ht.start (c := .exec s) rfl rfl
    have hran := Machine.Keeps.run hK (m := ⟨.exec s, [], i⟩) hi hstart fuel
    obtain ⟨-, ρ', hrun⟩ := hstart.run fuel
    unfold interpret at hover ⊢
    generalize Machine.run fuel ⟨.exec s, [], i⟩ = m at hran hrun hover ⊢
    generalize Machine.run fuel ⟨.exec s, [], j⟩ = n at hrun
    obtain ⟨control, stack, i'⟩ := m
    obtain ⟨control', stack', j'⟩ := n
    obtain ⟨hcontrol, hstack, hs, -⟩ := hrun
    dsimp only at hcontrol hstack
    subst hcontrol hstack
    cases control with
    | eval e | exec e | crashed => cases hover
    | yield v | returning v =>
      cases stack with
      | nil =>
        have hdiscard : K [] (i'.discard v).store := hK.discard hran v
        exact ih ⟨_, hs.twin.discard.settle⟩ (upkeep_settle hK hdiscard) hover
      | cons k stack => cases hover
    | done =>
      cases stack with
      | nil => exact ih ⟨_, hs.twin.settle⟩ (upkeep_settle hK hran) hover
      | cons k stack => cases hover
    | failed failure =>
      cases stack with
      | nil => exact upkeep_abort hK hran failure
      | cons k stack => cases hover

theorem upkeep_printResult (hi : K [] i.store) (v : Value) : K [] (Session.printResult i v).2.store := by
  have hwrite : K [] (i.writeLine v).2.store := hi
  unfold Session.printResult
  split <;> rename_i heq <;> rw [heq] at hwrite
  · exact hK.discard hwrite v
  · split <;> exact hK.discard hwrite v

theorem upkeep_runExpression {a b : Record} (e : Expr) (hidle : Idle (Recorded a b) i j)
    (hi : K [] i.store) (hover : (Session.runExpression fuel i e).1.isOver = true) :
    K [] (Session.runExpression fuel i e).2.store := by
  obtain ⟨ρ, ht⟩ := hidle
  have hran := Machine.Keeps.run hK (m := ⟨.eval e, [], i⟩) hi (ht.start (c := .eval e) rfl rfl) fuel
  unfold Session.runExpression interpretExpression at hover ⊢
  generalize Machine.run fuel ⟨.eval e, [], i⟩ = m at hran hover ⊢
  obtain ⟨control, stack, i'⟩ := m
  have hsettle : stack = [] → K [] ({ i' with active := .globals } : Interpreter).settle.store := by
    rintro rfl
    exact upkeep_settle hK (i := { i' with active := .globals }) hran
  cases control with
  | eval e | exec e | done | returning v | crashed => cases hover
  | yield v =>
    cases stack with
    | nil => exact upkeep_printResult hK (hsettle rfl) v
    | cons k stack => cases hover
  | failed failure =>
    cases stack with
    | nil => exact hsettle rfl
    | cons k stack => cases hover

end Interpreter

theorem Session.upkeep_run {a b : Record} {s u : Session} {mode : Mode} {source : String}
    {status : Status} (hidle : Session.Idle (Recorded a b) s u) (hs : K [] s.interpreter.store)
    (hended : (s.run fuel mode source).1.outcome = .status status) :
    K [] (s.run fuel mode source).2.interpreter.store := by
  have hover : ∀ ending : Ending, (Report.ofEnding ending).outcome = .status status →
      ending.isOver = true := by
    intro ending h
    cases ending <;> first | rfl | cases h
  rw [run_eq] at hended ⊢
  cases hanalysis : (s.analyze mode source).1 with
  | rejected diagnostics => exact hs
  | program tree distances =>
    rw [hanalysis] at hended
    exact Interpreter.upkeep_interpret hK tree (hidle.learn distances) hs (hover _ hended)
  | expression e distances =>
    rw [hanalysis] at hended
    exact Interpreter.upkeep_runExpression hK e (hidle.learn distances) hs (hover _ hended)

end Lox
