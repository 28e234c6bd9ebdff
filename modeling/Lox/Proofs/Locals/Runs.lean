import Lox.Proofs.Locals.Machine
import Lox.Proofs.Reclamation.History

/-!
# Runs under other names

A program with other names for its local variables ends in the same way, and has written the same until then.
-/
namespace Lox

variable {ξ : Exchange} {μ : Marking} {marks : List Bool}

theorem Machine.Exchanged.run {m n : Machine} (h : m.Exchanged ξ μ marks n) (fuel : Nat)
    (hproper : ∀ k ∈ m.history fuel, k.Proper ξ) : (m.run fuel).Beside ξ μ (n.run fuel) := by
  induction fuel generalizing m n μ marks with
  | zero => exact h.beside
  | succ fuel ih =>
    unfold Machine.history at hproper
    unfold Machine.run
    rw [h.isFinal]
    by_cases hfinal : m.isFinal = true
    · rw [if_pos hfinal, if_pos hfinal]
      exact h.beside
    · rw [if_neg hfinal] at hproper
      rw [if_neg hfinal, if_neg hfinal]
      obtain ⟨hm, hrest⟩ := List.forall_mem_cons.1 hproper
      obtain ⟨μ', marks', hμ, hstep⟩ := h.step hm
      exact (ih hstep hrest).extends hμ

namespace Interpreter

/-- Two runs have ended in the same way, and have written and measured the same. -/
structure EndedAlike (r q : Ending × Interpreter) : Prop where
  ending : q.1 = r.1
  sink : q.2.sink = r.2.sink
  clock : q.2.clock = r.2.clock

namespace Exchanged

variable {i j : Interpreter}

theorem settle (h : i.Exchanged ξ μ marks j) : i.settle.Exchanged ξ μ marks j.settle := by
  have hdrain := h.drain
  have hdue : j.drain.store.arena.shouldCollect = i.drain.store.arena.shouldCollect := by
    unfold Arena.shouldCollect
    rw [hdrain.store.arena.live, hdrain.store.arena.nextCollection]
  have hcollect := hdrain.of_store (.refl μ) (hdrain.store.collect [i.drain.active]) hdrain.active
  unfold Interpreter.settle
  dsimp only
  rw [hdue]
  split
  · rw [hdrain.active] at hcollect ⊢
    exact hcollect
  · exact hdrain

theorem abort (h : i.Exchanged ξ μ marks j) (failure : Failure) :
    EndedAlike (i.abort failure) (j.abort failure) := by
  have hsink : ({ j with active := .globals } : Interpreter).drain.sink =
      ({ i with active := .globals } : Interpreter).drain.sink := h.sink
  unfold Interpreter.abort
  dsimp only
  rw [hsink]
  split <;> exact ⟨rfl, h.sink, h.clock⟩

/-- Between top-level statements there is only the global frame, whose scope is not marked. -/
theorem interpret {program program' : List Stmt} (h : i.Exchanged ξ μ [] j) (fuel : Nat)
    (hprogram : Stmt.ExchangedAll ξ [] program program')
    (hproper : ∀ m ∈ i.history fuel program, m.Proper ξ) :
    EndedAlike (i.interpret fuel program) (j.interpret fuel program') := by
  induction program generalizing program' i j μ with
  | nil =>
    cases hprogram
    unfold Interpreter.interpret
    rw [h.sink]
    split <;> exact ⟨rfl, h.sink, h.clock⟩
  | cons s rest ih =>
    cases hprogram with
    | @cons _ _ s' _ rest' hs hrest =>
      have hstart : Machine.Exchanged ξ μ [] ⟨.exec s, [], i⟩ ⟨.exec s', [], j⟩ := ⟨.exec hs, .nil, h⟩
      unfold Interpreter.history at hproper
      have hrun := hstart.run fuel fun k hk => hproper k (List.mem_append_left _ hk)
      unfold Interpreter.interpret
      generalize Machine.run fuel ⟨.exec s, [], i⟩ = m at hrun hproper ⊢
      generalize Machine.run fuel ⟨.exec s', [], j⟩ = n at hrun ⊢
      obtain ⟨μ', marks, -, hcontrol, hstack, hi⟩ := hrun
      obtain ⟨control, stack, i'⟩ := m
      obtain ⟨control', stack', j'⟩ := n
      dsimp only at hcontrol hstack hi
      cases hstack with
      | nil =>
        cases hcontrol with
        | eval | exec | crashed => exact ⟨rfl, hi.sink, hi.clock⟩
        | yield hv | returning hv =>
          exact ih (hi.discard hv).settle hrest fun k hk => hproper k (List.mem_append_right _ hk)
        | done => exact ih hi.settle hrest fun k hk => hproper k (List.mem_append_right _ hk)
        | failed failure => exact hi.abort failure
      | cons | leave => cases hcontrol <;> exact ⟨rfl, hi.sink, hi.clock⟩

end Exchanged
end Interpreter
end Lox
