import Lox.Proofs.Failures
import Lox.Proofs.Reclamation.Sessions

/-!
# Freeing frames goes unnoticed

A session reports and writes the same as the session that frees no frame. What can still run
only ever refers to frames that are there, so that no function outlives its scope.
-/
namespace Lox

namespace Machine

/-- What can still run refers to the frame: it is the global one or the active one, it is left or gone
back to by the stack, a value that can be got at closes over it, or it is around such a frame. -/
inductive Refers (m : Machine) : Handle → Prop where
  | globals : m.Refers .globals
  | active : m.Refers m.state.active
  | entered {previous frame} (hk : .leave previous frame ∈ m.stack) : m.Refers frame
  | previous {previous frame} (hk : .leave previous frame ∈ m.stack) : m.Refers previous
  | closure {v h} (hv : m.state.store.Accessible (m.control.held ++ heldAll m.stack) v)
      (hh : h ∈ v.handles) : m.Refers h
  | around {h f outer} (hr : m.Refers h) (hf : m.state.store.arena.frame? h = some f)
      (ho : f.enclosing = some outer) : m.Refers outer

variable {P : Handle → Handle → Prop} {ρ : Renaming} {m n : Machine} {stack : List Cont}

theorem mem_activations {previous frame : Handle} (hk : .leave previous frame ∈ stack) :
    ∃ a ∈ activations stack, a.frame = frame := by
  induction stack with
  | nil => cases hk
  | cons k rest ih =>
    obtain rfl | hbelow := List.mem_cons.1 hk
    · exact ⟨⟨frame, callee? rest⟩, List.mem_cons_self, rfl⟩
    · obtain ⟨a, ha, hframe⟩ := ih hbelow
      cases k with
      | leave => exact ⟨a, List.mem_cons_of_mem _ ha, hframe⟩
      | _ => exact ⟨a, ha, hframe⟩

/-- An activation is left for another one, or for the global frame. -/
theorem previous_of_chained {previous frame : Handle} (hc : Chained stack)
    (hk : .leave previous frame ∈ stack) :
    previous = .globals ∨ ∃ a ∈ activations stack, a.frame = previous := by
  induction stack with
  | nil => cases hk
  | cons k rest ih =>
    obtain rfl | hbelow := List.mem_cons.1 hk
    · obtain ⟨rfl, -⟩ := hc
      cases hrest : activations rest with
      | nil => exact .inl rfl
      | cons a acts =>
        refine .inr ⟨a, List.mem_cons_of_mem _ ?_, rfl⟩
        rw [hrest]
        exact List.mem_cons_self
    · cases k with
      | leave =>
        exact (ih hc.2 hbelow).imp_right fun ⟨a, ha, hframe⟩ => ⟨a, List.mem_cons_of_mem _ ha, hframe⟩
      | _ => exact ih hc hbelow

theorem Twin.contains (ht : Twin P ρ m n) {h : Handle} (hr : m.Refers h) :
    m.state.store.arena.contains h = true := by
  have intact := ht.setting.twin.store.healthy.intact
  have hentered : ∀ {g}, (∃ a ∈ activations m.stack, a.frame = g) →
      m.state.store.arena.contains g = true := by
    rintro g ⟨a, ha, rfl⟩
    exact intact.entered a ha
  induction hr with
  | globals => exact ht.setting.twin.contains_globals
  | active => exact ht.setting.twin.contains_active
  | entered hk => exact hentered (mem_activations hk)
  | previous hk =>
    obtain rfl | ha := previous_of_chained ht.setting.chained hk
    · exact ht.setting.twin.contains_globals
    · exact hentered ha
  | closure hv hh => exact (intact.supported _ hv).contains _ hh
  | around _ hf ho _ => exact intact.live _ _ _ hf ho

/-! ## Calls find the frame that the function closes over -/

variable {i j : Interpreter} {held : List Value} {callee : Value} {arguments : List Value}

/-- What is called is held until the call is made. -/
theorem Twin.call (ht : Twin P ρ m n) (hcall : m.call? = some (callee, arguments)) :
    Setting P ρ m.state n.state (callee :: arguments) m.stack.tail := by
  obtain ⟨control, stack, i⟩ := m
  have hs := ht.setting
  clear ht
  unfold call? at hcall
  split at hcall
  · next heq =>
    cases heq
    cases hcall
    exact ⟨hs.twin, hs.chained⟩
  · next v line f ready rest j heq =>
    cases heq
    cases hcall
    have hall : Setting P ρ i n.state (v :: callee :: ready) rest := ⟨hs.twin, hs.chained⟩
    exact hall.perm ((List.Perm.swap _ _ _).trans
      ((List.perm_append_singleton v ready).symm.cons callee))
  · cases hcall

theorem control_callFunction {f : Function} (line : Nat)
    (hs : Setting P ρ i j (.function f :: arguments) stack) :
    (callFunction line f arguments stack i).control = .done := by
  have hcontains : i.store.arena.contains f.closure = true :=
    (hs.twin.store.healthy.intact.supported _ (.held List.mem_cons_self)).contains _ List.mem_cons_self
  unfold callFunction
  rw [if_pos hcontains]

theorem control_instantiate {c : Class} (line : Nat)
    (hs : Setting (fun _ _ => True) ρ i j (.classObject c :: arguments) stack) :
    (instantiate line c arguments stack i).control = .done ∨
      ∃ v, (instantiate line c arguments stack i).control = .yield v := by
  obtain ⟨hid, halloc⟩ := hs.allocateInstance List.mem_cons_self
  unfold instantiate
  rcases hi : i.store.allocate (.instance c Bindings.empty) with ⟨id, s⟩
  rw [hi] at halloc
  dsimp only at halloc ⊢
  cases hm : c.findMethod? initializerName with
  | none => exact .inr ⟨_, rfl⟩
  | some method =>
    obtain ⟨ρ', -, -, hbound⟩ := halloc.bindInitializer hm trivial
    exact .inl (control_callFunction line hbound)

theorem not_outlived_call {line n : Nat} {name : String}
    (hs : Setting P ρ i j (callee :: arguments) stack) :
    (call n callee arguments stack i).control ≠ .failed (.runtime line (.outlivedScope name)) := by
  have hs : Setting (fun _ _ => True) ρ i j (callee :: arguments) stack :=
    ⟨hs.twin.mono fun _ _ _ => trivial, hs.chained⟩
  intro h
  unfold call at h
  split at h
  · cases h
  · split at h
    · split at h
      · split at h
        · cases h
        · next hnative =>
          cases h
          cases Interpreter.isScoping_of_callNative (congrArg Prod.fst hnative)
        · cases h
      · rw [control_callFunction n hs] at h
        cases h
      · obtain hdone | ⟨v, hyield⟩ := control_instantiate n hs
        · rw [hdone] at h
          cases h
        · rw [hyield] at h
          cases h
      · cases h
      · cases h
    · cases h

/-- No step finds that a function outlived its scope. -/
theorem Twin.not_outlived_step {line : Nat} {name : String} (ht : Twin P ρ m n)
    (hm : m.control ≠ .failed (.runtime line (.outlivedScope name))) :
    m.step.control ≠ .failed (.runtime line (.outlivedScope name)) := by
  intro h
  obtain hbefore | ⟨ref, -, -, hcause⟩ | ⟨callee, arguments, k, hcall, hstep⟩ := raises_step h rfl
  · exact hm hbefore
  · cases hcause
  · rw [hstep] at h
    exact not_outlived_call (ht.call hcall) h

/-- The machine that frees nothing never starts to. -/
theorem Alongside.keeps {a b : Record} {ms ns : List Machine} (h : Alongside a b ms ns) :
    ∀ n ∈ ns, n.state.store.arena.reclaims = false := by
  induction h with
  | nil => exact fun n hn => absurd hn List.not_mem_nil
  | cons ht _ ih =>
    intro n hn
    obtain rfl | hn := List.mem_cons.1 hn
    · exact ht.setting.twin.store.keeps
    · exact ih n hn

theorem Alongside.twin {a b : Record} {ms ns : List Machine} (h : Alongside a b ms ns) {m : Machine}
    (hm : m ∈ ms) : ∃ P ρ n, Twin P ρ m n := by
  obtain ⟨before, after, hsplit⟩ := List.append_of_mem hm
  obtain ⟨before', n, after', ρ, -, ht⟩ := h.split hsplit
  exact ⟨_, ρ, n, ht⟩

end Machine

/-! ## Sessions -/

namespace Session

theorem history_new_alongside (sink : Sink) (clock : Clock) (fuel : Nat)
    (inputs : List (Mode × String)) :
    Machine.Alongside [] [] ((Session.new sink clock).history fuel inputs)
      ((Session.new sink clock).keeping.history fuel inputs) :=
  history_alongside inputs fuel (idle_new sink clock)

theorem not_outlived_history (sink : Sink) (clock : Clock) (fuel : Nat)
    (inputs : List (Mode × String)) (line : Nat) (name : String) :
    ∀ m ∈ (Session.new sink clock).history fuel inputs,
      m.control ≠ .failed (.runtime line (.outlivedScope name)) := by
  refine forall_history (fun _ _ _ => nofun) (fun _ _ => nofun) fun m hm hbefore => ?_
  obtain ⟨P, ρ, n, ht⟩ := (history_new_alongside sink clock fuel inputs).twin hm
  exact ht.not_outlived_step hbefore

/-- A session reports the same outcomes and errors as the session that frees no frame, and both write
the same and take the same readings. No function outlives its scope, and no state of the session
refers to a frame that has been freed. -/
theorem runAll_keeping (sink : Sink) (clock : Clock) (fuel : Nat) (inputs : List (Mode × String)) :
    let s := Session.new sink clock
    (∀ m ∈ s.keeping.history fuel inputs, m.state.store.arena.reclaims = false) ∧
      (s.runAll fuel inputs).1 = (s.keeping.runAll fuel inputs).1 ∧
      (s.runAll fuel inputs).2.interpreter.sink = (s.keeping.runAll fuel inputs).2.interpreter.sink ∧
      (s.runAll fuel inputs).2.interpreter.clock = (s.keeping.runAll fuel inputs).2.interpreter.clock ∧
      (∀ report ∈ (s.runAll fuel inputs).1, ∀ line name,
        .runtime line (.outlivedScope name) ∉ report.diagnostics) ∧
      ∀ m ∈ s.history fuel inputs, ∀ h, m.Refers h → m.state.store.arena.contains h = true := by
  have halong := history_new_alongside sink clock fuel inputs
  obtain ⟨hreports, hsink, hclock⟩ := runAll_eq inputs fuel (idle_new sink clock)
  refine ⟨halong.keeps, hreports.symm, hsink.symm, hclock.symm, fun report hreport line name h => ?_,
    fun m hm h hr => ?_⟩
  · obtain ⟨m, hm, hfailed⟩ := failed_of_runAll hreport h
    exact not_outlived_history sink clock fuel inputs line name m hm hfailed
  · obtain ⟨P, ρ, n, ht⟩ := halong.twin hm
    exact ht.contains hr

end Session
end Lox
