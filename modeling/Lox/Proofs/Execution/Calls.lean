import Lox.Proofs.Execution.Results
import Lox.Proofs.Scoping.Inheritance
import Mathlib.Data.List.Pairwise

/-!
# Calls

A call ends with the value of the first `return` that its own body executes. Only the call of an initializer
does not: the frame that binds the receiver lasts as long as the bound method, which the call holds, and so
the receiver is found in it when the body has ended.
-/
namespace Lox

open Machine (SoundFrom Results)

/-- The function is a method which has been declared with the name of initializers. -/
def Function.IsInit (f : Function) : Prop := f.binding.isSome = true ∧ f.decl.name.text = initializerName

/-- Functions are not bound when they are made. -/
theorem Past.binding_after (ms : List Machine) : ∀ f ∈ (Past.empty.after ms).functions, f.binding = none := by
  rw [Past.functions_after]
  intro f hf
  obtain ⟨m, -, hf⟩ := List.mem_flatMap.1 hf
  exact m.binding_of_functions f hf

namespace Machine

/-- The body of `f`, and nothing else, after the step of `m` that calls `f`. -/
def body (m : Machine) (f : Function) : Machine :=
  ⟨.done, [.sequence f.decl.body, .leave m.state.active m.step.state.active], m.step.state⟩

/-- The next step calls `f`, and what is `below` goes on with the value of the call. -/
structure Enters (m : Machine) (f : Function) (below : List Cont) : Prop where
  call : m.call?.isSome = true
  step : m.step = (m.body f).onto (.finish f :: below)

/-- Some steps after the one that calls `f` its body has ended with `r`, and right after that what is `below`
is given `v`. -/
def Gives (m : Machine) (f : Function) (below : List Cont) (r : Machine) (v : Value) : Prop :=
  ∃ k j, m.step.run k = r.onto (.finish f :: below) ∧ m.step.run (k + 1) = ⟨.yield v, below, j⟩

/-- One of the machines has bound the function to the value. -/
def Bound (ms : List Machine) (f : Function) (v : Value) : Prop :=
  ∃ m ∈ ms, ∃ outer, m.Furnishes ⟨f.closure, .receiver f.decl, outer⟩ v

variable {ρ : Renaming} {a b : Record} {os : List Occurrence} {past : Past}
  {m n : Machine} {ms after : List Machine} {below : List Cont} {f : Function} {v w : Value}
  {o : Opening} {i : Interpreter} {arguments : List Value} {fuel : Nat}

/-! ## What is called -/

theorem isFinal_of_call? (h : m.call?.isSome = true) : m.isFinal = false := by
  obtain ⟨control, stack, i⟩ := m
  unfold call? at h
  split at h
  · next heq =>
    cases heq
    rfl
  · next heq =>
    cases heq
    rfl
  · cases h

theorem step_of_call? {callee : Value} (h : m.call? = some (callee, arguments)) :
    ∃ line, m.step = call line callee arguments m.stack.tail m.state := by
  obtain ⟨control, stack, i⟩ := m
  unfold call? at h
  split at h
  · next line _ _ heq =>
    cases heq
    cases h
    exact ⟨line, rfl⟩
  · next line _ _ _ _ heq =>
    cases heq
    cases h
    exact ⟨line, rfl⟩
  · cases h

/-- What is called is held. -/
theorem held_of_call? {callee : Value} (h : m.call? = some (callee, arguments)) :
    callee ∈ m.control.held ++ heldAll m.stack := by
  obtain ⟨control, stack, i⟩ := m
  unfold call? at h
  split at h
  · next heq =>
    cases heq
    cases h
    exact List.mem_cons_self
  · next heq =>
    cases heq
    cases h
    exact List.mem_cons_of_mem _ List.mem_cons_self
  · cases h

/-- A function whose scope is there is called. -/
theorem enters_callFunction {line : Nat} (hcall : m.call?.isSome = true)
    (hstep : m.step = callFunction line f arguments below i) (hactive : i.active = m.state.active) :
    (∃ failure, m.step.control = .failed failure) ∨ m.Enters f below := by
  unfold callFunction at hstep
  split at hstep
  · refine .inr ⟨hcall, ?_⟩
    unfold body onto
    rw [hstep, hactive]
    rfl
  · exact .inl ⟨_, congrArg control hstep⟩

theorem enters_of_call? (h : m.call? = some (.function f, arguments)) :
    (∃ failure, m.step.control = .failed failure) ∨ m.Enters f m.stack.tail := by
  obtain ⟨line, hstep⟩ := step_of_call? h
  unfold call at hstep
  dsimp only at hstep
  split at hstep
  · exact .inl ⟨_, congrArg control hstep⟩
  · split at hstep
    · exact enters_callFunction (by rw [h]; rfl) hstep rfl
    · exact .inl ⟨_, congrArg control hstep⟩

/-- A class with an initializer binds it to a new instance, and calls it. -/
theorem enters_of_call?_class {c : Class} {method : Function}
    (h : m.call? = some (.classObject c, arguments)) (hmethod : c.findMethod? initializerName = some method) :
    (∃ failure, m.step.control = .failed failure) ∨ ∃ f id, m.Enters f (.construct id :: m.stack.tail) ∧
      f.decl = method.decl ∧ f.binding.isSome = true ∧ Bound [m] f (.instance id) := by
  obtain ⟨line, hstep⟩ := step_of_call? h
  unfold call at hstep
  dsimp only at hstep
  split at hstep
  · exact .inl ⟨_, congrArg control hstep⟩
  · next arity harity =>
    split at hstep
    · next hlength =>
      unfold instantiate at hstep
      dsimp only at hstep
      rw [hmethod] at hstep
      dsimp only at hstep
      have hcall : m.call?.isSome = true := by rw [h]; rfl
      obtain hfailed | henters := enters_callFunction hcall hstep rfl
      · exact .inl hfailed
      · exact .inr ⟨_, _, henters, rfl, rfl, m, List.mem_singleton_self m, method.closure,
          .initializer h ((Option.some.inj harity).trans hlength.symm) rfl hmethod⟩
    · exact .inl ⟨_, congrArg control hstep⟩

/-! ## What a function is bound to -/

/-- A step makes frames for one value only. -/
theorem Furnishes.unique {o' : Opening} (h : m.Furnishes o v) (h' : m.Furnishes o' w) : v = w := by
  cases h with
  | property hmethod =>
    cases h' with
    | property => rfl
    | initializer hcall => cases hcall
  | super hdistance hthis hmethod =>
    cases h' with
    | super hdistance' hthis' _ =>
      cases hdistance.symm.trans hdistance'
      exact Option.some.inj (hthis.symm.trans hthis')
    | initializer hcall => cases hcall
  | initializer hcall _ hid _ =>
    cases h' with
    | property | super | superclass => cases hcall
    | initializer hcall' _ hid' _ =>
      cases hcall.symm.trans hcall'
      cases hid.symm.trans hid'
      rfl
  | superclass =>
    cases h' with
    | superclass => rfl
    | initializer hcall => cases hcall

/-- Frames have different handles, and so a function is bound to one value only. -/
theorem SoundFrom.bound_unique (h : SoundFrom os .empty ms) (hv : Bound ms f v) (hw : Bound ms f w) :
    v = w := by
  obtain ⟨m, hm, outer, hfurnishes⟩ := hv
  obtain ⟨n, hn, outer', hfurnishes'⟩ := hw
  have hnodup := h.nodup List.nodup_nil
  rw [Past.openings_after] at hnodup
  change ((ms.flatMap opened).map Opening.frame).Nodup at hnodup
  rw [List.map_flatMap] at hnodup
  let frames (m : Machine) := m.opened.map Opening.frame
  have hframe : f.closure ∈ frames m := List.mem_map_of_mem hfurnishes.opened
  have hframe' : f.closure ∈ frames n := List.mem_map_of_mem hfurnishes'.opened
  have : Std.Symm (Function.onFun List.Disjoint frames) := ⟨fun _ _ h _ hx hx' => h hx' hx⟩
  obtain rfl : m = n := by
    by_contra hne
    exact (List.nodup_flatMap.1 hnodup).2.forall hm hn hne hframe hframe'
  exact hfurnishes.unique hfurnishes'

theorem Bound.mono (h : Bound ms f v) (hsub : ms ⊆ after) : Bound after f v := by
  obtain ⟨m, hm, hbound⟩ := h
  exact ⟨m, hsub hm, hbound⟩

/-- A call holds its function. -/
theorem held_of_finish {r : Machine} : .function f ∈
    (r.onto (.finish f :: below)).control.held ++ heldAll (r.onto (.finish f :: below)).stack := by
  refine List.mem_append_right _ (List.mem_flatMap.2 ⟨.finish f, ?_, List.mem_cons_self⟩)
  exact List.mem_append_right _ List.mem_cons_self

/-- A function that is held is an initializer if it has been declared as one. -/
theorem isInitializer_of_held (h : m.Orderly os past)
    (hheld : .function f ∈ m.control.held ++ heldAll m.stack) : f.isInitializer = true ↔ f.IsInit := by
  rw [(h.placed.held _ hheld).2.1, Bool.and_eq_true, decide_eq_true_iff]
  rfl

/-! ## How calls end -/

theorem step_of_end {r : Machine} (hempty : r.stack = [])
    (hend : r.control = .done ∧ v = .nil ∨ r.control = .returning v) :
    (r.onto (.finish f :: below)).step = finishCall f v below r.state := by
  obtain ⟨control, stack, i⟩ := r
  cases hempty
  obtain ⟨hcontrol, rfl⟩ | hcontrol := hend
  · cases hcontrol
    rfl
  · cases hcontrol
    rfl

/-- As long as the body has not ended, the call goes on. Once it has, the call is over after the next step,
which is one that ends calls. -/
theorem Enters.ends (h : m.Enters f below) (ht : Twin (Recorded a b) ρ m n) (fuel : Nat) :
    (((m.body f).run fuel).isFinal = false →
      m.step.run fuel = ((m.body f).run fuel).onto (.finish f :: below)) ∧
      (((m.body f).run fuel).Completed → ∃ k v,
        m.step.run k = ((m.body f).run fuel).onto (.finish f :: below) ∧
        m.step.run (k + 1) = finishCall f v below ((m.body f).run fuel).state ∧
        Results ((m.body f).history fuel) v) := by
  obtain ⟨ρ', hstep⟩ := ht.stepRecorded
  rw [h.step] at hstep ⊢
  refine ⟨run_onto _, fun hend => ?_⟩
  have hstays : (m.body f).Stays fun _ => True :=
    ⟨fun _ => trivial, fun _ _ _ => trivial, fun _ => trivial, trivial⟩
  obtain ⟨v, hresults, hcontrol⟩ := results_of_run hstays hstep (fun value hfits => hfits.1.symm) hend
  obtain ⟨k, -, hrun⟩ := run_onto_add (.finish f :: below) hend.final
  refine ⟨k, v, hrun 0, (hrun 1).trans ?_, hresults⟩
  have hgoes := isFinal_onto_of_isFinal (.finish f :: below) hend.final (List.cons_ne_nil _ _) hend.crashed
  rw [run_succ hgoes, run]
  exact step_of_end (stack_of_isFinal hend.final hend.crashed) hcontrol

/-- What an initializer gives is not looked at where the class has been called. -/
theorem Gives.construct {id : ObjectId} {r : Machine} (h : m.Gives f (.construct id :: below) r v) :
    ∃ k j, m.step.run k = ⟨.yield (.instance id), below, j⟩ := by
  obtain ⟨k, j, -, hgiven⟩ := h
  have hgoes : (m.step.run (k + 1)).isFinal = false := by
    rw [hgiven]
    rfl
  refine ⟨k + 2, j.discard v, ?_⟩
  rw [run_step hgoes, hgiven]
  rfl

theorem callResult_of_not_initializer (h : ¬ f.isInitializer = true) : (callResult f v i).1 = v := by
  unfold callResult
  rw [if_neg h]

theorem callResult_of_initializer (h : f.isInitializer = true)
    (hthis : i.store.arena.find? f.closure "this" = some w) : (callResult f v i).1 = w := by
  unfold callResult
  rw [if_pos h, hthis]
  rfl

end Machine

/-! ## Sessions -/

namespace Session

open Machine (Twin Bound Enters Gives heldAll)

variable {P : Handle → Handle → Prop} {ρ : Renaming} {os : List Occurrence} {sink : Sink} {clock : Clock}
  {fuel : Nat} {inputs : List (Mode × String)} {m n q : Machine} {ms before after : List Machine}
  {below : List Cont} {f : Function}

/-- A bound function that is held closes over a frame that binds its receiver. -/
theorem receiver_of_held (hsound : SoundFrom os .empty ms)
    (hsuccessive : (Session.new sink clock).interpreter.store.Successive ms) (hsplit : ms = before ++ q :: after)
    (ht : Twin P ρ q n) (hheld : .function f ∈ q.control.held ++ heldAll q.stack)
    (hbinding : f.binding.isSome = true) :
    ∃ id, q.state.store.arena.find? f.closure "this" = some (.instance id) ∧ Bound before f (.instance id) := by
  obtain ⟨os', horderly⟩ := (hsound.split hsplit).orderly
  obtain ⟨hknows, -, around, hstands, -, hthis⟩ := horderly.placed.held _ hheld
  obtain ⟨scope, outer, rfl, hmem⟩ := hthis hbinding
  obtain ⟨-, e, -, -, hframe⟩ := hstands
  obtain ⟨frame, hf⟩ := Arena.contains_iff.1 (ht.contains (.closure (.held hheld) List.mem_cons_self))
  obtain ⟨v, hv⟩ := Bindings.exists_find?_of_mem_names ((hframe frame hf).2 "this" hmem)
  have hfind : q.state.store.arena.find? f.closure "this" = some v := Option.bind_eq_some_iff.2 ⟨frame, hf, hv⟩
  obtain hmade | ⟨method, -, hdecl, hopened⟩ := hknows
  · rw [Past.binding_after before f hmade] at hbinding
    cases hbinding
  · obtain ⟨b, hb, hfurnishes⟩ := furnished_of_sound hsound hsuccessive hsplit hopened (.inl rfl) hfind
    obtain ⟨id, rfl⟩ := hfurnishes.receiver
    exact ⟨id, hfind, b, hb, method.closure, hdecl ▸ hfurnishes⟩

theorem orderly_history (hsplit : (Session.new sink clock).history fuel inputs = before ++ m :: after) :
    ∃ os, m.Orderly os (Past.empty.after before) :=
  ((soundFrom_history fuel inputs (.new sink clock) (orderly_new sink clock)).split hsplit).orderly

/-- From any state of a session on, runs are sound, also if they go on for longer than the session does. -/
theorem sound_onward (hsplit : (Session.new sink clock).history fuel inputs = before ++ m :: after) (k : Nat) :
    ∃ os, SoundFrom os .empty (before ++ m.history k) ∧
      (Session.new sink clock).interpreter.store.Successive (before ++ m.history k) := by
  have hsound := soundFrom_history fuel inputs (.new sink clock) (orderly_new sink clock)
  have hsuccessive := successive_history fuel (Session.new sink clock) inputs
  obtain ⟨_, _, _, ρ, -, ht⟩ := (history_new_alongside sink clock fuel inputs).split hsplit
  obtain ⟨os, horderly⟩ := orderly_history hsplit
  have honward := (horderly.run ht k).1
  refine ⟨_, ((hsound.take hsplit).mono (List.subset_append_left _ os)).append
    (honward.mono (List.subset_append_right _ os)), ?_⟩
  exact (hsuccessive.take hsplit).append (hsuccessive.split hsplit) (Machine.successive_history k m).1

/-- The frame of the receiver lasts until the call is over, and so the call of an initializer gives what the
function is bound to. -/
theorem receiver_of_call (hsplit : (Session.new sink clock).history fuel inputs = before ++ m :: after)
    (henters : m.Enters f below) (hinit : f.IsInit) {r : Machine} {k : Nat}
    (hrun : m.step.run k = r.onto (.finish f :: below)) :
    ∃ id, r.state.store.arena.find? f.closure "this" = some (.instance id) ∧
      ∀ v, Bound (before ++ [m]) f v ↔ v = .instance id := by
  have hgoes := Machine.isFinal_of_call? henters.call
  obtain ⟨_, _, _, ρ, -, ht⟩ := (history_new_alongside sink clock fuel inputs).split hsplit
  obtain ⟨os, hsound, hsuccessive⟩ := sound_onward hsplit (k + 1)
  -- what the function is bound to when it is called
  obtain ⟨ρ', hstep⟩ := ht.stepRecorded
  obtain ⟨rest, hrest⟩ := Machine.exists_history_eq_cons k m.step
  have hcalled : before ++ m.history (k + 1) = (before ++ [m]) ++ m.step :: rest := by
    rw [Machine.history_succ hgoes, hrest, List.append_assoc]
    rfl
  obtain ⟨id, -, hbound⟩ := receiver_of_held hsound hsuccessive hcalled hstep
    (henters.step ▸ Machine.held_of_finish) hinit.1
  -- and when the body has ended
  obtain ⟨-, ρ', hend⟩ := ht.run (k + 1)
  obtain ⟨passed, rest, hpassed⟩ := List.append_of_mem (Machine.run_mem_history (k + 1) m)
  rw [Machine.run_succ hgoes, hrun] at hend hpassed
  have hended : before ++ m.history (k + 1) = (before ++ passed) ++ r.onto (.finish f :: below) :: rest := by
    rw [hpassed, List.append_assoc]
  obtain ⟨id', hfind, hbound'⟩ := receiver_of_held hsound hsuccessive hended hend Machine.held_of_finish hinit.1
  have hall : ∀ {v}, Bound (before ++ [m]) f v → v = .instance id' := fun hv =>
    hsound.bound_unique (hv.mono (hcalled ▸ List.subset_append_left _ _))
      (hbound'.mono (hended ▸ List.subset_append_left _ _))
  refine ⟨id', hfind, fun v => ⟨hall, ?_⟩⟩
  rintro rfl
  exact hall hbound ▸ hbound

/-- Whatever a session is fed, no top-level statement ends with a `return`. What is called fails at once, or
the body of the function is executed: where a class is called that has or inherits an initializer, it is the
initializer, bound to the new instance, and in the end the call gives this instance. The call of a function goes
on for as long as its body does. When the body has ended without a failure, the call gives what the first
`return` of the body itself says. Only the call of a method that is declared as an initializer, however it has
come to be called, gives the one instance to which the method has been bound instead. -/
theorem returns_of_history (sink : Sink) (clock : Clock) (fuel : Nat) (inputs : List (Mode × String)) :
    let history := (Session.new sink clock).history fuel inputs
    (∀ m ∈ history, m.stack = [] → ∀ v, m.control ≠ .returning v) ∧
    ∀ before m after, history = before ++ m :: after →
      (∀ f arguments, m.call? = some (.function f, arguments) →
        (∃ failure, m.step.control = .failed failure) ∨ m.Enters f m.stack.tail) ∧
      (∀ c arguments method, m.call? = some (.classObject c, arguments) →
        c.findMethod? initializerName = some method → (∃ failure, m.step.control = .failed failure) ∨
          ∃ f id, m.Enters f (.construct id :: m.stack.tail) ∧ f.IsInit ∧ f.decl = method.decl ∧
            Bound (before ++ [m]) f (.instance id) ∧ ∀ r w, m.Gives f (.construct id :: m.stack.tail) r w →
              ∃ k j, m.step.run k = ⟨.yield (.instance id), m.stack.tail, j⟩) ∧
      ∀ f below, m.Enters f below → ∀ n,
        let r := (m.body f).run n
        (r.isFinal = false → m.step.run n = r.onto (.finish f :: below)) ∧
        (r.Completed → ∃ v w, Results ((m.body f).history n) v ∧ m.Gives f below r w ∧
          (¬ f.IsInit → w = v) ∧
          (f.IsInit → ∃ id, w = .instance id ∧ ∀ u, Bound (before ++ [m]) f u ↔ u = .instance id)) := by
  intro history
  refine ⟨fun m hm hempty v hreturning => ?_, fun before m after hsplit => ⟨fun f arguments => ?_, ?_, ?_⟩⟩
  · have hstays := (stays_history (.new sink clock) fuel inputs m hm).control (by rw [hempty]; rfl)
    rw [hreturning] at hstays
    exact hstays
  · exact Machine.enters_of_call?
  · intro c arguments method hcall hmethod
    obtain ⟨os, horderly⟩ := orderly_history hsplit
    have hplaced : c.Placed _ _ := horderly.placed.held _ (Machine.held_of_call? hcall)
    obtain ⟨-, ⟨hname, -⟩, -⟩ := hplaced initializerName method hmethod
    obtain hfailed | ⟨f, id, henters, hdecl, hbinding, hbound⟩ := Machine.enters_of_call?_class hcall hmethod
    · exact .inl hfailed
    · exact .inr ⟨f, id, henters, ⟨hbinding, hdecl ▸ hname⟩, hdecl,
        hbound.mono (List.subset_append_right before [m]), fun _ _ => Machine.Gives.construct⟩
  · intro f below henters n r
    obtain ⟨_, _, _, ρ, -, ht⟩ := (history_new_alongside sink clock fuel inputs).split hsplit
    obtain ⟨hgoing, hover⟩ := henters.ends ht n
    refine ⟨hgoing, fun hend => ?_⟩
    obtain ⟨k, v, hrun, hgiven, hresults⟩ := hover hend
    obtain ⟨os, horderly⟩ := orderly_history hsplit
    have hinitializer :=
      Machine.isInitializer_of_held (horderly.step ht) (henters.step ▸ Machine.held_of_finish)
    refine ⟨v, (Machine.callResult f v r.state).1, hresults, ⟨k, _, hrun, hgiven⟩, fun hinit => ?_,
      fun hinit => ?_⟩
    · exact Machine.callResult_of_not_initializer (mt hinitializer.1 hinit)
    · obtain ⟨id, hthis, hbound⟩ := receiver_of_call hsplit henters hinit hrun
      exact ⟨id, Machine.callResult_of_initializer (hinitializer.2 hinit) hthis, hbound⟩

/-- An initializer that is called once more, and leaves a loop by a `return`. -/
theorem returns_of_history_again :
    let source := "class A { init() { while (true) { return; } } } class B < A {} var b = B().init; b();"
    let s := Session.new {} ⟨fun _ => 0, 0, 0⟩
    ∃ before m after f v id, s.history 99 [(.program, source)] = before ++ m :: after ∧ f.IsInit ∧
      m.Enters f m.stack.tail ∧ Results ((m.body f).history 12) v ∧
      m.Gives f m.stack.tail ((m.body f).run 12) (.instance id) ∧ Bound (before ++ [m]) f (.instance id) := by
  intro source s
  have hsome : ((s.history 99 [(.program, source)]).any fun m =>
      (m.call?.any fun c => c.1.typeName == "function" && c.1.object?.isSome && c.1.arity? == some 0) &&
        m.step.control.givesValue? == some false &&
        (Machine.callee? (m.step.stack.drop 2)).any fun f =>
          (f.binding.isSome && f.decl.name.text == initializerName) &&
            ((m.body f).run 12).isFinal && ((m.body f).run 12).control.givesValue? == some false) = true := by
    decide +kernel
  obtain ⟨m, hm, hcode⟩ := List.any_eq_true.1 hsome
  obtain ⟨before, after, hsplit⟩ := List.append_of_mem hm
  obtain ⟨-, hall⟩ := returns_of_history {} ⟨fun _ => 0, 0, 0⟩ 99 [(.program, source)]
  obtain ⟨hcalls, -, hends⟩ := hall before m after hsplit
  simp only [Bool.and_eq_true, beq_iff_eq, Option.any_eq_true] at hcode
  obtain ⟨⟨⟨⟨callee, arguments⟩, hcall, ⟨htype, hobject⟩, harity⟩, hdone⟩, f', hf', ⟨hinit, hfinal⟩, hend⟩ := hcode
  cases callee with
  | function f =>
    have henters : m.Enters f m.stack.tail := by
      refine (hcalls f arguments hcall).resolve_left ?_
      rintro ⟨failure, hfailed⟩
      rw [hfailed] at hdone
      cases hdone
    rw [henters.step] at hf'
    obtain rfl : f = f' := Option.some.inj hf'
    have hcompleted : ((m.body f).run 12).Completed := by
      refine ⟨hfinal, fun failure hfailed => ?_, fun hcrashed => ?_⟩
      · rw [hfailed] at hend
        cases hend
      · rw [hcrashed] at hend
        cases hend
    obtain ⟨v, w, hresults, hgives, -, hinstance⟩ := (hends f m.stack.tail henters 12).2 hcompleted
    obtain ⟨id, rfl, hbound⟩ := hinstance hinit
    exact ⟨before, m, after, f, v, id, hsplit, hinit, henters, hresults, hgives, (hbound _).2 rfl⟩
  | arrayMethod id method => cases method <;> cases harity
  | native n => cases hobject
  | _ => simp [Value.typeName] at htype

end Session
end Lox
