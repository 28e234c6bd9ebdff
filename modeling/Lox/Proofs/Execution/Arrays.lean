import Lox.Proofs.Execution.Calls
import Lox.Proofs.Store.Elements

/-!
# Arrays in all states

Whoever refers to an array refers to the same elements. Whatever has been done since the array was made, an
element is what has been stored there last, and it makes no difference through which reference, or through
which method taken from one, an array is read and written.
-/
namespace Lox

/-- What `Array` fills an array with: as many `nil`s as its argument says, or an argument that is no number. -/
inductive Filled : Value → List Value → Prop
  | length {x : Float} {n : Nat} (hx : (x == Float.ofNat n) = true) :
    Filled (.number x) (List.replicate n .nil)
  | value {v : Value} (hv : ∀ x, v ≠ .number x) : Filled v [v]

variable {s t : Store} {id : ObjectId} {k : Nat} {contents : List Value} {m : Machine} {ms : List Machine}
  {method : ArrayMethod} {arguments : List Value} {index v : Value}

namespace Machine

/-- What the next step stores at `k` in the array. -/
def stores? (id : ObjectId) (k : Nat) (m : Machine) : Option Value :=
  match m.call? with
  | some (.arrayMethod other .set, [index, v]) => if other = id ∧ index.isIndex k = true then some v else none
  | _ => none

/-- What has been stored last at `k`, and `initial` if nothing has been. -/
def lastStored (id : ObjectId) (k : Nat) (initial : Value) (ms : List Machine) : Value :=
  ((ms.filterMap (stores? id k)).getLast?).getD initial

/-- What an array that was filled with `initial` has after these states. -/
def contentsAfter (id : ObjectId) (initial : List Value) (ms : List Machine) : List Value :=
  initial.mapIdx fun k v => lastStored id k v ms

theorem lastStored_cons (m : Machine) (ms : List Machine) (initial : Value) :
    lastStored id k initial (m :: ms) = lastStored id k ((m.stores? id k).getD initial) ms := by
  unfold lastStored
  rw [List.filterMap_cons]
  cases m.stores? id k with
  | none => rfl
  | some v => rw [List.getLast?_cons, Option.getD_some, Option.getD_some]

theorem length_contentsAfter (ms : List Machine) : (contentsAfter id contents ms).length = contents.length :=
  List.length_mapIdx

theorem contentsAfter_nil : contentsAfter id contents [] = contents := by
  refine List.ext_getElem (length_contentsAfter _) fun k _ _ => ?_
  simp [contentsAfter, lastStored]

theorem contentsAfter_cons (m : Machine) (ms : List Machine) :
    contentsAfter id contents (m :: ms) = contentsAfter id (contentsAfter id contents [m]) ms := by
  unfold contentsAfter
  rw [List.mapIdx_mapIdx]
  congr 1
  funext k v
  simp [lastStored_cons]
  rfl

theorem contentsAfter_set (h : m.call? = some (.arrayMethod id .set, [index, v])) :
    contentsAfter id contents [m] = storeAt contents index v := by
  unfold contentsAfter storeAt
  congr 1
  funext k old
  rw [lastStored_cons]
  unfold stores?
  rw [h]
  by_cases hindex : index.isIndex k = true
  · simp [hindex, lastStored]
  · simp [hindex, lastStored]

theorem contentsAfter_other (h : ∀ index v, m.call? ≠ some (.arrayMethod id .set, [index, v])) :
    contentsAfter id contents [m] = contents := by
  have hnone : ∀ k, m.stores? id k = none := by
    intro k
    unfold stores?
    split
    · next other index v hcall =>
      rw [if_neg]
      rintro ⟨rfl, -⟩
      exact h index v hcall
    · rfl
  refine List.ext_getElem (length_contentsAfter _) fun k _ _ => ?_
  simp [contentsAfter, lastStored, hnone]

/-! ## Calls of array methods -/

theorem step_of_call?_arrayMethod (h : m.call? = some (.arrayMethod id method, arguments))
    (harity : arguments.length = method.arity) :
    m.step.control = .yield (callArrayMethod id method arguments m.state).1 ∧
      m.step.state.store.Remains (callArrayMethod id method arguments m.state).2.store := by
  obtain ⟨line, hstep⟩ := step_of_call? h
  unfold call at hstep
  have hvalue : (Value.arrayMethod id method).arity? = some method.arity := rfl
  rw [hvalue] at hstep
  dsimp only at hstep
  rw [if_pos harity] at hstep
  rw [hstep]
  exact ⟨rfl, Interpreter.remains_giveUp _ arguments (.arrayMethod id method)⟩

theorem step_of_set (h : m.call? = some (.arrayMethod id .set, [index, v])) :
    m.step.control = .yield (m.state.store.setElement id index v).1 ∧
      m.step.state.store.Remains (m.state.store.setElement id index v).2 := by
  obtain ⟨hcontrol, hremains⟩ := step_of_call?_arrayMethod h rfl
  exact ⟨hcontrol, hremains.trans (Store.remains_retain _ _)⟩

/-- A step stores nothing in the array but what a call of `set` stores there. -/
theorem lists_step (h : m.state.store.Lists id contents) (hlength : contents.length ≤ 2 ^ 53)
    (hfits : ∀ b, m.control.givesValue? = some b → Fits b m.stack) :
    m.step.state.store.Lists id (contentsAfter id contents [m]) := by
  by_cases hset : ∃ index v, m.call? = some (.arrayMethod id .set, [index, v])
  · obtain ⟨index, v, hcall⟩ := hset
    rw [contentsAfter_set hcall]
    exact (h.setElement hlength index v).remains (step_of_set hcall).2
  · simp only [not_exists] at hset
    rw [contentsAfter_other hset]
    refine Keeps.housekeeping (Store.housekeeping_lists id contents) (m := m) h hfits ?_
    rintro callee arguments hcall other index v rfl rfl _ _ hs
    exact hs.setElement_other (fun heq => hset index v (heq ▸ hcall)) index v

/-- So an array has in the end what has been stored last. -/
theorem lists_of_leads (h : s.Lists id contents) (hlength : contents.length ≤ 2 ^ 53) (hleads : s.Leads ms t)
    (hfits : ∀ m ∈ ms, ∀ b, m.control.givesValue? = some b → Fits b m.stack) :
    t.Lists id (contentsAfter id contents ms) := by
  induction ms generalizing s contents with
  | nil =>
    rw [contentsAfter_nil]
    exact h.remains hleads
  | cons m rest ih =>
    obtain ⟨hm, hrest⟩ := List.forall_mem_cons.1 hfits
    have hstep := lists_step (h.remains hleads.1) hlength hm
    rw [contentsAfter_cons]
    exact ih hstep (by rwa [length_contentsAfter]) hleads.2 hrest

/-! ## New arrays -/

theorem maxArrayLength_le : maxArrayLength ≤ 2 ^ 53 := by decide

theorem one_le_maxArrayLength : 1 ≤ maxArrayLength := by decide

theorem lists_of_callNative {i j : Interpreter}
    (h : i.callNative .array [v] = (.value (.array id), j)) :
    ∃ initial, Filled v initial ∧ initial.length ≤ maxArrayLength ∧ j.store.Lists id initial := by
  unfold Interpreter.callNative at h
  cases v with
  | number x =>
    cases hx : Number.toNat? x with
    | none => simp [hx] at h
    | some n =>
      by_cases hn : maxArrayLength < n
      · simp [hx, hn] at h
      · simp only [hx, if_neg hn] at h
        have hle := Nat.le_of_not_lt hn
        have hnew := Store.Lists.new i.store (List.replicate n .nil)
        rw [List.toArray_replicate] at hnew
        cases h
        refine ⟨_, .length ((Number.toNat?_eq_some_iff (hle.trans maxArrayLength_le)).1 hx), ?_, hnew⟩
        rwa [List.length_replicate]
  | _ =>
    cases h
    exact ⟨_, .value nofun, one_le_maxArrayLength, .new _ [_]⟩

/-- An array is made with what `Array` is called with. -/
theorem lists_of_made (hcall : m.call? = some (.native .array, [v])) (hmade : m.step.control = .yield (.array id)) :
    ∃ initial, Filled v initial ∧ initial.length ≤ maxArrayLength ∧ m.step.state.store.Lists id initial := by
  obtain ⟨line, hstep⟩ := step_of_call? hcall
  have harity : (Value.native .array).arity? = some 1 := rfl
  unfold call at hstep
  rw [harity] at hstep
  simp only [List.length_singleton, if_true] at hstep
  rw [hstep] at hmade ⊢
  split at hmade <;> cases hmade
  next i hvalue =>
    obtain ⟨initial, hfilled, hlength, hlists⟩ := lists_of_callNative hvalue
    exact ⟨initial, hfilled, hlength, hlists.remains (Store.remains_discardObjects i.store _)⟩

/-! ## What a state does with an array -/

/-- The array has these `contents` for whoever can get at it. Its properties are its methods and its length. What
is read and written is the element that the index is equal to, if there is one. -/
structure Serves (id : ObjectId) (contents : List Value) (m : Machine) : Prop where
  present : ∀ v, m.state.store.Accessible (m.control.held ++ heldAll m.stack) v → v.object? = some id →
    m.state.store.elements? id = some contents.toArray
  property : ∀ name stack i, m = ⟨.yield (.array id), .get name :: stack, i⟩ →
    (name.text = "get" → m.step.control = .yield (.arrayMethod id .get)) ∧
      (name.text = "set" → m.step.control = .yield (.arrayMethod id .set)) ∧
      (name.text = "length" → m.step.control = .yield (.number (Float.ofNat contents.length)))
  get : ∀ index, m.call? = some (.arrayMethod id .get, [index]) →
    (∀ k v, contents[k]? = some v → index.isIndex k = true → m.step.control = .yield v) ∧
      ((∀ k < contents.length, index.isIndex k = false) → m.step.control = .yield .nil)
  set : ∀ index v, m.call? = some (.arrayMethod id .set, [index, v]) →
    (∀ k < contents.length, index.isIndex k = true →
        m.step.control = .yield v ∧ m.step.state.store.Lists id (contents.set k v)) ∧
      ((∀ k < contents.length, index.isIndex k = false) →
        m.step.control = .yield .nil ∧ m.step.state.store.Lists id contents)
  unchanged : (∀ index v, m.call? ≠ some (.arrayMethod id .set, [index, v])) →
    m.step.state.store.Lists id contents

theorem serves_of_lists (h : m.state.store.Lists id contents) (hlength : contents.length ≤ 2 ^ 53)
    (hfits : ∀ b, m.control.givesValue? = some b → Fits b m.stack)
    (hfind : ∀ v, m.state.store.Accessible (m.control.held ++ heldAll m.stack) v → v.object? = some id →
      ∃ object, m.state.store.heap.find? id = some object) : m.Serves id contents := by
  have hpresent : ∀ v, m.state.store.Accessible (m.control.held ++ heldAll m.stack) v →
      v.object? = some id → m.state.store.elements? id = some contents.toArray := by
    intro v hv hid
    obtain ⟨object, ho⟩ := hfind v hv hid
    have hp : m.state.store.heap.payload? id = some object.payload := by
      unfold Heap.payload?
      rw [ho]
      rfl
    rw [Store.elements?_eq_some_iff, hp, h.payload _ hp]
  have hcalled : ∀ method arguments, m.call? = some (.arrayMethod id method, arguments) →
      m.state.store.elements? id = some contents.toArray :=
    fun method arguments hcall => hpresent _ (.held (held_of_call? hcall)) rfl
  have hstep := lists_step h hlength hfits
  refine ⟨hpresent, ?_, fun index hcall => ?_, fun index v hcall => ?_, fun hother => ?_⟩
  · rintro name stack i rfl
    have he := hpresent (.array id) (.held List.mem_cons_self) rfl
    have hsize : i.store.length id = contents.length := by
      unfold Store.length
      rw [he]
      rfl
    refine ⟨fun hname => ?_, fun hname => ?_, fun hname => ?_⟩
    · simp [step, yieldStep, Interpreter.property, hname, ofResult]
    · simp [step, yieldStep, Interpreter.property, hname, ofResult]
    · simp [step, yieldStep, Interpreter.property, hname, ofResult, hsize]
  · have he := hcalled _ _ hcall
    have hcontrol : m.step.control = .yield (m.state.store.element id index) :=
      (step_of_call?_arrayMethod hcall rfl).1
    rw [hcontrol]
    refine ⟨fun k v hv hindex => ?_, fun hindex => ?_⟩
    · rw [Store.element_of_isIndex he hlength hv hindex]
    · rw [Store.element_of_not_isIndex he hlength hindex]
  · have he := hcalled _ _ hcall
    rw [contentsAfter_set hcall] at hstep
    rw [(step_of_set hcall).1]
    refine ⟨fun k hk hindex => ?_, fun hindex => ?_⟩
    · rw [Store.setElement_of_isIndex he hlength hk hindex, ← storeAt_of_isIndex hlength hk hindex]
      exact ⟨rfl, hstep⟩
    · rw [Store.setElement_of_not_isIndex he hlength hindex]
      rw [storeAt_of_not_isIndex hindex] at hstep
      exact ⟨rfl, hstep⟩
  · rwa [contentsAfter_other hother] at hstep

end Machine

namespace Session

open Machine (Fits Serves contentsAfter)

/-- Whatever a session is fed, an array that has been made by a call of `Array` never gets longer or shorter.
From then on each state finds in it what has been stored last at each place, and what it was filled with at
the others. What a state reads or writes is the element that the index is equal to. With any other index it
reads `nil`, and stores nothing. -/
theorem arrays_of_history (sink : Sink) (clock : Clock) (fuel : Nat) (inputs : List (Mode × String))
    {before between after : List Machine} {m n : Machine} {argument : Value} {id : ObjectId}
    (hsplit : (Session.new sink clock).history fuel inputs = before ++ m :: (between ++ n :: after))
    (hcall : m.call? = some (.native .array, [argument])) (hmade : m.step.control = .yield (.array id)) :
    ∃ initial, Filled argument initial ∧ initial.length ≤ maxArrayLength ∧
      (contentsAfter id initial between).length = initial.length ∧
      n.state.store.Lists id (contentsAfter id initial between) ∧
      n.Serves id (contentsAfter id initial between) := by
  have htwin : ∀ q ∈ between ++ n :: after, ∃ P ρ q', Machine.Twin P ρ q q' := by
    intro q hq
    refine (history_new_alongside sink clock fuel inputs).twin ?_
    rw [hsplit]
    exact List.mem_append_right _ (List.mem_cons_of_mem _ hq)
  have hfits : ∀ q ∈ between ++ n :: after, ∀ b, q.control.givesValue? = some b → Fits b q.stack := by
    intro q hq
    obtain ⟨_, _, _, ht⟩ := htwin q hq
    exact ht.fits
  have hn : n ∈ between ++ n :: after := List.mem_append_right _ List.mem_cons_self
  obtain ⟨initial, hfilled, hle, hlists⟩ := Machine.lists_of_made hcall hmade
  have hlength : initial.length ≤ 2 ^ 53 := hle.trans Machine.maxArrayLength_le
  have hleads := ((successive_history fuel _ inputs).beyond hsplit).split rfl
  have hafter := Machine.lists_of_leads hlists hlength hleads fun q hq => hfits q (List.mem_append_left _ hq)
  have hsame : (contentsAfter id initial between).length = initial.length := Machine.length_contentsAfter between
  refine ⟨initial, hfilled, hle, hsame, hafter, ?_⟩
  obtain ⟨_, _, _, ht⟩ := htwin n hn
  exact Machine.serves_of_lists hafter (by rwa [hsame]) (hfits n hn) fun v hv hid =>
    ht.setting.twin.store.healthy.find? hv hid

theorem exists_later_of_tails {p q : Machine → Bool}
    (h : (ms.tails.any fun tail => tail.head?.any p && tail.tail.any q) = true) :
    ∃ before m between n after, ms = before ++ m :: (between ++ n :: after) ∧ p m = true ∧ q n = true := by
  obtain ⟨tail, htail, hany⟩ := List.any_eq_true.1 h
  obtain ⟨before, hbefore⟩ := (List.mem_tails _ _).1 htail
  obtain ⟨hp, hq⟩ := Bool.and_eq_true_iff.1 hany
  rcases tail with _ | ⟨m, rest⟩
  · cases hp
  · obtain ⟨n, hn, hq⟩ := List.any_eq_true.1 hq
    obtain ⟨between, after, hrest⟩ := List.append_of_mem hn
    exact ⟨before, m, between, n, after, by rw [← hbefore, ← hrest]; rfl, hp, hq⟩

theorem eq_yield_array {c : Control} (hgives : c.givesValue? = some true)
    (hheld : (c.held.any fun v => v.same (.array id)) = true) : c = .yield (.array id) := by
  cases c with
  | yield v =>
    cases v <;> simp [Control.held, Value.same] at hheld
    rw [hheld]
  | eval e => cases hheld
  | _ => cases hgives

/-- An array is written to through one reference, and read through a method that was taken from another one. -/
theorem arrays_of_history_shared :
    let s := Session.new {} ⟨fun _ => 0, 0, 0⟩
    let inputs := [(Mode.program, "var a = Array(2); var b = a; var get = a.get; b.set(1, true); get(1);")]
    ∃ before m between n after argument initial,
      s.history 99 inputs = before ++ m :: (between ++ n :: after) ∧
      m.call? = some (.native .array, [argument]) ∧ m.step.control = .yield (.array 0) ∧ Filled argument initial ∧
      (n.call?.any fun c => c.1.same (.arrayMethod 0 .get)) = true ∧
      (n.step.control.held.any fun v => v.same (.boolean true)) = true ∧
      n.Serves 0 (contentsAfter 0 initial between) := by
  intro s inputs
  have hsome : ((s.history 99 inputs).tails.any fun tail =>
      (tail.head?.any fun m =>
        (m.call?.any fun c => c.1.same (.native .array) && c.2.length == 1) &&
          m.step.control.givesValue? == some true && m.step.control.held.any fun v => v.same (.array 0)) &&
      tail.tail.any fun n =>
        (n.call?.any fun c => c.1.same (.arrayMethod 0 .get)) &&
          n.step.control.held.any fun v => v.same (.boolean true)) = true := by decide +kernel
  obtain ⟨before, m, between, n, after, hsplit, hmakes, hreads⟩ := exists_later_of_tails hsome
  simp only [Bool.and_eq_true, Option.any_eq_true, beq_iff_eq] at hmakes hreads
  obtain ⟨⟨⟨⟨callee, arguments⟩, hcall, hcallee, hone⟩, hgives⟩, hheld⟩ := hmakes
  obtain ⟨argument, rfl⟩ := List.length_eq_one_iff.1 hone
  have hmade := eq_yield_array hgives hheld
  have harray : callee = .native .array := by
    cases callee <;> simp [Value.same] at hcallee
    rw [hcallee]
  subst harray
  obtain ⟨initial, hfilled, -, -, -, hserves⟩ :=
    arrays_of_history {} ⟨fun _ => 0, 0, 0⟩ 99 inputs hsplit hcall hmade
  obtain ⟨hget, hgiven⟩ := hreads
  exact ⟨before, m, between, n, after, argument, initial, hsplit, hcall, hmade, hfilled,
    (Option.any_eq_true _ _).2 hget, hgiven, hserves⟩

end Session
end Lox
