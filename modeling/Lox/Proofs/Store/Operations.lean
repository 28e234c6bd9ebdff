import Lox.Proofs.Store.Intact

/-!
# Operations on a healthy store

A lemma for each operation: a value that the operation takes over is no longer held afterwards,
and one that it gives back is. Which values are held is a list up to order.
-/
namespace Lox

/-- Sets a field, if the object is an instance. -/
def Payload.setField (name : String) (v : Value) : Payload → Payload
  | .instance parent fields => .instance parent (fields.insert name v)
  | payload => payload

/-- Sets an element, if the object is an array. -/
def Payload.setElement (i : Nat) (v : Value) : Payload → Payload
  | .array elements => .array (elements.setIfInBounds i v)
  | payload => payload

namespace Heap

theorem Within.payload_of_find? {heap whole : Heap} (hw : heap.Within whole) {id : ObjectId}
    {object : Object} {p : Payload} (ho : heap.find? id = some object)
    (hp : whole.payload? id = some p) : heap.payload? id = some p := by
  have hpayload : heap.payload? id = some object.payload := by
    unfold payload?
    rw [ho]
    rfl
  have hwhole := hw.payload id _ hpayload
  rw [hp] at hwhole
  rw [hpayload, hwhole]

theorem find?_of_payload? {heap : Heap} {id : ObjectId} {p : Payload}
    (hp : heap.payload? id = some p) : ∃ object, heap.find? id = some object ∧ object.payload = p :=
  Option.map_eq_some_iff.1 hp

end Heap

namespace Store

variable {s : Store} {extra ids : List ObjectId} {held held' : List Value}
  {acts : List Activation} {v : Value}

/-! ## What is held -/

theorem Healthy.rearrange {extra' : List ObjectId} (hh : s.Healthy extra held acts)
    (hcount : ∀ id, (extra' ++ Value.objects held').count id ≤
      (extra ++ Value.objects held).count id)
    (hmem : ∀ w ∈ held', s.Accessible held w) : s.Healthy extra' held' acts :=
  ⟨hh.accounted.mono hcount fun _ => Nat.le_refl _,
    hh.intact.of_alike (Arena.Alike.refl _) fun w hw => hh.intact.supported w (hw.of_held hmem)⟩

theorem Accessible.eq_or_of_cons (hobject : v.object? = none) {w : Value}
    (hw : s.Accessible (v :: held) w) : w = v ∨ s.Accessible held w := by
  induction hw with
  | held h =>
    obtain rfl | h := List.mem_cons.1 h
    · exact .inl rfl
    · exact .inr (.held h)
  | bound hf hv => exact .inr (.bound hf hv)
  | inside _ hid hp hw ih =>
    obtain rfl | ih := ih
    · rw [hobject] at hid
      cases hid
    · exact .inr (.inside ih hid hp hw)

/-- A value that refers to no object can be held besides. -/
theorem Healthy.hold (hh : s.Healthy extra held acts) (hobject : v.object? = none)
    (hv : s.Supports v) : s.Healthy extra (v :: held) acts := by
  refine ⟨hh.accounted.mono (fun id => ?_) fun _ => Nat.le_refl _,
    hh.intact.of_alike (Arena.Alike.refl _) fun w hw => ?_⟩
  · rw [List.count_append, List.count_append, count_objects_cons, objects_singleton, hobject]
    simp
  · obtain rfl | hw := hw.eq_or_of_cons hobject
    · exact hv
    · exact hh.intact.supported w hw

theorem Accessible.of_traded {w x : Value} (hobject : w.object? = v.object?)
    (hx : s.Accessible (w :: held) x) : x = w ∨ s.Accessible (v :: held) x := by
  induction hx with
  | held h =>
    obtain rfl | h := List.mem_cons.1 h
    · exact .inl rfl
    · exact .inr (.held (List.mem_cons_of_mem _ h))
  | bound hf hv => exact .inr (.bound hf hv)
  | inside _ hid hp hw ih =>
    obtain rfl | ih := ih
    · exact .inr (.inside (.held List.mem_cons_self) (hobject.symm.trans hid) hp hw)
    · exact .inr (.inside ih hid hp hw)

/-- A value can be held in place of another that refers to the same object. -/
theorem Healthy.trade {w : Value} (hh : s.Healthy extra (v :: held) acts)
    (hobject : w.object? = v.object?) (hw : s.Supports w) : s.Healthy extra (w :: held) acts := by
  refine ⟨hh.accounted.mono (fun id => ?_) fun _ => Nat.le_refl _,
    hh.intact.of_alike (Arena.Alike.refl _) fun x hx => ?_⟩
  · rw [List.count_append, List.count_append, count_objects_cons w, count_objects_cons v,
      objects_singleton, objects_singleton, hobject]
  · obtain rfl | hx := hx.of_traded hobject
    · exact hw
    · exact hh.intact.supported x hx

/-! ## References -/

theorem Healthy.discardObjects (hh : s.Healthy (ids ++ extra) held acts) :
    (s.discardObjects ids).Healthy extra held acts := by
  have hwithin := Heap.within_discard s.heap s.queue ids
  have haccounted := hh.accounted
  rw [List.append_assoc] at haccounted
  have ha := haccounted.discardObjects
  refine ⟨ha, hh.intact.of_alike (Arena.Alike.refl _) fun w hw => ?_⟩
  have hacc : s.Accessible held w := hw.of_within (fun h f hf w hw => .bound hf hw)
    (fun id p hp v hid hv w hw => .inside hv hid (hwithin.payload id p hp) hw) fun w hw => .held hw
  refine (hh.intact.supported w hacc).of_alike (Arena.Alike.refl _) fun id h hid hp => ?_
  obtain ⟨object, ho⟩ := ha.find?_of_accessible (fun _ h => List.mem_append_right _ h) hw hid
  exact hwithin.payload_of_find? ho hp

theorem Healthy.discardAll {values : List Value} (hh : s.Healthy extra (values ++ held) acts) :
    (s.discardAll values).Healthy extra held acts := by
  refine Healthy.discardObjects (hh.rearrange (fun id => ?_)
    fun w hw => .held (List.mem_append_right _ hw))
  rw [List.count_append, List.count_append, List.count_append, count_objects_append]
  omega

theorem discardAll_nil (s : Store) : s.discardAll [] = s := by
  show s.discardObjects [] = s
  unfold Store.discardObjects
  rw [Heap.discard_nil]

theorem discardAll_singleton (s : Store) (v : Value) : s.discardAll [v] = s.discard v := by
  unfold Store.discardAll Store.discard
  rw [objects_singleton]
  cases v.object? with
  | none => exact discardAll_nil s
  | some id => rfl

theorem arena_discard (s : Store) (v : Value) : (s.discard v).arena = s.arena := by
  rw [← discardAll_singleton]
  rfl

theorem Healthy.discard (hh : s.Healthy extra (v :: held) acts) :
    (s.discard v).Healthy extra held acts := by
  rw [← discardAll_singleton]
  exact hh.discardAll

/-- Somebody who can get at a value can hold a copy of it. -/
theorem Healthy.retain (hh : s.Healthy extra held acts) (hv : s.Accessible held v) :
    (s.retain v).Healthy extra (v :: held) acts := by
  have hwithin : (s.retain v).heap.Within s.heap := by
    unfold Store.retain
    split
    · exact Heap.within_retain s.heap _
    · exact Heap.Within.refl _
  have harena : (s.retain v).arena = s.arena := by
    unfold Store.retain
    split <;> rfl
  have ha : (s.retain v).Accounted (extra ++ Value.objects (v :: held))
      (acts.map Activation.frame) := by
    refine (hh.accounted.retain fun id hid => hh.find? hv hid).mono (fun id => ?_)
      fun _ => Nat.le_refl _
    simp only [List.count_append]
    rw [count_objects_cons, objects_singleton]
    omega
  refine ⟨ha, hh.intact.of_alike (harena ▸ Arena.Alike.refl _) fun w hw => ?_⟩
  have hacc : s.Accessible held w := by
    refine hw.of_within (fun h f hf w hw => .bound (harena ▸ hf) hw)
      (fun id p hp v hid hv w hw => .inside hv hid (hwithin.payload id p hp) hw) fun w hw => ?_
    obtain rfl | hw := List.mem_cons.1 hw
    · exact hv
    · exact .held hw
  refine (hh.intact.supported w hacc).of_alike (harena ▸ Arena.Alike.refl _) fun id h hid hp => ?_
  obtain ⟨object, ho⟩ := ha.find?_of_accessible (fun _ h => List.mem_append_right _ h) hw hid
  exact hwithin.payload_of_find? ho hp

/-! ## Bindings -/

theorem define_of_none {h : Handle} {name : String} (hf : s.arena.frame? h = none) :
    s.define h name v = s.discard v := by
  unfold Store.define
  rw [hf]

theorem define_of_some {h : Handle} {name : String} {frame : Frame}
    (hf : s.arena.frame? h = some frame) :
    s.define h name v =
      ({ s with arena := s.arena.put h { frame with bindings := frame.bindings.insert name v } } :
        Store).discardAll (frame.bindings.find? name).toList := by
  unfold Store.define
  rw [hf]
  dsimp only
  rw [Arena.modifySlot_eq_put hf]
  cases frame.bindings.find? name with
  | none => exact (discardAll_nil _).symm
  | some old => exact (discardAll_singleton _ old).symm

theorem frame?_define_of_ne {g h : Handle} (hne : g ≠ h) (name : String) (v : Value) :
    (s.define h name v).arena.frame? g = s.arena.frame? g := by
  cases hf : s.arena.frame? h with
  | none => rw [define_of_none hf, arena_discard]
  | some f =>
    rw [define_of_some hf]
    exact (Arena.frame?_put hf _ g).trans (if_neg hne)

theorem frame?_assign_of_ne {g h : Handle} (hne : g ≠ h) (name : String) (v : Value) :
    (s.assign h name v).2.arena.frame? g = s.arena.frame? g := by
  unfold Store.assign
  split
  · exact frame?_define_of_ne hne name v
  · rw [arena_discard]

/-- The frame takes the value over. -/
theorem Healthy.define (hh : s.Healthy extra (v :: held) acts) (h : Handle) (name : String) :
    (s.define h name v).Healthy extra held acts := by
  cases hf : s.arena.frame? h with
  | none =>
    rw [define_of_none hf]
    exact hh.discard
  | some frame =>
    rw [define_of_some hf]
    have halike := Arena.Alike.put hf (n := { frame with bindings := frame.bindings.insert name v })
      rfl rfl
    refine Healthy.discardAll ⟨?_, hh.intact.of_alike halike fun w hw => ?_⟩
    · refine hh.accounted.rebind hf fun id => ?_
      have hinsert := count_objects_insert frame.bindings name v id
      rw [List.count_append, List.count_append, count_objects_append, count_objects_cons v held]
      dsimp only
      omega
    · have hacc : s.Accessible (v :: held) w := by
        refine hw.of_within (fun g f hg w hw => ?_)
          (fun id p hp v hid hv w hw => .inside hv hid hp hw) fun w hw => ?_
        · obtain ⟨-, rfl⟩ | hg := Arena.frame?_put_cases hf hg
          · obtain rfl | hw := mem_values_insert hw
            · exact .held List.mem_cons_self
            · exact .bound hf hw
          · exact .bound hg hw
        · obtain hw | hw := List.mem_append.1 hw
          · exact .bound hf (mem_values_of_find? (Option.mem_toList.1 hw))
          · exact .held (List.mem_cons_of_mem _ hw)
      exact (hh.intact.supported w hacc).of_alike halike fun _ _ _ hp => hp

/-! ## Frames -/

theorem frame?_create (hh : s.Healthy extra held acts) (e h : Handle) :
    (s.create e).2.arena.frame? h =
      if h = (s.create e).1 then some ⟨Bindings.empty, some e, false⟩ else s.arena.frame? h :=
  Arena.frame?_create hh.accounted.recycles e h

/-- Frames are added beside the others. -/
theorem frame?_of_create (hh : s.Healthy extra held acts) (e : Handle) {h : Handle} {f : Frame}
    (hf : s.arena.frame? h = some f) : (s.create e).2.arena.frame? h = some f := by
  rw [frame?_create hh, if_neg]
  · exact hf
  · rintro rfl
    exact Arena.not_issued_create hh.accounted.recycles e (Arena.issued_of_frame? hf)

theorem captured_create (hh : s.Healthy extra held acts) (e : Handle) {h : Handle}
    (hc : s.arena.Captured h) : (s.create e).2.arena.Captured h := by
  obtain ⟨f, hf, hc⟩ := hc
  exact ⟨f, frame?_of_create hh e hf, hc⟩

theorem contains_create (hh : s.Healthy extra held acts) (e : Handle) {h : Handle}
    (hc : s.arena.contains h = true) : (s.create e).2.arena.contains h = true := by
  obtain ⟨f, hf⟩ := Arena.contains_iff.1 hc
  exact Arena.contains_iff.2 ⟨f, frame?_of_create hh e hf⟩

theorem Accessible.create (hh : s.Healthy extra held acts) (e : Handle) {w : Value}
    (hw : s.Accessible held' w) : (s.create e).2.Accessible held' w := by
  induction hw with
  | held h => exact .held h
  | bound hf hv => exact .bound (frame?_of_create hh e hf) hv
  | inside _ hid hp hw ih => exact .inside ih hid hp hw

/-- A new frame binds nothing, so nothing more can be got at. -/
theorem Accessible.of_create (hh : s.Healthy extra held acts) {e : Handle} {w : Value}
    (hw : (s.create e).2.Accessible held' w) : s.Accessible held' w := by
  refine hw.of_within (fun h f hf w hw => ?_)
    (fun id p hp v hid hv w hw => .inside hv hid hp hw) fun w hw => .held hw
  obtain ⟨rfl, rfl⟩ | hf := Arena.frame?_create_cases hh.accounted.recycles e hf
  · cases hw
  · exact .bound hf hw

/-- An activation is entered in a new frame. -/
theorem Healthy.create (hh : s.Healthy extra held acts) {e : Handle} (callee : Option Function)
    (hlive : s.arena.contains e = true)
    (hinside : s.arena.Captured e ∨ (∃ b ∈ acts, b.frame = e) ∨ ∃ g, callee = some g ∧ g.closure = e) :
    (s.create e).2.Healthy extra held (⟨(s.create e).1, callee⟩ :: acts) := by
  have hnew : (s.create e).2.arena.frame? (s.create e).1 = some ⟨Bindings.empty, some e, false⟩ :=
    (frame?_create hh e _).trans (if_pos rfl)
  refine ⟨hh.accounted.create e, ?_, fun h f e' hf he => ?_, fun h f e' hf hc he => ?_,
    fun h f e' hr hf he => ?_, fun a ha => ?_, fun a outer hs f e' hf he => ?_, fun w hw => ?_⟩
  · obtain ⟨f, hf, hc, he⟩ := hh.intact.globals
    exact ⟨f, frame?_of_create hh e hf, hc, he⟩
  · obtain ⟨rfl, rfl⟩ | hf := Arena.frame?_create_cases hh.accounted.recycles e hf
    · cases he
      exact contains_create hh e hlive
    · exact contains_create hh e (hh.intact.live h f e' hf he)
  · obtain ⟨rfl, rfl⟩ | hf := Arena.frame?_create_cases hh.accounted.recycles e hf
    · cases hc
    · exact captured_create hh e (hh.intact.closed h f e' hf hc he)
  · obtain ⟨rfl, rfl⟩ | hf := Arena.frame?_create_cases hh.accounted.recycles e hf
    · exact .inr ⟨_, List.mem_cons_self, rfl⟩
    · rw [show (s.create e).2.arena.reclaims = s.arena.reclaims from
        Arena.reclaims_create s.arena e] at hr
      obtain hc | ⟨a, ha, rfl⟩ := hh.intact.active h f e' hr hf he
      · exact .inl (captured_create hh e hc)
      · exact .inr ⟨a, List.mem_cons_of_mem _ ha, rfl⟩
  · obtain rfl | ha := List.mem_cons.1 ha
    · exact Arena.contains_iff.2 ⟨_, hnew⟩
    · exact contains_create hh e (hh.intact.entered a ha)
  · obtain hs | hs := List.suffix_cons_iff.1 hs
    · cases hs
      rw [hnew] at hf
      cases hf
      cases he
      exact hinside.imp (captured_create hh e) id
    · have hmem : a ∈ acts := hs.subset List.mem_cons_self
      obtain ⟨f', hf'⟩ := Arena.contains_iff.1 (hh.intact.entered a hmem)
      rw [frame?_of_create hh e hf'] at hf
      cases hf
      exact (hh.intact.nested a outer hs f e' hf' he).imp (captured_create hh e) id
  · exact (hh.intact.supported w (hw.of_create hh)).mono (fun _ => captured_create hh e)
      fun id h _ hp hc => ⟨hp, contains_create hh e hc⟩

theorem captured_capture {h : Handle} (hc : s.arena.contains h = true) :
    (s.capture h).arena.Captured h :=
  Arena.captured_capture hc

theorem Healthy.capture (hh : s.Healthy extra held acts) (h : Handle) :
    (s.capture h).Healthy extra held acts := by
  have hframe : ∀ g f, (s.capture h).arena.frame? g = some f → ∃ f', s.arena.frame? g = some f' ∧
      f'.bindings = f.bindings ∧ f'.enclosing = f.enclosing := by
    intro g f hf
    obtain hg | ⟨f', hf', hg⟩ := Arena.frame?_capture s.arena h g
    · exact ⟨f, hg.symm.trans hf, rfl, rfl⟩
    · have heq := Option.some.inj (hg.symm.trans hf)
      exact ⟨f', hf', heq ▸ rfl, heq ▸ rfl⟩
  have hcaptured : ∀ g, s.arena.Captured g → (s.capture h).arena.Captured g :=
    fun _ hc => Arena.Captured.capture hc h
  refine ⟨hh.accounted.capture h, ?_, fun g f e hf he => ?_, fun g f e hf hc he => ?_,
    fun g f e hr hf he => ?_, fun a ha => ?_, fun a outer hs f e hf he => ?_, fun w hw => ?_⟩
  · obtain ⟨f, hf, hc, he⟩ := hh.intact.globals
    obtain hg | ⟨f', hf', hg⟩ := Arena.frame?_capture s.arena h .globals
    · exact ⟨f, hg.trans hf, hc, he⟩
    · rw [hf] at hf'
      cases hf'
      exact ⟨_, hg, rfl, he⟩
  · obtain ⟨f', hf', -, he'⟩ := hframe g f hf
    exact (Arena.contains_capture s.arena h e).trans (hh.intact.live g f' e hf' (he'.trans he))
  · exact Arena.captured_of_capture hh.intact.live
      (fun g f e hf hc he => .inr (hh.intact.closed g f e hf hc he)) g e f hf hc he
  · rw [show (s.capture h).arena.reclaims = s.arena.reclaims from
      Arena.reclaims_capture s.arena h] at hr
    obtain ⟨f', hf', -, he'⟩ := hframe g f hf
    exact (hh.intact.active g f' e hr hf' (he'.trans he)).imp_left (hcaptured e)
  · exact (Arena.contains_capture s.arena h a.frame).trans (hh.intact.entered a ha)
  · obtain ⟨f', hf', -, he'⟩ := hframe a.frame f hf
    exact (hh.intact.nested a outer hs f' e hf' (he'.trans he)).imp_left (hcaptured e)
  · have hacc : s.Accessible held w := by
      refine hw.of_within (fun g f hf w hw => ?_)
        (fun id p hp v hid hv w hw => .inside hv hid hp hw) fun w hw => .held hw
      obtain ⟨f', hf', hb, -⟩ := hframe g f hf
      exact .bound hf' (hb ▸ hw)
    exact (hh.intact.supported w hacc).mono hcaptured
      fun id g _ hp hc => ⟨hp, (Arena.contains_capture s.arena h g).trans hc⟩

end Store
end Lox
