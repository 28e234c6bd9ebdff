import Lox.Proofs.Reclamation.Frames

/-!
# Twin functions, classes and objects

Objects get the same addresses on both sides, functions and classes the same stamps.
-/
namespace Lox.Store

variable {P : Handle → Handle → Prop} {ρ : Renaming} {s t u w : Store} {extra : List ObjectId}
  {held held' : List Value} {acts acts' : List Activation} {v : Value}

namespace Mirror

/-- A new object on both sides. -/
theorem allocate {p : Payload} (hm : Mirror P ρ s u held) (hh : s.Healthy extra held acts)
    (hheld : held' ⊆ held) (hvalues : ∀ w ∈ p.values, s.Accessible held w ∨ w.object? = none)
    (hobject : v.object? = some (s.allocate p).1) :
    Mirror P ρ (s.allocate p).2 (u.allocate (p.rename ρ)).2 (v :: held') := by
  have hid : (u.allocate (p.rename ρ)).1 = (s.allocate p).1 := hm.size
  refine ⟨hm.globals, hm.frames, hm.apart, hm.paired, fun x id q hx hxid hq => ?_, ?_, hm.nextStamp⟩
  · rw [payload?_allocate] at hq ⊢
    rw [hid]
    split at hq
    · next hnew =>
      cases hq
      exact if_pos hnew
    · next hold =>
      rw [if_neg hold]
      obtain rfl | hx | hx := hh.accessible_of_allocate (Q := fun w => w.object? = none) hheld
        hvalues (fun _ h => h) hobject hx
      · rw [hobject] at hxid
        exact absurd (Option.some.inj hxid).symm hold
      · exact hm.objects x id q hx hxid hq
      · rw [hx] at hxid
        cases hxid
  · change (u.heap.objects.push _).size = (s.heap.objects.push _).size
    rw [Array.size_push, Array.size_push, hm.size]

theorem payload?_modify {heap : Heap} {id : ObjectId} {p : Payload} (f : Payload → Payload)
    (hp : heap.payload? id = some p) (other : ObjectId) :
    (heap.modify id f).payload? other = if other = id then some (f p) else heap.payload? other := by
  obtain ⟨object, ho, rfl⟩ := Heap.find?_of_payload? hp
  rw [Heap.modify_eq_put ho]
  unfold Heap.payload?
  rw [Heap.find?_put ho]
  split <;> rfl

/-- An object changes on both sides. -/
theorem refill {id : ObjectId} {p : Payload} {f f' : Payload → Payload} {u' : Value}
    (hm : Mirror P ρ s u held) (held' : List Value) (hu : s.Accessible held u') (hid : u'.object? = some id)
    (hp : s.heap.payload? id = some p) (hf : f' (p.rename ρ) = (f p).rename ρ)
    (hheld : ∀ w ∈ held', s.Accessible held w) (hvalues : ∀ w ∈ (f p).values, s.Accessible held w) :
    Mirror P ρ { s with heap := s.heap.modify id f } { u with heap := u.heap.modify id f' } held' := by
  have hpu := hm.objects u' id p hu hid hp
  refine ⟨hm.globals, hm.frames, hm.apart, hm.paired, fun x other q hx hxid hq => ?_, ?_, hm.nextStamp⟩
  · have hacc : s.Accessible held x := by
      refine hx.of_within (fun h f hf w hw => .bound hf hw) (fun other p' hp' v hid hv w hw => ?_) hheld
      dsimp only at hp'
      rw [payload?_modify f hp] at hp'
      split at hp'
      · cases hp'
        exact hvalues w hw
      · exact .inside hv hid hp' hw
    dsimp only at hq ⊢
    rw [payload?_modify f hp] at hq
    rw [payload?_modify f' hpu]
    split at hq
    · next heq =>
      cases hq
      rw [if_pos heq, hf]
    · next hne =>
      rw [if_neg hne]
      exact hm.objects x other q hacc hxid hq
  · change (u.heap.objects.modify id _).size = (s.heap.objects.modify id _).size
    rw [Array.size_modify, Array.size_modify]
    exact hm.size

end Mirror

namespace Twin

/-! ## Functions and classes -/

theorem stamp (ht : Twin P ρ s u extra held acts) :
    Twin P ρ { s with heap := s.heap.stamp.2 } { u with heap := u.heap.stamp.2 } extra held acts :=
  ⟨ht.healthy.stamp _, ht.shadow.stamp _, ht.mirror.congr (fun _ f hf => ⟨f, hf, rfl, rfl⟩)
    (fun _ f hf => ⟨f, hf, rfl, rfl⟩) rfl rfl (congrArg (· + 1) ht.mirror.nextStamp), ht.keeps⟩

theorem closeOver (ht : Twin P ρ s u extra held acts) (decl : FunctionDecl) {closure : Handle}
    (isInitializer : Bool) (hs : s.arena.Captured closure) (hu : u.arena.Captured (ρ closure)) :
    (u.closeOver decl (ρ closure) isInitializer).1 =
        (s.closeOver decl closure isInitializer).1.rename ρ ∧
      Twin P ρ (s.closeOver decl closure isInitializer).2
        (u.closeOver decl (ρ closure) isInitializer).2 extra
        (.function (s.closeOver decl closure isInitializer).1 :: held) acts := by
  refine ⟨?_, ht.stamp.hold rfl hs hu⟩
  change (⟨u.heap.nextStamp, decl, ρ closure, isInitializer, none⟩ : Function) =
    ⟨s.heap.nextStamp, decl, ρ closure, isInitializer, none⟩
  rw [ht.mirror.nextStamp]

theorem makeClass (ht : Twin P ρ s u extra held acts) (name : String)
    (superclass : Option Class) {methods : Bindings Function}
    (hsuper : ∀ c, superclass = some c → s.Supports (.classObject c) ∧
      u.Supports (.classObject (c.rename ρ)))
    (hmethods : ∀ f ∈ methods.values, s.arena.Captured f.closure ∧ u.arena.Captured (ρ f.closure)) :
    (u.makeClass name (superclass.map (Class.rename ρ)) (methods.map (Function.rename ρ))).1 =
        (s.makeClass name superclass methods).1.rename ρ ∧
      Twin P ρ (s.makeClass name superclass methods).2
        (u.makeClass name (superclass.map (Class.rename ρ)) (methods.map (Function.rename ρ))).2 extra
        (.classObject (s.makeClass name superclass methods).1 :: held) acts := by
  have hclass : (u.makeClass name (superclass.map (Class.rename ρ)) (methods.map (Function.rename ρ))).1 =
      (s.makeClass name superclass methods).1.rename ρ := by
    change (⟨u.heap.nextStamp, name, _, _⟩ : Class) = Class.rename ρ ⟨s.heap.nextStamp, name, superclass, methods⟩
    rw [ht.mirror.nextStamp]
    cases superclass <;> rfl
  have hs := (ht.healthy.makeClass name superclass methods (fun c hc => (hsuper c hc).1)
    fun f hf => (hmethods f hf).1).intact.supported _ (.held List.mem_cons_self)
  have hu := (ht.shadow.makeClass name (superclass.map (Class.rename ρ))
    (methods.map (Function.rename ρ)) (fun c hc => ?_) fun f hf => ?_).intact.supported _
    (.held List.mem_cons_self)
  · rw [hclass] at hu
    exact ⟨hclass, ht.stamp.hold rfl hs hu⟩
  · obtain ⟨d, hd, rfl⟩ := Option.map_eq_some_iff.1 hc
    exact (hsuper d hd).2
  · rw [Bindings.values_map] at hf
    obtain ⟨g, hg, rfl⟩ := List.mem_map.1 hf
    exact (hmethods g hg).2

/-! ## Objects -/

theorem count_children_rename (ρ : Renaming) (p : Payload) (id : ObjectId) :
    (p.rename ρ).children.count id = p.children.count id := by
  rw [Payload.children_eq, Payload.children_eq, Payload.values_rename, Value.objects_rename]

/-- A new object on both sides, which takes over what it has. -/
theorem allocate {p : Payload} (ht : Twin P ρ s u extra held acts)
    (hcount : ∀ id, p.children.count id + (Value.objects held').count id ≤
      (Value.objects held).count id)
    (hheld : held' ⊆ held) (howned : p.owned = [])
    (hvalues : ∀ w ∈ p.values, s.Accessible held w ∨ w = .nil)
    (hobject : v.object? = some (s.allocate p).1) (hv : ∀ t : Store, t.Supports v)
    (hrename : v.rename ρ = v) :
    (u.allocate (p.rename ρ)).1 = (s.allocate p).1 ∧
      Twin P ρ (s.allocate p).2 (u.allocate (p.rename ρ)).2 extra (v :: held') acts := by
  have hid : (u.allocate (p.rename ρ)).1 = (s.allocate p).1 := ht.mirror.size
  refine ⟨hid, ht.healthy.allocate hcount hheld howned (fun w hw => ?_) hobject hv, ?_,
    ht.mirror.allocate ht.healthy hheld (fun w hw => ?_) hobject, ht.keeps⟩
  · refine (hvalues w hw).imp_right ?_
    rintro rfl
    exact ⟨rfl, trivial⟩
  · rw [List.map_cons, hrename]
    refine ht.shadow.allocate (fun other => ?_) (List.map_subset _ hheld) ?_ (fun w hw => ?_)
      (hobject.trans (congrArg some hid.symm)) hv
    · rw [count_children_rename, Value.objects_rename, Value.objects_rename]
      exact hcount other
    · cases p with
      | binding h => cases howned
      | _ => rfl
    · rw [Payload.values_rename] at hw
      obtain ⟨x, hx, rfl⟩ := List.mem_map.1 hw
      refine (hvalues x hx).imp ht.mirror.accessible ?_
      rintro rfl
      exact ⟨rfl, trivial⟩
  · refine (hvalues w hw).imp_right ?_
    rintro rfl
    rfl

/-- The binding takes the frame over from an activation. -/
theorem guard {frame : Handle} {callee : Option Function}
    (ht : Twin P ρ s u extra held (⟨frame, callee⟩ :: acts)) (f : Function)
    (hs : ∀ g e, s.arena.frame? frame = some g → g.enclosing = some e → s.arena.Captured e)
    (hu : ∀ g e, u.arena.frame? (ρ frame) = some g → g.enclosing = some e → u.arena.Captured e) :
    (u.guard (f.rename ρ) (ρ frame)).1 = (s.guard f frame).1.rename ρ ∧
      Twin P ρ (s.guard f frame).2 (u.guard (f.rename ρ) (ρ frame)).2 extra
        (.function (s.guard f frame).1 :: held) acts := by
  have hf : (u.guard (f.rename ρ) (ρ frame)).1 = (s.guard f frame).1.rename ρ := by
    change ({ f.rename ρ with closure := ρ frame, binding := some u.heap.objects.size } : Function) =
      { f with closure := ρ frame, binding := some s.heap.objects.size }
    rw [ht.mirror.size]
    rfl
  refine ⟨hf, ht.healthy.guard f hs, ?_,
    ht.mirror.allocate (p := .binding frame) ht.healthy (List.Subset.refl held) nofun rfl, ht.keeps⟩
  have hshadow := ht.shadow.guard (f.rename ρ) hu
  rw [hf] at hshadow
  exact hshadow

/-- Binding a method to a value that can be got at. -/
theorem bind (ht : Twin P ρ s u extra held acts) {method : Function} {receiver : Value}
    (hpins : Pinned held acts) (hs : s.arena.Captured method.closure)
    (hu : u.arena.Captured (ρ method.closure)) (hreceiver : s.Accessible held receiver)
    (hP : P (s.create method.closure).1 (u.create (ρ method.closure)).1) :
    ∃ ρ' : Renaming, (∀ h, s.arena.contains h = true → ρ' h = ρ h) ∧
      (u.bind (method.rename ρ) (receiver.rename ρ)).1 = (s.bind method receiver).1.rename ρ' ∧
      Twin P ρ' (s.bind method receiver).2 (u.bind (method.rename ρ) (receiver.rename ρ)).2 extra
        (.function (s.bind method receiver).1 :: held) acts := by
  have hagree := ht.extend_of_contains method.closure (u.create (ρ method.closure)).1
  have hself := Renaming.extend_self ρ (s.create method.closure).1 (u.create (ρ method.closure)).1
  have hcreate := ht.create none hpins hs.contains (.inl hs) (.inl hu) nofun hP
  refine ⟨_, hagree, ?_⟩
  generalize ρ.extend (s.create method.closure).1 (u.create (ρ method.closure)).1 = ρ' at *
  have hmethod : method.rename ρ' = method.rename ρ := Function.rename_congr (hagree _ hs.contains)
  have hvalue : receiver.rename ρ' = receiver.rename ρ := ht.healthy.agree hagree hreceiver
  have hretain := hcreate.retain (hreceiver.create ht.healthy method.closure)
  have hnew : ((s.create method.closure).2.retain receiver).arena.contains
      (s.create method.closure).1 = true := by
    rw [arena_retain]
    exact Arena.contains_iff.2 ⟨_, (frame?_create ht.healthy _ _).trans (if_pos rfl)⟩
  have hdefine := hretain.define hnew "this"
  rw [hself, hvalue] at hdefine
  have hguard := hdefine.guard method
    (fun _ _ hf he => ht.healthy.captured_of_define_create hs "this" receiver hf he)
    fun _ _ hf he => ?_
  · rw [hself, hmethod] at hguard
    exact hguard
  · rw [hself] at hf
    exact ht.shadow.captured_of_define_create hu "this" (receiver.rename ρ) hf he

/-! ## Changing objects -/

/-- The instance takes the value over. -/
theorem setField {id : ObjectId} (ht : Twin P ρ s u extra (v :: held) acts)
    (hobject : s.Accessible (v :: held) (.instance id)) (name : String) :
    Twin P ρ (s.setField id name v) (u.setField id name (v.rename ρ)) extra held acts := by
  have healthy := ht.healthy.setField hobject name
  have shadow := ht.shadow.setField (ht.mirror.accessible hobject) name
  have hpayload := ht.mirror.payload? ht.healthy.accounted (mem_ids extra _) hobject rfl
  by_cases hp : ∃ parent fields, s.heap.payload? id = some (.instance parent fields)
  · obtain ⟨parent, fields, hp⟩ := hp
    rw [hp, Option.map_some] at hpayload
    rw [setField_of_instance hp] at healthy ⊢
    rw [setField_of_instance hpayload] at shadow ⊢
    rw [Bindings.find?_map] at shadow ⊢
    refine ⟨healthy, shadow, Mirror.remains (ht.mirror.refill ((fields.find? name).toList ++ held)
      hobject rfl hp ?_ (fun w hw => ?_) fun w hw => ?_) (remains_discardObjects _ _)
      (remains_discardObjects _ _) (fun _ _ h => h) shadow.accounted ?_
      fun w hw => .held (List.mem_append_right _ hw), ht.keeps⟩
    · exact congrArg (Payload.instance _) (Bindings.map_insert _ fields name v).symm
    · obtain hw | hw := List.mem_append.1 hw
      · exact .inside hobject rfl hp
          (List.mem_cons_of_mem _ (mem_values_of_find? (Option.mem_toList.1 hw)))
      · exact .held (List.mem_cons_of_mem _ hw)
    · obtain rfl | hw := List.mem_cons.1 hw
      · exact .inside hobject rfl hp List.mem_cons_self
      · obtain rfl | hw := mem_values_insert hw
        · exact .held List.mem_cons_self
        · exact .inside hobject rfl hp (List.mem_cons_of_mem _ hw)
    · rw [Value.objects_rename]
      exact mem_ids extra held
  · rw [setField_of_other fun parent fields h => hp ⟨parent, fields, h⟩] at healthy ⊢
    rw [setField_of_other fun parent fields h => ?_]
    · exact ht.forget
    · rw [hpayload] at h
      obtain ⟨p, hq, heq⟩ := Option.map_eq_some_iff.1 h
      cases p with
      | «instance» parent fields => exact hp ⟨parent, fields, hq⟩
      | _ => cases heq

theorem length (ht : Twin P ρ s u extra held acts) (hv : s.Accessible held v) {id : ObjectId}
    (hid : v.object? = some id) : u.length id = s.length id := by
  unfold Store.length
  rw [ht.mirror.elements? ht.healthy.accounted (mem_ids extra _) hv hid]
  cases s.elements? id with
  | none => rfl
  | some elements => exact Array.size_map

theorem slot? (ht : Twin P ρ s u extra held acts) (hv : s.Accessible held v) {id : ObjectId}
    (hid : v.object? = some id) (index : Value) : u.slot? id (index.rename ρ) = s.slot? id index := by
  cases index with
  | number x =>
    unfold Store.slot?
    dsimp only [Value.rename]
    rw [ht.length hv hid]
  | _ => rfl

theorem element (ht : Twin P ρ s u extra held acts) (hv : s.Accessible held v) {id : ObjectId}
    (hid : v.object? = some id) (index : Value) :
    u.element id (index.rename ρ) = (s.element id index).rename ρ := by
  unfold Store.element
  rw [ht.slot? hv hid]
  cases hs : s.slot? id index with
  | none => rfl
  | some i =>
    obtain ⟨elements, old, he, hi⟩ := slot?_lt hs
    dsimp only
    rw [ht.mirror.elements? ht.healthy.accounted (mem_ids extra _) hv hid, he, Option.map_some,
      Option.bind_some, Option.bind_some, Array.getElem?_map, hi]
    rfl

/-- The array gets a copy. -/
theorem setElement {u' : Value} {id : ObjectId} (ht : Twin P ρ s u extra held acts)
    (hu : s.Accessible held u') (hid : u'.object? = some id) (hv : s.Accessible held v)
    (index : Value) :
    (u.setElement id (index.rename ρ) (v.rename ρ)).1 = (s.setElement id index v).1.rename ρ ∧
      Twin P ρ (s.setElement id index v).2 (u.setElement id (index.rename ρ) (v.rename ρ)).2 extra held
        acts := by
  have healthy := (ht.healthy.setElement hu hid hv index).1
  have shadow := (ht.shadow.setElement (ht.mirror.accessible hu)
    ((Value.object?_rename ρ u').trans hid) (ht.mirror.accessible hv) (index.rename ρ)).1
  cases hs : s.slot? id index with
  | none =>
    rw [setElement_of_none hs, setElement_of_none ((ht.slot? hu hid index).trans hs)]
    exact ⟨rfl, ht⟩
  | some i =>
    obtain ⟨elements, old, he, hi⟩ := slot?_lt hs
    have hp := (payload?_retain s v id).trans (elements?_eq_some_iff.1 he)
    have hretain := ht.retain hv
    have hu' := (hu.retain v).mono (List.subset_cons_self v held)
    have hmem : ∀ w ∈ elements.toList, (s.retain v).Accessible (v :: held) w :=
      fun w hw => .inside hu' hid hp hw
    have hei : (elements.map (Value.rename ρ))[i]? = some (old.rename ρ) := by
      rw [Array.getElem?_map, hi]
      rfl
    have heu := ht.mirror.elements? ht.healthy.accounted (mem_ids extra _) hu hid
    rw [he, Option.map_some] at heu
    have hslot := (ht.slot? hu hid index).trans hs
    rw [setElement_of_slot? hs he hi] at healthy ⊢
    rw [setElement_of_slot? hslot heu hei] at shadow ⊢
    refine ⟨rfl, healthy, shadow, Mirror.remains (hretain.mirror.refill (old :: held) hu' hid hp
      ?_ (fun w hw => ?_) fun w hw => ?_) (remains_discard _ _) (remains_discard _ _)
      (fun h f hf => ?_) shadow.accounted ?_ fun w hw => .held (List.mem_cons_of_mem _ hw), ?_⟩
    · exact congrArg Payload.array (Array.map_setIfInBounds ..).symm
    · obtain rfl | hw := List.mem_cons.1 hw
      · exact hmem _ (Array.mem_toList_iff.2 (Array.mem_of_getElem? hi))
      · exact .held (List.mem_cons_of_mem _ hw)
    · change w ∈ (elements.setIfInBounds i v).toList at hw
      rw [Array.toList_setIfInBounds] at hw
      obtain hw | rfl := List.mem_or_eq_of_mem_set hw
      · exact hmem w hw
      · exact .held List.mem_cons_self
    · rw [arena_discard]
      exact hf
    · rw [Value.objects_rename]
      exact mem_ids extra held
    · rw [arena_discard]
      exact hretain.keeps

end Twin
end Lox.Store
