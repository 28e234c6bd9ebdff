import Lox.Proofs.Store.Operations
import Lox.Proofs.Store.Tracing

/-!
# Functions, classes and objects in a healthy store

Functions and classes close over captured frames. A bound method closes over a frame of its own,
which passes from the activation that made it to the binding.
-/
namespace Lox.Store

variable {s : Store} {extra : List ObjectId} {held held' : List Value} {acts : List Activation}
  {v : Value}

/-- The next identity plays no part. -/
theorem Healthy.stamp (hh : s.Healthy extra held acts) (n : Nat) :
    ({ s with heap := { s.heap with nextStamp := n } } : Store).Healthy extra held acts := by
  refine ⟨⟨hh.accounted.counted, hh.accounted.owned, hh.accounted.issued, hh.accounted.recycles⟩,
    hh.intact.of_alike (Arena.Alike.refl _) fun w hw => ?_⟩
  have hacc : s.Accessible held w := hw.of_within (fun h f hf w hw => .bound hf hw)
    (fun id p hp v hid hv w hw => .inside hv hid hp hw) fun w hw => .held hw
  exact (hh.intact.supported w hacc).of_alike (Arena.Alike.refl _) fun _ _ _ hp => hp

/-- A class whose methods, and whose superclasses, close over captured frames. -/
theorem Healthy.makeClass (hh : s.Healthy extra held acts) (name : String)
    (superclass : Option Class) (methods : Bindings Function)
    (hsuper : ∀ c, superclass = some c → s.Supports (.classObject c))
    (hmethods : ∀ f ∈ methods.values, s.arena.Captured f.closure) :
    (s.makeClass name superclass methods).2.Healthy extra
      (.classObject (s.makeClass name superclass methods).1 :: held) acts := by
  refine (hh.stamp _).hold rfl fun h hh => ?_
  rw [Class.closures_eq] at hh
  obtain hh | hh := List.mem_append.1 hh
  · obtain ⟨f, hf, rfl⟩ := List.mem_map.1 hh
    exact hmethods f hf
  · change h ∈ (superclass.map Class.closures).getD [] at hh
    cases superclass with
    | none => cases hh
    | some c => exact hsuper c rfl h hh

theorem payload?_allocate (s : Store) (p : Payload) (id : ObjectId) :
    (s.allocate p).2.heap.payload? id =
      if id = (s.allocate p).1 then some p else s.heap.payload? id := by
  unfold Heap.payload?
  change ((s.heap.allocate p).2.find? id).map Object.payload = _
  rw [Heap.find?_allocate]
  change (if id = s.heap.objects.size then _ else _ : Option Object).map _ = if id = s.heap.objects.size then _ else _
  split <;> rfl

theorem ne_of_payload? {p q : Payload} {id : ObjectId} (hp : s.heap.payload? id = some p) :
    id ≠ (s.allocate q).1 := by
  rintro rfl
  change s.heap.payload? s.heap.objects.size = some p at hp
  unfold Heap.payload? at hp
  rw [Heap.find?_size] at hp
  cases hp

/-- A new object gives access to nothing but itself and what it has. -/
theorem Healthy.accessible_of_allocate {p : Payload} {Q : Value → Prop} {w : Value}
    (hh : s.Healthy extra held acts) (hheld : held' ⊆ held)
    (hvalues : ∀ w ∈ p.values, s.Accessible held w ∨ Q w) (hQ : ∀ w, Q w → w.object? = none)
    (hobject : v.object? = some (s.allocate p).1) (hw : (s.allocate p).2.Accessible (v :: held') w) :
    w = v ∨ s.Accessible held w ∨ Q w := by
  induction hw with
  | held h =>
    obtain rfl | h := List.mem_cons.1 h
    · exact .inl rfl
    · exact .inr (.inl (.held (hheld h)))
  | bound hf hv => exact .inr (.inl (.bound hf hv))
  | inside _ hid hp hw ih =>
    rw [payload?_allocate] at hp
    obtain rfl | ih | ih := ih
    · rw [hobject] at hid
      rw [if_pos (Option.some.inj hid).symm] at hp
      cases hp
      exact .inr (hvalues _ hw)
    · split at hp
      · next hnew =>
        obtain ⟨object, ho⟩ := hh.find? ih hid
        rw [hnew] at ho
        exact absurd rfl (ne_of_payload? (s := s) (q := p) (p := object.payload)
          (by unfold Heap.payload?; rw [ho]; rfl))
      · exact .inr (.inl (.inside ih hid hp hw))
    · rw [hQ _ ih] at hid
      cases hid

/-- A new object, which takes over what it has. -/
theorem Healthy.allocate {p : Payload} (hh : s.Healthy extra held acts)
    (hcount : ∀ id, p.children.count id + (Value.objects held').count id ≤
      (Value.objects held).count id)
    (hheld : held' ⊆ held) (howned : p.owned = [])
    (hvalues : ∀ w ∈ p.values, s.Accessible held w ∨ w.object? = none ∧ s.Supports w)
    (hobject : v.object? = some (s.allocate p).1) (hv : ∀ t : Store, t.Supports v) :
    (s.allocate p).2.Healthy extra (v :: held') acts := by
  refine ⟨?_, hh.intact.of_alike (Arena.Alike.refl _) fun w hw => ?_⟩
  · have hready : s.Accounted (p.children ++ (extra ++ Value.objects held'))
        (p.owned ++ acts.map Activation.frame) := by
      refine hh.accounted.mono (fun id => ?_) fun h => by rw [howned]; exact Nat.le_refl _
      have hle := hcount id
      simp only [List.count_append]
      omega
    refine hready.allocate.mono (fun id => ?_) fun _ => Nat.le_refl _
    rw [List.count_append, count_objects_cons, objects_singleton, hobject]
    simp only [Option.toList_some, List.count_cons, List.count_nil, List.count_append]
    omega
  · have hacc := hh.accessible_of_allocate (Q := fun w => w.object? = none ∧ s.Supports w)
      hheld hvalues (fun _ h => h.1) hobject hw
    have hsupports : w = v ∨ s.Supports w :=
      hacc.imp_right fun h => h.elim (hh.intact.supported w) And.right
    obtain rfl | hsupports := hsupports
    · exact hv _
    · exact hsupports.of_alike (Arena.Alike.refl _) fun id h _ hp =>
        (payload?_allocate s p id).trans ((if_neg (ne_of_payload? hp)).trans hp)

/-! ## Bound methods -/

/-- The binding takes the frame over from an activation. -/
theorem Healthy.guard {frame : Handle} {callee : Option Function}
    (hh : s.Healthy extra held (⟨frame, callee⟩ :: acts)) (f : Function)
    (hclosed : ∀ g e, s.arena.frame? frame = some g → g.enclosing = some e → s.arena.Captured e) :
    (s.guard f frame).2.Healthy extra (.function (s.guard f frame).1 :: held) acts := by
  have hbound : (s.guard f frame).2.heap.payload? (s.allocate (.binding frame)).1 =
      some (.binding frame) := (payload?_allocate s _ _).trans (if_pos rfl)
  refine ⟨?_, hh.intact.globals, hh.intact.live, hh.intact.closed, fun h g e hr hg he => ?_,
    fun a ha => hh.intact.entered a (List.mem_cons_of_mem _ ha),
    fun a outer hs => hh.intact.nested a outer (hs.trans (List.suffix_cons _ _)), fun w hw => ?_⟩
  · have hready : s.Accounted ((Payload.binding frame).children ++ (extra ++ Value.objects held))
        ((Payload.binding frame).owned ++ acts.map Activation.frame) := hh.accounted
    refine hready.allocate.mono (fun id => ?_) fun _ => Nat.le_refl _
    rw [List.count_append, count_objects_cons, objects_singleton]
    change _ + (List.count id [(s.allocate (.binding frame)).1] + _) ≤ _
    simp only [List.count_cons, List.count_nil, List.count_append]
    omega
  · obtain hc | ⟨a, ha, rfl⟩ := hh.intact.active h g e hr hg he
    · exact .inl hc
    · obtain rfl | ha := List.mem_cons.1 ha
      · exact .inl (hclosed g e hg he)
      · exact .inr ⟨a, ha, rfl⟩
  · have hacc := hh.accessible_of_allocate (p := .binding frame) (Q := fun _ => False)
      (List.Subset.refl held) nofun nofun rfl hw
    rw [or_false] at hacc
    obtain rfl | hacc := hacc
    · exact ⟨hbound, hh.intact.entered _ List.mem_cons_self⟩
    · exact (hh.intact.supported w hacc).of_alike (Arena.Alike.refl _) fun id h _ hp =>
        (payload?_allocate s _ id).trans ((if_neg (ne_of_payload? hp)).trans hp)

theorem arena_retain (s : Store) (v : Value) : (s.retain v).arena = s.arena := by
  unfold Store.retain
  split <;> rfl

theorem alike_define (s : Store) (h : Handle) (name : String) (v : Value) :
    (s.define h name v).arena.Alike s.arena := by
  cases hf : s.arena.frame? h with
  | none =>
    rw [define_of_none hf, ← discardAll_singleton]
    exact Arena.Alike.refl _
  | some frame =>
    rw [define_of_some hf]
    exact Arena.Alike.put hf rfl rfl

/-- The frame of a bound method lies in the frame that the method closes over. -/
theorem Healthy.captured_of_define_create (hh : s.Healthy extra held acts) {e : Handle}
    (hc : s.arena.Captured e) (name : String) (v : Value) {f : Frame} {e' : Handle}
    (hf : (((s.create e).2.retain v).define (s.create e).1 name v).arena.frame? (s.create e).1 = some f)
    (he : f.enclosing = some e') :
    (((s.create e).2.retain v).define (s.create e).1 name v).arena.Captured e' := by
  have halike := alike_define ((s.create e).2.retain v) (s.create e).1 name v
  rw [arena_retain] at halike
  obtain ⟨f', hf', he', -⟩ := halike.frame? hf
  rw [frame?_create hh, if_pos rfl] at hf'
  cases hf'
  rw [he] at he'
  cases he'
  exact halike.captured.2 (captured_create hh _ hc)

/-! ## Changing objects -/

theorem heap_modify_of_fixed {heap : Heap} {id : ObjectId} {f : Payload → Payload}
    (h : ∀ p, heap.payload? id = some p → f p = p) : heap.modify id f = heap := by
  unfold Heap.modify
  rw [modify_of_fixed]
  intro entry hs
  cases entry with
  | none => rfl
  | some object =>
    have hp : heap.payload? id = some object.payload := by
      unfold Heap.payload?
      rw [Heap.find?_eq_some_iff.2 hs]
      rfl
    dsimp only
    rw [h _ hp]

/-- An object gets another payload, which takes over what is held; what the old one had can be held
instead. Bindings stay as they are. -/
theorem Healthy.refill {id : ObjectId} {p q : Payload} {f : Payload → Payload}
    (hh : s.Healthy extra held acts) (hp : s.heap.payload? id = some p) (hf : f p = q)
    (hbinding : ∀ h, p ≠ .binding h) (howned : q.owned = p.owned)
    (hcount : ∀ other, q.children.count other + (Value.objects held').count other ≤
      p.children.count other + (Value.objects held).count other)
    (hheld : ∀ w ∈ held', s.Accessible held w) (hvalues : ∀ w ∈ q.values, s.Accessible held w) :
    ({ s with heap := s.heap.modify id f } : Store).Healthy extra held' acts := by
  obtain ⟨object, ho, rfl⟩ := Heap.find?_of_payload? hp
  subst hf
  have hpayload : ∀ other, (s.heap.modify id f).payload? other =
      if other = id then some (f object.payload) else s.heap.payload? other := by
    intro other
    rw [Heap.modify_eq_put ho]
    unfold Heap.payload?
    rw [Heap.find?_put ho]
    split <;> rfl
  refine ⟨?_, hh.intact.of_alike (Arena.Alike.refl _) fun w hw => ?_⟩
  · rw [Heap.modify_eq_put ho]
    refine hh.accounted.refill ho howned fun other => ?_
    have hle := hcount other
    simp only [List.count_append]
    omega
  · have hacc : s.Accessible held w := by
      refine hw.of_within (fun h f hf w hw => .bound hf hw)
        (fun other p hp v hid hv w hw => ?_) hheld
      dsimp only at hp
      rw [hpayload] at hp
      split at hp
      · cases hp
        exact hvalues w hw
      · exact .inside hv hid hp hw
    refine (hh.intact.supported w hacc).of_alike (Arena.Alike.refl _) fun other h _ hother => ?_
    dsimp only
    rw [hpayload, if_neg]
    · exact hother
    · rintro rfl
      rw [hp] at hother
      exact hbinding h (Option.some.inj hother)

/-- The fields of an instance change; what the name was bound to is given up. -/
theorem setField_of_instance {id : ObjectId} {parent : Class} {fields : Bindings Value}
    (hp : s.heap.payload? id = some (.instance parent fields)) (name : String) (v : Value) :
    s.setField id name v =
      ({ s with heap := s.heap.modify id fun
          | .instance parent fields => .instance parent (fields.insert name v)
          | payload => payload } : Store).discardAll (fields.find? name).toList := by
  unfold Store.setField Store.field?
  rw [hp]
  dsimp only
  cases fields.find? name with
  | none => exact (discardAll_nil _).symm
  | some old => exact (discardAll_singleton _ old).symm

theorem setField_of_other {id : ObjectId}
    (hp : ∀ parent fields, s.heap.payload? id ≠ some (.instance parent fields)) (name : String)
    (v : Value) : s.setField id name v = s := by
  have hfield : s.field? id name = none := by
    unfold Store.field?
    split
    · next h => exact absurd h (hp _ _)
    · rfl
  unfold Store.setField
  rw [hfield, heap_modify_of_fixed]
  rintro p hq
  cases p with
  | «instance» parent fields => exact absurd hq (hp parent fields)
  | _ => rfl

/-- The instance takes the value over. -/
theorem Healthy.setField {id : ObjectId} (hh : s.Healthy extra (v :: held) acts)
    (hobject : s.Accessible (v :: held) (.instance id)) (name : String) :
    (s.setField id name v).Healthy extra held acts := by
  by_cases hp : ∃ parent fields, s.heap.payload? id = some (.instance parent fields)
  · obtain ⟨parent, fields, hp⟩ := hp
    rw [setField_of_instance hp]
    refine Healthy.discardAll (hh.refill (q := .instance parent (fields.insert name v)) hp rfl nofun
      rfl (fun other => ?_) (fun w hw => ?_) fun w hw => ?_)
    · have hinsert := count_objects_insert fields name v other
      rw [count_objects_append, count_objects_cons v held]
      change (Value.objects (fields.insert name v).values).count other + _ ≤
        (Value.objects fields.values).count other + _
      omega
    · obtain hw | hw := List.mem_append.1 hw
      · exact .inside hobject rfl hp
          (List.mem_cons_of_mem _ (mem_values_of_find? (Option.mem_toList.1 hw)))
      · exact .held (List.mem_cons_of_mem _ hw)
    · obtain rfl | hw := List.mem_cons.1 hw
      · exact .inside hobject rfl hp List.mem_cons_self
      · obtain rfl | hw := mem_values_insert hw
        · exact .held List.mem_cons_self
        · exact .inside hobject rfl hp (List.mem_cons_of_mem _ hw)
  · rw [setField_of_other fun parent fields h => hp ⟨parent, fields, h⟩]
    refine hh.rearrange (fun id => ?_) fun w hw => .held (List.mem_cons_of_mem _ hw)
    rw [List.count_append, List.count_append, count_objects_cons v held]
    omega

theorem elements?_eq_some_iff {id : ObjectId} {elements : Array Value} :
    s.elements? id = some elements ↔ s.heap.payload? id = some (.array elements) := by
  unfold Store.elements?
  split
  · next h =>
    rw [h]
    simp
  · next h =>
    constructor
    · nofun
    · intro hp
      exact absurd hp (h elements)

/-- What is read from an array was in it, or is `nil`. -/
theorem element_cases {u : Value} {id : ObjectId} (hu : s.Accessible held u)
    (hid : u.object? = some id) (index : Value) :
    s.Accessible held (s.element id index) ∨ s.element id index = .nil := by
  unfold Store.element
  split
  · next i _ =>
    cases he : s.elements? id with
    | none => exact .inr rfl
    | some elements =>
      rw [Option.bind_some]
      cases hi : elements[i]? with
      | none => exact .inr rfl
      | some w =>
        exact .inl (.inside hu hid (elements?_eq_some_iff.1 he)
          (Array.mem_toList_iff.2 (Array.mem_of_getElem? hi)))
  · exact .inr rfl

theorem count_objects_set {elements : Array Value} {i : Nat} {old : Value}
    (hi : elements[i]? = some old) (v : Value) (id : ObjectId) :
    (Value.objects (elements.setIfInBounds i v).toList).count id + (Value.objects [old]).count id =
      (Value.objects elements.toList).count id + (Value.objects [v]).count id := by
  obtain ⟨items⟩ := elements
  simp only [List.setIfInBounds_toArray, List.getElem?_toArray] at hi ⊢
  induction items generalizing i with
  | nil => cases hi
  | cons first rest ih =>
    cases i with
    | zero =>
      cases hi
      rw [List.set_cons_zero, count_objects_cons v rest, count_objects_cons old rest]
      omega
    | succ i =>
      have hrest := ih (i := i) hi
      rw [List.set_cons_succ, count_objects_cons first (rest.set i v), count_objects_cons first rest]
      omega

theorem slot?_lt {id : ObjectId} {index : Value} {i : Nat} (hs : s.slot? id index = some i) :
    ∃ elements old, s.elements? id = some elements ∧ elements[i]? = some old := by
  have hlt : i < s.length id := by
    unfold Store.slot? at hs
    split at hs
    · exact of_decide_eq_true (Option.filter_eq_some_iff.1 hs).2
    · cases hs
  unfold Store.length at hlt
  cases he : s.elements? id with
  | none =>
    rw [he] at hlt
    cases hlt
  | some elements =>
    rw [he] at hlt
    exact ⟨elements, elements[i], rfl, Array.getElem?_eq_getElem hlt⟩

theorem payload?_retain (s : Store) (v : Value) (id : ObjectId) :
    (s.retain v).heap.payload? id = s.heap.payload? id := by
  unfold Store.retain
  split
  · next other _ =>
    unfold Heap.payload?
    cases ho : s.heap.find? other with
    | none => rw [Heap.retain_of_none ho]
    | some object =>
      rw [Heap.retain_eq_put ho, Heap.find?_put ho]
      split
      · next h =>
        rw [h, ho]
        rfl
      · rfl
  · rfl

theorem Accessible.retain {w : Value} (hw : s.Accessible held w) (v : Value) :
    (s.retain v).Accessible held w := by
  induction hw with
  | held h => exact .held h
  | bound hf hv => exact .bound ((arena_retain s v) ▸ hf) hv
  | inside _ hid hp hw ih => exact .inside ih hid ((payload?_retain s v _).trans hp) hw

theorem setElement_of_slot? {id : ObjectId} {index : Value} {i : Nat} {elements : Array Value}
    {old : Value} (hs : s.slot? id index = some i) (he : s.elements? id = some elements)
    (hi : elements[i]? = some old) (v : Value) :
    s.setElement id index v = (v, ({ s.retain v with heap := (s.retain v).heap.modify id fun
      | .array elements => .array (elements.setIfInBounds i v)
      | payload => payload } : Store).discard old) := by
  unfold Store.setElement
  rw [hs, he]
  dsimp only
  rw [Option.bind_some, hi]
  rfl

theorem setElement_of_none {id : ObjectId} {index : Value} (hs : s.slot? id index = none)
    (v : Value) : s.setElement id index v = (.nil, s) := by
  unfold Store.setElement
  rw [hs]

/-- The array gets a copy. What is given back is the value, or `nil`. -/
theorem Healthy.setElement {u : Value} {id : ObjectId} (hh : s.Healthy extra held acts)
    (hu : s.Accessible held u) (hid : u.object? = some id) (hv : s.Accessible held v)
    (index : Value) :
    (s.setElement id index v).2.Healthy extra held acts ∧
      ((s.setElement id index v).1 = v ∨ (s.setElement id index v).1 = .nil) := by
  cases hslot : s.slot? id index with
  | none =>
    rw [setElement_of_none hslot]
    exact ⟨hh, .inr rfl⟩
  | some i =>
    obtain ⟨elements, old, he, hi⟩ := slot?_lt hslot
    have hp := (payload?_retain s v id).trans (elements?_eq_some_iff.1 he)
    have hu := (hu.retain v).mono (List.subset_cons_self v held)
    have hmem : ∀ w ∈ elements.toList, (s.retain v).Accessible (v :: held) w :=
      fun w hw => .inside hu hid hp hw
    have hold : old ∈ elements.toList := Array.mem_toList_iff.2 (Array.mem_of_getElem? hi)
    rw [setElement_of_slot? hslot he hi]
    refine ⟨Healthy.discard ((hh.retain hv).refill (q := .array (elements.setIfInBounds i v)) hp rfl
      nofun rfl (fun other => ?_) (fun w hw => ?_) fun w hw => ?_), .inl rfl⟩
    · have hset := count_objects_set hi v other
      rw [Payload.children_eq, Payload.children_eq, count_objects_cons old, count_objects_cons v]
      change (Value.objects (elements.setIfInBounds i v).toList).count other + _ ≤
        (Value.objects elements.toList).count other + _
      omega
    · obtain rfl | hw := List.mem_cons.1 hw
      · exact hmem _ hold
      · exact .held (List.mem_cons_of_mem _ hw)
    · change w ∈ (elements.setIfInBounds i v).toList at hw
      rw [Array.toList_setIfInBounds] at hw
      obtain hw | rfl := List.mem_or_eq_of_mem_set hw
      · exact hmem w hw
      · exact .held List.mem_cons_self

end Lox.Store
