import Lox.Proofs.Store.Counts

/-!
# The accounts of a store

No object is referred to more often than it counts, and no frame has two owners. A frame is owned
by the activation that runs in it, by the binding of a method or by the queue. The accounts hold
whatever the values are good for; that frames in use are not freed is built on them.
-/
namespace Lox

namespace Heap

theorem references_put {heap : Heap} {id : ObjectId} {object : Object}
    (ho : heap.find? id = some object) (entry : Option Object) (other : ObjectId) :
    (heap.put id entry).references other =
      if other = id then (entry.map Object.references).getD 0 else heap.references other := by
  unfold references
  rw [find?_put ho]
  split <;> rfl

theorem references_of_find? {heap : Heap} {id : ObjectId} {object : Object}
    (ho : heap.find? id = some object) : heap.references id = object.references := by
  unfold references
  rw [ho]
  rfl

theorem find?_of_references_pos {heap : Heap} {id : ObjectId} (h : 0 < heap.references id) :
    ∃ object, heap.find? id = some object := by
  unfold references at h
  cases ho : heap.find? id with
  | none =>
    rw [ho] at h
    cases h
  | some object => exact ⟨object, rfl⟩

theorem discard_nil (heap : Heap) (queue : List Handle) :
    heap.discard queue [] = (heap, queue) := by
  rw [discard]
  rfl

theorem discard_cons (heap : Heap) (queue : List Handle) (id : ObjectId) (rest : List ObjectId) :
    heap.discard queue (id :: rest) = match heap.drop id with
      | (some payload, after) => after.discard (payload.owned ++ queue) (payload.children ++ rest)
      | (none, after) => after.discard queue rest := by
  rw [discard]
  rcases hd : heap.drop id with ⟨_ | payload, after⟩
  · have hnext : heap.dropNext (id :: rest) = after.dropNext rest := by
      rw [dropNext, hd]
    dsimp only
    rw [discard]
    split
    · next p r b h =>
      rw [hnext] at h
      split
      · next h' =>
        rw [h] at h'
        cases h'
        rfl
      · next h' =>
        rw [h] at h'
        cases h'
    · next b h =>
      rw [hnext] at h
      split
      · next h' =>
        rw [h] at h'
        cases h'
      · next h' =>
        rw [h] at h'
        cases h'
        rfl
  · have hnext : heap.dropNext (id :: rest) = (some (payload, rest), after) := by
      rw [dropNext, hd]
    split
    · next h =>
      rw [hnext] at h
      cases h
      rfl
    · next h =>
      rw [hnext] at h
      cases h

theorem live_put_none_lt {heap : Heap} {id : ObjectId} {object : Object}
    (ho : heap.find? id = some object) : (heap.put id none).live < heap.live :=
  countP_setIfInBounds_lt (find?_eq_some_iff.1 ho) rfl rfl

theorem live_put_some {heap : Heap} {id : ObjectId} {object : Object}
    (ho : heap.find? id = some object) (new : Object) :
    (heap.put id (some new)).live = heap.live := by
  have hs := find?_eq_some_iff.1 ho
  obtain ⟨hi, hobject⟩ := Array.getElem?_eq_some_iff.1 hs
  have hpos : 0 < heap.objects.countP Option.isSome :=
    Array.countP_pos_iff.2 ⟨heap.objects[id], Array.getElem_mem hi, by rw [hobject]; rfl⟩
  unfold live put
  dsimp only
  rw [Array.setIfInBounds_def, dif_pos hi, Array.countP_set, hobject]
  simp only [Option.isSome_some, if_true]
  omega

/-- Discarding drops one reference after the other. Either there is no object left to drop it from,
or it was not the last reference, or it was: then the object goes. -/
theorem discard_induction {P : Heap → List Handle → List ObjectId → Heap × List Handle → Prop}
    (hnil : ∀ heap queue, P heap queue [] (heap, queue))
    (hgone : ∀ heap queue id rest result, heap.find? id = none → P heap queue rest result →
      P heap queue (id :: rest) result)
    (hfewer : ∀ heap queue id rest object result, heap.find? id = some object →
      1 < object.references →
      P (heap.put id (some { object with references := object.references - 1 })) queue rest result →
      P heap queue (id :: rest) result)
    (hlast : ∀ heap queue id rest object result, heap.find? id = some object →
      object.references ≤ 1 →
      P (heap.put id none) (object.payload.owned ++ queue) (object.payload.children ++ rest) result →
      P heap queue (id :: rest) result)
    (heap : Heap) (queue : List Handle) (ids : List ObjectId) :
    P heap queue ids (heap.discard queue ids) := by
  match ids with
  | [] =>
    rw [discard_nil]
    exact hnil heap queue
  | id :: rest =>
    rw [discard_cons]
    cases ho : heap.find? id with
    | none =>
      rw [drop_of_none ho]
      exact hgone heap queue id rest _ ho (discard_induction hnil hgone hfewer hlast _ _ _)
    | some object =>
      rw [drop_eq_put ho]
      have hsame := live_put_some ho { object with references := object.references - 1 }
      have hless := live_put_none_lt ho
      by_cases hr : 1 < object.references
      · rw [if_pos hr]
        exact hfewer heap queue id rest object _ ho hr
          (discard_induction hnil hgone hfewer hlast _ _ _)
      · rw [if_neg hr]
        exact hlast heap queue id rest object _ ho (by omega)
          (discard_induction hnil hgone hfewer hlast _ _ _)
termination_by (heap.live, ids.length)
decreasing_by
  · exact Prod.Lex.right _ (by simp)
  · rw [hsame]
    exact Prod.Lex.right _ (by simp)
  · exact Prod.Lex.left _ _ hless

/-- What one heap holds, the other holds too, and is as old. -/
structure Within (heap whole : Heap) : Prop where
  payload : ∀ id p, heap.payload? id = some p → whole.payload? id = some p
  size : heap.objects.size = whole.objects.size
  nextStamp : heap.nextStamp = whole.nextStamp

theorem Within.refl (heap : Heap) : heap.Within heap := ⟨fun _ _ h => h, rfl, rfl⟩

theorem Within.trans {a b c : Heap} (hab : a.Within b) (hbc : b.Within c) : a.Within c :=
  ⟨fun id p h => hbc.payload id p (hab.payload id p h), hab.size.trans hbc.size,
    hab.nextStamp.trans hbc.nextStamp⟩

theorem within_put {heap : Heap} {id : ObjectId} {object : Object} (ho : heap.find? id = some object)
    {entry : Option Object} (hentry : ∀ new, entry = some new → new.payload = object.payload) :
    (heap.put id entry).Within heap := by
  refine ⟨fun other p hp => ?_, ?_, rfl⟩
  · unfold payload? at hp ⊢
    rw [find?_put ho] at hp
    split at hp
    · next h =>
      subst h
      cases hentry' : entry with
      | none =>
        rw [hentry'] at hp
        cases hp
      | some new =>
        rw [hentry'] at hp
        rw [ho]
        cases hp
        exact congrArg some (hentry new hentry').symm
    · exact hp
  · simp [put]

theorem within_discard (heap : Heap) (queue : List Handle) (ids : List ObjectId) :
    (heap.discard queue ids).1.Within heap := by
  refine discard_induction (P := fun heap _ _ result => result.1.Within heap) ?_ ?_ ?_ ?_ heap queue ids
  · exact fun heap _ => Within.refl heap
  · exact fun _ _ _ _ _ _ h => h
  · intro heap queue id rest object result ho _ h
    exact h.trans (within_put ho (by rintro _ ⟨⟩; rfl))
  · intro heap queue id rest object result ho _ h
    exact h.trans (within_put ho nofun)

/-- The objects that go pass the frames that they own on to the queue. -/
theorem owners_discard (heap : Heap) (queue : List Handle) (ids : List ObjectId) (h : Handle) :
    (heap.discard queue ids).2.count h + (heap.discard queue ids).1.owners h =
      queue.count h + heap.owners h := by
  refine discard_induction (P := fun heap queue _ result =>
    result.2.count h + result.1.owners h = queue.count h + heap.owners h) ?_ ?_ ?_ ?_ heap queue ids
  · exact fun _ _ => rfl
  · exact fun _ _ _ _ _ _ h => h
  · intro heap queue id rest object result ho _ ih
    have hput := total_put ho (fun p => p.owned.count h)
      (some { object with references := object.references - 1 })
    simp only [weigh] at hput
    unfold owners at ih ⊢
    omega
  · intro heap queue id rest object result ho _ ih
    have hput := total_put ho (fun p => p.owned.count h) none
    simp only [weigh] at hput
    rw [List.count_append] at ih
    unfold owners at ih ⊢
    omega

/-- If the references that are dropped were counted beside others, the others still are. -/
theorem counted_discard (others : ObjectId → Nat) (heap : Heap) (queue : List Handle)
    (ids : List ObjectId)
    (hcounted : ∀ id, ids.count id + others id + heap.mentions id ≤ heap.references id) (id : ObjectId) :
    others id + (heap.discard queue ids).1.mentions id ≤
      (heap.discard queue ids).1.references id := by
  revert id hcounted
  refine discard_induction (P := fun heap _ ids result =>
    (∀ id, ids.count id + others id + heap.mentions id ≤ heap.references id) →
    ∀ id, others id + result.1.mentions id ≤ result.1.references id) ?_ ?_ ?_ ?_ heap queue ids
  · intro heap queue hcounted id
    have h := hcounted id
    rw [List.count_nil] at h
    dsimp only
    omega
  · intro heap queue id rest result _ ih hcounted
    refine ih fun other => ?_
    have h := hcounted other
    rw [List.count_cons] at h
    omega
  · intro heap queue id rest object result ho hr ih hcounted
    refine ih fun other => ?_
    have h := hcounted other
    have hput := total_put ho (fun p => p.children.count other)
      (some { object with references := object.references - 1 })
    simp only [weigh] at hput
    rw [references_put ho]
    unfold mentions at h ⊢
    rw [List.count_cons] at h
    split
    · next hother =>
      subst hother
      rw [references_of_find? ho, if_pos (by simp)] at h
      simp only [Option.map_some, Option.getD_some]
      omega
    · omega
  · intro heap queue id rest object result ho hr ih hcounted
    refine ih fun other => ?_
    have h := hcounted other
    have hput := total_put ho (fun p => p.children.count other) none
    simp only [weigh] at hput
    rw [references_put ho, List.count_append]
    unfold mentions at h ⊢
    rw [List.count_cons] at h
    split
    · next hother =>
      subst hother
      rw [references_of_find? ho, if_pos (by simp)] at h
      simp only [Option.map_none, Option.getD_none]
      omega
    · omega

theorem total_retain (f : Payload → Nat) (heap : Heap) (id : ObjectId) :
    (heap.retain id).total f = heap.total f := by
  cases ho : heap.find? id with
  | none => rw [show heap.retain id = heap from retain_of_none ho]
  | some object =>
    rw [retain_eq_put ho]
    have hput := total_put ho f (some { object with references := object.references + 1 })
    simp only [weigh] at hput
    omega

theorem within_retain (heap : Heap) (id : ObjectId) : (heap.retain id).Within heap := by
  cases ho : heap.find? id with
  | none =>
    rw [retain_of_none ho]
    exact Within.refl heap
  | some object =>
    rw [retain_eq_put ho]
    exact within_put ho (by rintro _ ⟨⟩; rfl)

end Heap

/-- `ids` are references that are held outside of the store, `entered` frames that are run in. -/
structure Store.Accounted (s : Store) (ids : List ObjectId) (entered : List Handle) : Prop where
  counted : ∀ id, ids.count id + s.arena.mentions id + s.heap.mentions id ≤ s.heap.references id
  owned : ∀ h, entered.count h + s.queue.count h + s.heap.owners h ≤ 1
  issued : ∀ h, 0 < entered.count h + s.queue.count h + s.heap.owners h → s.arena.Issued h
  recycles : s.arena.Recycles

namespace Store.Accounted

variable {s : Store} {ids rest : List ObjectId} {entered : List Handle}

theorem mono {ids' : List ObjectId} {entered' : List Handle} (ha : s.Accounted ids entered)
    (hids : ∀ id, ids'.count id ≤ ids.count id)
    (hentered : ∀ h, entered'.count h ≤ entered.count h) : s.Accounted ids' entered' := by
  refine ⟨fun id => ?_, fun h => ?_, fun h hpos => ha.issued h ?_, ha.recycles⟩
  · have h := ha.counted id
    have hid := hids id
    omega
  · have howned := ha.owned h
    have hle := hentered h
    omega
  · have hle := hentered h
    omega

theorem discardObjects (ha : s.Accounted (ids ++ rest) entered) :
    (s.discardObjects ids).Accounted rest entered := by
  have howners := Heap.owners_discard s.heap s.queue ids
  refine ⟨?_, fun h => ?_, fun h hpos => ha.issued h ?_, ha.recycles⟩
  · refine Heap.counted_discard (fun id => rest.count id + s.arena.mentions id) s.heap s.queue ids ?_
    intro id
    have h := ha.counted id
    rw [List.count_append] at h
    omega
  · have howned := ha.owned h
    have hdiscard := howners h
    show entered.count h + (s.heap.discard s.queue ids).2.count h +
      (s.heap.discard s.queue ids).1.owners h ≤ 1
    omega
  · have hdiscard := howners h
    change 0 < entered.count h + (s.heap.discard s.queue ids).2.count h +
      (s.heap.discard s.queue ids).1.owners h at hpos
    omega

theorem retain {v : Value} (ha : s.Accounted ids entered)
    (hlive : ∀ id, v.object? = some id → ∃ object, s.heap.find? id = some object) :
    (s.retain v).Accounted (v.object?.toList ++ ids) entered := by
  unfold Store.retain
  cases hv : v.object? with
  | none => exact ha
  | some id =>
    obtain ⟨object, ho⟩ := hlive id hv
    have hchildren := fun other => Heap.total_retain (fun p => p.children.count other) s.heap id
    have howners := fun h => Heap.total_retain (fun p => p.owned.count h) s.heap id
    refine ⟨fun other => ?_, fun h => ?_, fun h hpos => ha.issued h ?_, ha.recycles⟩
    · have h := ha.counted other
      have hchild := hchildren other
      dsimp only
      unfold Heap.mentions at h ⊢
      rw [List.count_append, hchild, Heap.retain_eq_put ho, Heap.references_put ho]
      split
      · next hother =>
        subst hother
        rw [Heap.references_of_find? ho] at h
        simp only [Option.toList_some, Option.map_some, Option.getD_some, List.count_singleton_self]
        omega
      · next hother =>
        rw [Option.toList_some, List.count_singleton, if_neg (by simpa using Ne.symm hother)]
        omega
    · have howned := ha.owned h
      have hsame := howners h
      unfold Heap.owners at howned ⊢
      dsimp only
      omega
    · have hsame := howners h
      unfold Heap.owners at hpos ⊢
      dsimp only at hpos
      omega

/-- A frame is freed: the references in it are dropped. -/
theorem free {h : Handle} {frame : Frame} (ha : s.Accounted ids entered)
    (hf : s.arena.frame? h = some frame) : (s.free h.index frame).Accounted ids entered := by
  refine discardObjects (s := { s with arena := s.arena.vacate h.index })
    ⟨fun id => ?_, ha.owned, fun g hpos => Arena.issued_vacate (ha.issued g hpos) _,
      Arena.recycles_vacate ha.recycles _⟩
  have hcounted := ha.counted id
  have hvacate := Arena.mentions_vacate hf id
  rw [List.count_append]
  dsimp only
  omega

theorem dequeue {queue : List Handle} (ha : s.Accounted ids entered)
    (hqueue : ∀ h, queue.count h ≤ s.queue.count h) :
    ({ s with queue := queue } : Store).Accounted ids entered := by
  refine ⟨ha.counted, fun h => ?_, fun h hpos => ha.issued h ?_, ha.recycles⟩
  · have howned := ha.owned h
    have hle := hqueue h
    dsimp only
    omega
  · have hle := hqueue h
    dsimp only at hpos
    omega

theorem create (ha : s.Accounted ids entered) (e : Handle) :
    (s.create e).2.Accounted ids ((s.create e).1 :: entered) := by
  have hfresh := Arena.not_issued_create ha.recycles e
  refine ⟨fun id => ?_, fun h => ?_, fun h hpos => Arena.issued_create ha.recycles e ?_,
    Arena.recycles_create ha.recycles e⟩
  · have h := ha.counted id
    have hcreate := Arena.mentions_create ha.recycles e id
    change ids.count id + (s.arena.create e).2.mentions id + s.heap.mentions id ≤ _
    rw [hcreate]
    exact h
  · change ((s.arena.create e).1 :: entered).count h + s.queue.count h + s.heap.owners h ≤ 1
    rw [List.count_cons]
    have howned := ha.owned h
    split
    · next hh =>
      have hnone : ¬ 0 < entered.count h + s.queue.count h + s.heap.owners h := by
        intro hpos
        rw [← eq_of_beq hh] at hpos
        exact hfresh (ha.issued _ hpos)
      omega
    · omega
  · change 0 < ((s.arena.create e).1 :: entered).count h + s.queue.count h + s.heap.owners h at hpos
    rw [List.count_cons] at hpos
    by_cases hh : h = (s.arena.create e).1
    · exact .inl hh
    · rw [if_neg (by simpa using Ne.symm hh)] at hpos
      exact .inr (ha.issued h hpos)

theorem capture (ha : s.Accounted ids entered) (h : Handle) :
    (s.capture h).Accounted ids entered := by
  refine ⟨fun id => ?_, ha.owned, fun g hpos => Arena.issued_capture (ha.issued g hpos) h,
    Arena.recycles_capture ha.recycles h⟩
  have hcounted := ha.counted id
  change ids.count id + (s.arena.capture h).mentions id + s.heap.mentions id ≤ _
  rw [Arena.mentions_capture]
  exact hcounted

/-- A frame gets other bindings, which take over what was held outside; what they do not bind any
more is held outside then. -/
theorem rebind {h : Handle} {frame new : Frame} {out : List ObjectId}
    (ha : s.Accounted ids entered) (hf : s.arena.frame? h = some frame)
    (hcount : ∀ id, (Value.objects new.bindings.values).count id + out.count id ≤
      (Value.objects frame.bindings.values).count id + ids.count id) :
    ({ s with arena := s.arena.put h new } : Store).Accounted out entered := by
  refine ⟨fun id => ?_, ha.owned, fun g hpos => Arena.issued_put hf new (ha.issued g hpos),
    Arena.recycles_put hf new ha.recycles⟩
  have hcounted := ha.counted id
  have hput := Arena.mentions_put hf new id
  have hle := hcount id
  dsimp only
  omega

/-- An object gets another payload, which owns what the old one did. -/
theorem refill {id : ObjectId} {object : Object} {new : Payload} {out : List ObjectId}
    (ha : s.Accounted ids entered) (ho : s.heap.find? id = some object)
    (howned : new.owned = object.payload.owned)
    (hcount : ∀ other, new.children.count other + out.count other ≤
      object.payload.children.count other + ids.count other) :
    ({ s with heap := s.heap.put id (some { object with payload := new }) } : Store).Accounted
      out entered := by
  have howners : ∀ h, (s.heap.put id (some { object with payload := new })).owners h =
      s.heap.owners h := by
    intro h
    have hput := Heap.total_put ho (fun p => p.owned.count h) (some { object with payload := new })
    simp only [Heap.weigh] at hput
    rw [howned] at hput
    unfold Heap.owners
    omega
  refine ⟨fun other => ?_, fun h => ?_, fun h hpos => ha.issued h ?_, ha.recycles⟩
  · have hcounted := ha.counted other
    have hput := Heap.total_put ho (fun p => p.children.count other)
      (some { object with payload := new })
    have hle := hcount other
    simp only [Heap.weigh] at hput
    dsimp only
    rw [Heap.references_put ho]
    unfold Heap.mentions at hcounted ⊢
    split
    · next hother =>
      subst hother
      rw [Heap.references_of_find? ho] at hcounted
      simp only [Option.map_some, Option.getD_some]
      omega
    · omega
  · dsimp only
    rw [howners h]
    exact ha.owned h
  · dsimp only at hpos
    rwa [howners h] at hpos

theorem allocate {p : Payload} (ha : s.Accounted (p.children ++ ids) (p.owned ++ entered)) :
    (s.allocate p).2.Accounted ((s.allocate p).1 :: ids) entered := by
  have howners : ∀ h, (s.heap.allocate p).2.owners h = s.heap.owners h + p.owned.count h :=
    fun h => Heap.total_allocate (fun p => p.owned.count h) s.heap p
  refine ⟨fun id => ?_, fun h => ?_, fun h hpos => ha.issued h ?_, ha.recycles⟩
  · have hcounted := ha.counted id
    have htotal := Heap.total_allocate (fun p => p.children.count id) s.heap p
    change (s.heap.objects.size :: ids).count id + s.arena.mentions id +
      (s.heap.allocate p).2.mentions id ≤ (s.heap.allocate p).2.references id
    rw [List.count_append] at hcounted
    rw [List.count_cons]
    unfold Heap.mentions Heap.references at hcounted ⊢
    rw [Heap.find?_allocate, htotal]
    by_cases hid : id = s.heap.objects.size
    · subst hid
      rw [Heap.find?_size] at hcounted
      simp only [Option.map_none, Option.getD_none] at hcounted
      simp only [beq_self_eq_true, if_true, Option.map_some, Option.getD_some]
      omega
    · rw [if_neg hid, if_neg (by simpa using Ne.symm hid)]
      omega
  · change entered.count h + s.queue.count h + (s.heap.allocate p).2.owners h ≤ 1
    have howned := ha.owned h
    have hsame := howners h
    rw [List.count_append] at howned
    omega
  · change 0 < entered.count h + s.queue.count h + (s.heap.allocate p).2.owners h at hpos
    have hsame := howners h
    rw [List.count_append]
    omega

end Store.Accounted
end Lox
