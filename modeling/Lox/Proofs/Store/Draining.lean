import Mathlib.Data.List.Flatten
import Mathlib.Data.List.Nodup
import Lox.Proofs.Store.Ledgers

/-!
# What a drain frees

A frame goes if it is queued or if the object that owns it goes, unless it is captured; an object goes
with the last reference to it, when all that are left were held by what goes itself. Draining the
queue frees the least set of frames for which this is so, each of them once, and nothing else.
-/
namespace Lox

def Node.handle? : Node → Option Handle
  | .frame h => some h
  | .object _ => none

/-- One frame less is counted. -/
theorem Arena.occupied_vacate {a : Arena} {h : Handle} {f : Frame} (hf : a.frame? h = some f) :
    (a.vacate h.index).occupied + 1 = a.occupied := by
  have hs := Arena.frame?_eq_some_iff.1 hf
  obtain ⟨hi, hslot⟩ := Array.getElem?_eq_some_iff.1 hs
  have hlt := Arena.occupied_vacate_lt hf
  unfold Arena.vacate Arena.occupied at hlt ⊢
  simp only [hs] at hlt ⊢
  rw [Array.setIfInBounds_def, dif_pos hi, Array.countP_set, hslot] at hlt ⊢
  simp only [Slot.isOccupied, if_true, Bool.false_eq_true, if_false] at hlt ⊢
  omega

namespace Store

variable {s t : Store} {gone : List Node} {pending : List ObjectId} {h : Handle} {f : Frame}
  {id : ObjectId}

/-- The objects to which a frame or an object holds a reference, once for each of them. -/
def holds (s : Store) : Node → List ObjectId
  | .frame h => ((s.arena.frame? h).map fun f => Value.objects f.bindings.values).getD []
  | .object id => ((s.heap.payload? id).map Payload.children).getD []

/-- What goes when the queue is drained: the least set with these rules. -/
inductive Vanishes (s : Store) : Node → Prop where
  | queued {h : Handle} {f : Frame} (hq : h ∈ s.queue) (hl : s.arena.loose? h = some f) :
      Vanishes s (.frame h)
  /-- The frame that a bound method owns goes when the method does. -/
  | owned {id : ObjectId} {h : Handle} {f : Frame} (hid : Vanishes s (.object id))
      (hp : s.heap.payload? id = some (.binding h)) (hl : s.arena.loose? h = some f) :
      Vanishes s (.frame h)
  /-- All references that the object counts are held by what goes. -/
  | dropped {id : ObjectId} {object : Object} {holders : List Node}
      (ho : s.heap.find? id = some object) (hnodup : holders.Nodup)
      (hgone : ∀ n ∈ holders, Vanishes s n) (hmem : id ∈ holders.flatMap s.holds)
      (hlast : object.references ≤ (holders.flatMap s.holds).count id) : Vanishes s (.object id)

/-- The guard of the frame has been dropped, before the drain or by an object that is gone. -/
def Unguarded (s : Store) (gone : List Node) (h : Handle) : Prop :=
  h ∈ s.queue ∨ ∃ id, .object id ∈ gone ∧ s.heap.payload? id = some (.binding h)

/-- How many of the references that were held by what is gone have been dropped, while others are
pending. -/
def dropped (s : Store) (gone : List Node) (pending : List ObjectId) (id : ObjectId) : Nat :=
  (gone.flatMap s.holds).count id - pending.count id

/-- A drain that began with the store `s` has come to `t`. What is `gone` is gone, and of the
references that it held only the `pending` ones are still to be dropped. -/
structure Draining (s : Store) (gone : List Node) (pending : List ObjectId) (t : Store) : Prop where
  nodup : gone.Nodup
  vanishes : ∀ n ∈ gone, s.Vanishes n
  reclaims : t.arena.reclaims = s.arena.reclaims
  frames : ∀ h, t.arena.frame? h = if .frame h ∈ gone then none else s.arena.frame? h
  occupied : t.arena.occupied + (gone.filterMap Node.handle?).length = s.arena.occupied
  counted : ∀ id, pending.count id ≤ (gone.flatMap s.holds).count id
  lost : ∀ id, .object id ∈ gone ∨ s.heap.find? id = none → t.heap.find? id = none
  objects : ∀ id object, s.heap.find? id = some object → .object id ∉ gone →
    t.heap.find? id =
      some { object with references := object.references - s.dropped gone pending id } ∧
    (s.dropped gone pending id = 0 ∨ s.dropped gone pending id < object.references)
  queued : ∀ h ∈ t.queue, s.Unguarded gone h
  /-- A frame without a guard waits in the queue, unless it must not be freed. -/
  waiting : ∀ h, s.Unguarded gone h → h ∈ t.queue ∨ t.arena.loose? h = none

@[simp] theorem unguarded_frame_cons {g : Handle} :
    s.Unguarded (.frame g :: gone) h ↔ s.Unguarded gone h := by
  simp [Unguarded]

@[simp] theorem unguarded_object_cons :
    s.Unguarded (.object id :: gone) h ↔
      s.Unguarded gone h ∨ s.heap.payload? id = some (.binding h) := by
  unfold Unguarded
  simp only [List.mem_cons, Node.object.injEq, or_and_right, exists_or, exists_eq_left]
  rw [or_assoc, or_comm (a := s.heap.payload? id = _)]

theorem holds_frame (hf : s.arena.frame? h = some f) :
    s.holds (.frame h) = Value.objects f.bindings.values := by
  rw [holds, hf]
  rfl

theorem holds_object {object : Object} (ho : s.heap.find? id = some object) :
    s.holds (.object id) = object.payload.children := by
  rw [holds, Heap.payload?, ho]
  rfl

theorem dropped_of_ne {other : ObjectId} (hne : id ≠ other) :
    s.dropped gone (id :: pending) other = s.dropped gone pending other := by
  unfold dropped
  rw [List.count_cons_of_ne hne]

theorem mem_owned {p : Payload} : h ∈ p.owned ↔ p = .binding h := by
  cases p <;> simp [Payload.owned, eq_comm]

namespace Draining

theorem start (s : Store) : s.Draining [] [] s := by
  refine ⟨List.nodup_nil, nofun, rfl, fun h => ?_, rfl, fun id => Nat.le_refl _, fun id hid => ?_,
    fun id object ho _ => ⟨ho, .inl rfl⟩, fun h hq => .inl hq, fun h hh => ?_⟩
  · rw [if_neg List.not_mem_nil]
  · exact hid.resolve_left List.not_mem_nil
  · obtain hq | ⟨id, hid, -⟩ := hh
    · exact .inl hq
    · cases hid

/-! ## Dropping references -/

section

variable {object : Object} (hd : s.Draining gone (id :: pending) t)
include hd

theorem dropped_self : s.dropped gone pending id = s.dropped gone (id :: pending) id + 1 := by
  have hle := hd.counted id
  unfold Store.dropped
  rw [List.count_cons_self] at hle ⊢
  omega

theorem counted_tail (other : ObjectId) :
    pending.count other ≤ (gone.flatMap s.holds).count other :=
  Nat.le_trans (List.count_le_count_cons) (hd.counted other)

/-- There is no object any more from which the reference could be dropped. -/
theorem skip (ho : t.heap.find? id = none) : s.Draining gone pending t := by
  refine { hd with counted := hd.counted_tail, objects := fun other object hobject hleft => ?_ }
  have hsame := hd.objects other object hobject hleft
  have hne : id ≠ other := by
    rintro rfl
    rw [hsame.1] at ho
    cases ho
  rwa [Store.dropped_of_ne hne] at hsame

/-- An object that is left is one from the beginning. -/
theorem origin (ho : t.heap.find? id = some object) : .object id ∉ gone ∧
    ∃ first, s.heap.find? id = some first ∧ first.payload = object.payload ∧
      object.references = first.references - s.dropped gone (id :: pending) id ∧
      (s.dropped gone (id :: pending) id = 0 ∨
        s.dropped gone (id :: pending) id < first.references) := by
  have hleft : .object id ∉ gone := by
    intro hmem
    rw [hd.lost id (.inl hmem)] at ho
    cases ho
  cases hfirst : s.heap.find? id with
  | none =>
    rw [hd.lost id (.inr hfirst)] at ho
    cases ho
  | some first =>
    obtain ⟨hfound, hbound⟩ := hd.objects id first hfirst hleft
    rw [hfound] at ho
    cases ho
    exact ⟨hleft, first, rfl, rfl, rfl, hbound⟩

theorem fewer (ho : t.heap.find? id = some object) (hr : 1 < object.references) :
    s.Draining gone pending { t with
      heap := t.heap.put id (some { object with references := object.references - 1 }) } := by
  obtain ⟨hleft, first, hfirst, hpayload, hreferences, -⟩ := hd.origin ho
  refine { hd with
    counted := hd.counted_tail
    lost := fun other hother => ?_
    objects := fun other object' hobject hother => ?_ }
  · rw [Heap.find?_put ho, if_neg]
    · exact hd.lost other hother
    · rintro rfl
      rw [hd.lost other hother] at ho
      cases ho
  · rw [Heap.find?_put ho]
    by_cases hid : other = id
    · subst hid
      obtain rfl := Option.some.inj (hfirst.symm.trans hobject)
      rw [if_pos rfl, hd.dropped_self, hreferences, ← hpayload, Nat.sub_sub]
      exact ⟨rfl, .inr (by omega)⟩
    · rw [if_neg hid, ← Store.dropped_of_ne (Ne.symm hid)]
      exact hd.objects other object' hobject hother

/-- The last reference is dropped: the object goes, and what it holds is dropped next. -/
theorem last (ho : t.heap.find? id = some object) (hr : object.references ≤ 1) :
    s.Draining (.object id :: gone) (object.payload.children ++ pending)
      { t with heap := t.heap.put id none, queue := object.payload.owned ++ t.queue } := by
  obtain ⟨hleft, first, hfirst, hpayload, hreferences, hbound⟩ := hd.origin ho
  have hholds : s.holds (.object id) = object.payload.children := hpayload ▸ holds_object hfirst
  have hpay : s.heap.payload? id = some object.payload := by
    rw [Heap.payload?, hfirst, ← hpayload]
    rfl
  have hcount : (gone.flatMap s.holds).count id =
      s.dropped gone (id :: pending) id + (id :: pending).count id := by
    have hle := hd.counted id
    unfold Store.dropped
    omega
  rw [List.count_cons_self] at hcount
  refine { hd with
    nodup := List.nodup_cons.2 ⟨hleft, hd.nodup⟩
    vanishes := List.forall_mem_cons.2 ⟨?_, hd.vanishes⟩
    frames := fun h => by simpa using hd.frames h
    counted := fun other => ?_
    lost := fun other hother => ?_
    objects := fun other object' hobject hother => ?_
    queued := fun h hh => ?_
    waiting := fun h hh => ?_ }
  · exact .dropped hfirst hd.nodup hd.vanishes (List.count_pos_iff.1 (by omega)) (by omega)
  · rw [List.flatMap_cons, hholds, List.count_append, List.count_append]
    exact Nat.add_le_add_left (hd.counted_tail other) _
  · rw [Heap.find?_put ho]
    split
    · rfl
    · next hne => exact hd.lost other (hother.imp_left fun hmem => by simpa [hne] using hmem)
  · have hne : id ≠ other := by
      rintro rfl
      exact hother List.mem_cons_self
    have hsame : s.dropped (.object id :: gone) (object.payload.children ++ pending) other =
        s.dropped gone (id :: pending) other := by
      rw [Store.dropped_of_ne hne]
      unfold Store.dropped
      rw [List.flatMap_cons, hholds, List.count_append, List.count_append, Nat.add_sub_add_left]
    rw [Heap.find?_put ho, if_neg (Ne.symm hne), hsame]
    exact hd.objects other object' hobject fun hmem => hother (List.mem_cons_of_mem _ hmem)
  · rw [unguarded_object_cons, hpay, Option.some.injEq, ← mem_owned]
    exact (List.mem_append.1 hh).symm.imp_left (hd.queued h)
  · rw [unguarded_object_cons, hpay, Option.some.injEq, ← mem_owned] at hh
    obtain hh | hh := hh
    · exact (hd.waiting h hh).imp_left (List.mem_append_right _)
    · exact .inl (List.mem_append_left _ hh)

end

/-- When all that is pending has been dropped, more objects may be gone, but no more frames. -/
theorem discard (hd : s.Draining gone pending t) : ∃ more,
    s.Draining more [] (t.discardObjects pending) ∧
      more.filterMap Node.handle? = gone.filterMap Node.handle? := by
  refine Heap.discard_induction (P := fun heap queue pending result => ∀ gone,
    s.Draining gone pending { t with heap := heap, queue := queue } → ∃ more,
      s.Draining more [] { t with heap := result.1, queue := result.2 } ∧
        more.filterMap Node.handle? = gone.filterMap Node.handle?) ?_ ?_ ?_ ?_
    t.heap t.queue pending gone hd
  · exact fun heap queue gone hd => ⟨gone, hd, rfl⟩
  · exact fun heap queue id rest result ho ih gone hd => ih gone (hd.skip ho)
  · exact fun heap queue id rest object result ho hr ih gone hd => ih gone (hd.fewer ho hr)
  · exact fun heap queue id rest object result ho hr ih gone hd => ih (.object id :: gone) (hd.last ho hr)

/-! ## Freeing frames -/

/-- The next frame in the queue is freed, and the references in it are to be dropped. -/
theorem vacate (hd : s.Draining gone [] t) {queue : List Handle}
    (hn : t.arena.nextLoose? t.queue = some (h, f, queue)) :
    s.Draining (.frame h :: gone) (Value.objects f.bindings.values)
      { t with arena := t.arena.vacate h.index, queue := queue } := by
  obtain ⟨hl, hsuffix⟩ := nextLoose?_eq_some hn
  have hf := Arena.frame?_of_loose? hl
  have hleft : .frame h ∉ gone := by
    intro hmem
    rw [hd.frames, if_pos hmem] at hf
    cases hf
  have hfirst : s.arena.frame? h = some f := by rwa [hd.frames, if_neg hleft] at hf
  have hloose : s.arena.loose? h = some f := by
    rw [← hl, Arena.loose?, Arena.loose?, hf, hfirst, hd.reclaims]
  have hholds : s.holds (.frame h) = Value.objects f.bindings.values := holds_frame hfirst
  have hdropped : ∀ id, s.dropped (.frame h :: gone) (Value.objects f.bindings.values) id =
      s.dropped gone [] id := by
    intro id
    unfold Store.dropped
    rw [List.flatMap_cons, hholds, List.count_append, Nat.add_sub_cancel_left]
    rfl
  refine { hd with
    nodup := List.nodup_cons.2 ⟨hleft, hd.nodup⟩
    vanishes := List.forall_mem_cons.2 ⟨?_, hd.vanishes⟩
    reclaims := (Arena.reclaims_vacate t.arena h.index).trans hd.reclaims
    frames := fun g => ?_
    occupied := ?_
    counted := fun id => ?_
    lost := fun id hid => hd.lost id (hid.imp_left fun hmem => by simpa using hmem)
    objects := fun id object ho hleft => ?_
    queued := fun g hg => ?_
    waiting := fun g hg => ?_ }
  · obtain hq | ⟨id, hid, hp⟩ := hd.queued h (hsuffix.subset List.mem_cons_self)
    · exact .queued hq hloose
    · exact .owned (hd.vanishes _ hid) hp hloose
  · rw [Arena.frame?_vacate_of_frame? hf]
    by_cases hgh : g = h
    · rw [if_pos hgh, if_pos (by rw [hgh]; exact List.mem_cons_self)]
    · rw [if_neg hgh, hd.frames]
      simp [hgh]
  · have hone := Arena.occupied_vacate hf
    have hall := hd.occupied
    rw [List.filterMap_cons]
    simp only [Node.handle?, List.length_cons]
    omega
  · rw [List.flatMap_cons, hholds, List.count_append]
    exact Nat.le_add_right _ _
  · rw [hdropped]
    exact hd.objects id object ho fun hmem => hleft (List.mem_cons_of_mem _ hmem)
  · rw [unguarded_frame_cons]
    exact hd.queued g (hsuffix.subset (List.mem_cons_of_mem _ hg))
  · rw [unguarded_frame_cons] at hg
    have hgone : t.arena.loose? g = none → (t.arena.vacate h.index).loose? g = none := by
      intro hnone
      unfold Arena.loose? at hnone ⊢
      rw [Arena.frame?_vacate_of_frame? hf, Arena.reclaims_vacate]
      split
      · rfl
      · exact hnone
    obtain hq | hnone := hd.waiting g hg
    · obtain hnone | hmem := Arena.mem_of_nextLoose? hn hq
      · exact .inr (hgone hnone)
      · refine (List.mem_cons.1 hmem).symm.imp id ?_
        rintro rfl
        unfold Arena.loose?
        rw [Arena.frame?_vacate_of_frame? hf, if_pos rfl]
        rfl
    · exact .inr (hgone hnone)

/-- What the drain does from here on: the count goes up by the frames that are freed from now on. -/
theorem drainFrom {t : Store} {gone : List Node} (hd : s.Draining gone [] t) (freed : Nat) : ∃ more,
    s.Draining more [] (t.drainFrom freed).2 ∧ (t.drainFrom freed).2.queue = [] ∧
      (t.drainFrom freed).1 + (gone.filterMap Node.handle?).length =
        freed + (more.filterMap Node.handle?).length := by
  cases hn : t.arena.nextLoose? t.queue with
  | none =>
    rw [drainFrom_of_none hn]
    refine ⟨gone, { hd with queued := nofun, waiting := fun h hh => .inr ?_ }, rfl, rfl⟩
    exact (hd.waiting h hh).elim (Arena.loose?_of_nextLoose? hn) id
  | some next =>
    obtain ⟨h, f, queue⟩ := next
    have hlt : ({ t with queue := queue }.free h.index f).arena.occupied < t.arena.occupied :=
      Arena.occupied_vacate_lt (Arena.frame?_of_nextLoose? hn)
    obtain ⟨dead, hdead, hframes⟩ := (hd.vacate hn).discard
    obtain ⟨more, hmore, hqueue, hcount⟩ := hdead.drainFrom (freed + 1)
    rw [drainFrom_of_some hn]
    refine ⟨more, hmore, hqueue, ?_⟩
    rw [hframes, List.filterMap_cons] at hcount
    simp only [Node.handle?, List.length_cons] at hcount
    change (Store.drainFrom (freed + 1) ({ t with queue := queue }.free h.index f)).1 + _ = _ at hcount
    omega
termination_by t.arena.occupied

/-- When nothing waits any more, all is gone that had to go. -/
theorem mem_of_vanishes (hd : s.Draining gone [] t) (hqueue : t.queue = []) {n : Node}
    (hn : s.Vanishes n) : n ∈ gone := by
  have hloose : ∀ {h f}, s.Unguarded gone h → s.arena.loose? h = some f → .frame h ∈ gone := by
    intro h f hh hl
    by_contra hleft
    have hnone : t.arena.loose? h = none := by
      refine (hd.waiting h hh).resolve_left fun hmem => ?_
      rw [hqueue] at hmem
      cases hmem
    unfold Arena.loose? at hl hnone
    rw [hd.frames, if_neg hleft, hd.reclaims, hl] at hnone
    cases hnone
  induction hn with
  | queued hq hl => exact hloose (.inl hq) hl
  | owned _ hp hl ih => exact hloose (.inr ⟨_, ih, hp⟩) hl
  | @dropped id object holders ho hnodup _ hmem hlast ih =>
    by_contra hleft
    have hbound := (hd.objects id object ho hleft).2
    -- what holds the references is among what is gone, so the references have been dropped
    have hle : (holders.flatMap s.holds).count id ≤ (gone.flatMap s.holds).count id := by
      obtain ⟨same, hperm, hsub⟩ := List.subperm_of_subset hnodup ih
      rw [← (hperm.flatMap_right s.holds).count_eq id]
      exact (hsub.flatMap s.holds).count_le id
    have hpos := List.count_pos_iff.2 hmem
    unfold Store.dropped at hbound
    rw [List.count_nil] at hbound
    omega

end Draining
end Store

namespace Ledger

/-- Whatever has been done before, a drain frees just the frames of the least set that has every
queued frame and every frame owned by a bound method that goes, as long as they are not captured;
it counts each once, leaves all other frames as they are and empties the queue, so that a second
drain does nothing. -/
theorem drain_run (ops : List Operation) :
    let s := (start.run ops).store
    ∃ freed : List Handle, freed.Nodup ∧ (∀ h, h ∈ freed ↔ s.Vanishes (.frame h)) ∧
      s.drain.1 = freed.length ∧ s.drain.2.live + freed.length = s.live ∧
      (∀ h, s.drain.2.arena.frame? h = if h ∈ freed then none else s.arena.frame? h) ∧
      s.drain.2.queue = [] ∧ s.drain.2.drain = (0, s.drain.2) := by
  intro s
  obtain ⟨gone, hd, hqueue, hcount⟩ := (Store.Draining.start s).drainFrom 0
  have hbefore := (sound_start.run ops).wellFormed.live
  have hafter := ((sound_start.run ops).perform .drain).wellFormed.live
  have hmem : ∀ h, h ∈ gone.filterMap Node.handle? ↔ .frame h ∈ gone := by
    intro h
    rw [List.mem_filterMap]
    constructor
    · rintro ⟨n, hn, hh⟩
      cases n with
      | frame g => exact Option.some.inj hh ▸ hn
      | object id => cases hh
    · exact fun hn => ⟨_, hn, rfl⟩
  refine ⟨gone.filterMap Node.handle?, List.Nodup.filterMap ?_ hd.nodup, fun h => ?_, ?_, ?_,
    fun h => ?_, hqueue, ?_⟩
  · intro n m h hn hm
    cases n <;> cases m <;> simp_all [Node.handle?]
  · rw [hmem]
    exact ⟨hd.vanishes _, hd.mem_of_vanishes hqueue⟩
  · rw [List.filterMap_nil, List.length_nil, Nat.add_zero, Nat.zero_add] at hcount
    exact hcount
  · have hall := hd.occupied
    change s.drain.2.arena.live + _ = s.arena.live
    rw [show s.arena.live = _ from hbefore, show s.drain.2.arena.live = _ from hafter]
    exact hall
  · rw [show s.drain.2.arena.frame? h = _ from hd.frames h]
    simp only [hmem]
  · have hnone : s.drain.2.arena.nextLoose? s.drain.2.queue = none := by
      rw [show s.drain.2.queue = [] from hqueue]
      rfl
    rw [Store.drain, Store.drainFrom_of_none hnone, ← show s.drain.2.queue = [] from hqueue]

end Ledger
end Lox
