import Mathlib.Data.List.Nodup
import Mathlib.Data.List.Perm.Subperm
import Lox.Proofs.Ownership.Frames
import Lox.Proofs.Ownership.Runs
import Lox.Proofs.Splicing.Sessions
import Lox.Proofs.Store.WellFormed

/-!
# No frame is lost

Between runs every live frame is captured, in the queue or owned by a bound method. A run without new
functions, classes and bound methods leaves no more frames than there were, where frames that the next
drain can free do not count. A captured frame counts in the queue, too, since the drain leaves it where
it is.
-/
namespace Lox

namespace Arena

/-- The live frames. -/
def handles (a : Arena) : List Handle :=
  (List.range a.slots.size).filterMap fun (index : Nat) =>
    match a.slots[index]? with
    | some (.occupied generation _) => some ⟨index, generation⟩
    | _ => none

variable {a : Arena} {h : Handle}

theorem mem_handles : h ∈ a.handles ↔ a.contains h = true := by
  obtain ⟨index, generation⟩ := h
  unfold handles
  rw [List.mem_filterMap, contains_iff]
  constructor
  · rintro ⟨i, -, hi⟩
    split at hi
    · next frame hs =>
      cases hi
      exact ⟨frame, frame?_eq_some_iff.2 hs⟩
    · cases hi
  · rintro ⟨frame, hf⟩
    have hs := frame?_eq_some_iff.1 hf
    refine ⟨index, List.mem_range.2 (Array.getElem?_eq_some_iff.1 hs).1, ?_⟩
    dsimp only at hs
    rw [hs]

theorem nodup_handles (a : Arena) : a.handles.Nodup := by
  refine List.Nodup.filterMap (fun i j h hi hj => ?_) List.nodup_range
  split at hi <;> cases hi
  split at hj <;> cases hj
  rfl

end Arena

/-- The bound methods to which there are references, with their frames. -/
def Heap.bound (heap : Heap) : List (ObjectId × Handle) :=
  (List.range heap.objects.size).filterMap fun (id : ObjectId) =>
    match heap.payload? id with
    | some (.binding h) => some (id, h)
    | _ => none

theorem Heap.mem_bound {heap : Heap} {id : ObjectId} {h : Handle} :
    (id, h) ∈ heap.bound ↔ heap.payload? id = some (.binding h) := by
  unfold bound
  rw [List.mem_filterMap]
  constructor
  · rintro ⟨i, -, hi⟩
    split at hi
    · next hp =>
      cases hi
      exact hp
    · cases hi
  · intro hp
    obtain ⟨object, ho, -⟩ := Option.map_eq_some_iff.1 hp
    refine ⟨id, List.mem_range.2 (Array.getElem?_eq_some_iff.1 (find?_eq_some_iff.1 ho)).1, ?_⟩
    rw [hp]

namespace Store

variable {before s : Store} {l : List Handle} {h : Handle}

/-- The live frames that are not in the queue. -/
def outside (s : Store) : List Handle := s.arena.handles.filter fun h => h ∉ s.queue

/-- The live frames that are captured or not in the queue. -/
def lasting (s : Store) : List Handle :=
  s.arena.handles.filter fun h => (s.arena.frame? h).any Frame.captured || h ∉ s.queue

theorem mem_lasting :
    h ∈ s.lasting ↔ s.arena.contains h = true ∧ (s.arena.Captured h ∨ h ∉ s.queue) := by
  unfold lasting Arena.Captured
  rw [List.mem_filter, Arena.mem_handles, Bool.or_eq_true, decide_eq_true_iff, Option.any_eq_true]

theorem nodup_lasting (s : Store) : s.lasting.Nodup :=
  (Arena.nodup_handles s.arena).filter _

theorem exists_binding_of_owners (hpos : 0 < s.heap.owners h) :
    ∃ id, s.heap.payload? id = some (.binding h) := by
  obtain ⟨n, hn, hpos⟩ := List.sum_pos_iff_exists_pos_nat.1 hpos
  obtain ⟨entry, hentry, rfl⟩ := List.mem_map.1 hn
  obtain ⟨id, hid⟩ := Array.getElem?_of_mem (Array.mem_toList_iff.1 hentry)
  cases entry with
  | none => cases hpos
  | some object =>
    obtain ⟨references, payload⟩ := object
    cases payload with
    | binding g =>
      obtain rfl := List.mem_singleton.1 (List.count_pos_iff.1 hpos)
      exact ⟨id, Option.map_eq_some_iff.2 ⟨_, Heap.find?_eq_some_iff.2 hid, rfl⟩⟩
    | _ => cases hpos

theorem Tended.restart (hs : Tended before l s) : Tended s l s :=
  ⟨hs.recycles, hs.reclaims, hs.kept, fun _ h => h, fun _ _ h => h, le_rfl, fun _ _ h => h⟩

theorem tended_empty : Tended empty [] empty := by
  refine ⟨⟨List.nodup_nil, nofun⟩, rfl, fun h f hf => ?_, fun _ h => h, fun _ _ h => h, le_rfl,
    fun _ _ h => h⟩
  obtain ⟨-, rfl⟩ := Arena.frame?_new hf
  exact .inl rfl

/-- Frames that last without new functions, classes or bound methods have lasted all the time. -/
theorem Tended.lasting_subset (hs : Tended before [] s) {ids : List ObjectId}
    (ha : before.Accounted ids []) (hstamps : s.heap.nextStamp = before.heap.nextStamp)
    (hbound : s.heap.bound ⊆ before.heap.bound) : s.lasting ⊆ before.lasting := by
  intro h hh
  obtain ⟨hc, hlasts⟩ := mem_lasting.1 hh
  obtain ⟨f, hf⟩ := Arena.contains_iff.1 hc
  have hcaptured : s.arena.Captured h → h ∈ before.lasting := fun hc =>
    mem_lasting.2 ⟨(hs.captured hstamps h hc).contains, .inl (hs.captured hstamps h hc)⟩
  obtain hcap | hpos := hs.kept h f hf
  · exact hcaptured ⟨f, hf, hcap⟩
  obtain hcap | hqueue := hlasts
  · exact hcaptured hcap
  -- a bound method owns the frame, and it did so before, when the frame was not in the queue either
  unfold keepers at hpos
  rw [List.count_nil, List.count_eq_zero.2 hqueue] at hpos
  obtain ⟨id, hp⟩ := exists_binding_of_owners (s := s) (h := h) (by omega)
  have howned := owners_pos (Heap.mem_bound.1 (hbound (Heap.mem_bound.2 hp)))
  have hone := ha.owned h
  have hissued := ha.issued h (by omega)
  refine mem_lasting.2 ⟨hs.live h hissued hc, .inr fun hmem => ?_⟩
  have hcount := List.count_pos_iff.2 hmem
  omega

end Store

namespace Session

open Store (Tended upkeep_tended)

variable {s : Session} {fuel : Nat} {mode : Mode} {source : String} {status : Status}

theorem tended_new (sink : Sink) (clock : Clock) :
    Tended .empty [] (Session.new sink clock).interpreter.store := by
  have hdefine : ∀ (natives : List Native) {t : Store}, Tended .empty [] t →
      Tended .empty [] (natives.foldl (fun s n => s.define .globals n.name (.native n)) t) := by
    intro natives
    induction natives with
    | nil => exact fun ht => ht
    | cons n rest ih => exact fun ht => ih (ht.define .globals n.name (.native n))
  exact hdefine Native.all Store.tended_empty

theorem Reached.tended (hs : s.Reached) : Tended s.interpreter.store [] s.interpreter.store := by
  induction hs with
  | new sink clock => exact (tended_new sink clock).restart
  | run hs fuel mode source hended ih =>
    obtain ⟨a, b, u, hidle⟩ := hs.idle
    exact (upkeep_run (upkeep_tended _) hidle ih hended).restart

theorem Reached.accounted (hs : s.Reached) : s.interpreter.store.Accounted [] [] := by
  obtain ⟨a, b, u, ⟨ρ, ht⟩, -⟩ := hs.idle
  exact ht.store.healthy.accounted

theorem Reached.active (hs : s.Reached) : s.interpreter.active = .globals := by
  obtain ⟨a, b, u, ⟨ρ, ht⟩, -⟩ := hs.idle
  exact ht.active

/-- After a run that has ended in whatever way the global frame is active, and every other live frame is
captured, owned by a bound method to which there are references, or in the queue. If no function or
class has been made and there are no new bound methods, no more frames last than did before. -/
theorem frames_of_run (hs : s.Reached) (hended : (s.run fuel mode source).1.outcome = .status status) :
    let before := s.interpreter.store
    let after := (s.run fuel mode source).2.interpreter
    after.active = .globals ∧
      (∀ h ∈ after.store.arena.handles,
        after.store.arena.Captured h ∨ (∃ id, (id, h) ∈ after.store.heap.bound) ∨
          h ∈ after.store.queue) ∧
      (after.store.heap.nextStamp = before.heap.nextStamp → after.store.heap.bound ⊆ before.heap.bound →
        after.store.lasting.length ≤ before.lasting.length) := by
  obtain ⟨a, b, u, hidle⟩ := hs.idle
  have htended := upkeep_run (upkeep_tended s.interpreter.store) hidle hs.tended hended
  refine ⟨(hs.run fuel mode source hended).active, fun h hh => ?_, fun hstamps hbound => ?_⟩
  · obtain ⟨f, hf⟩ := Arena.contains_iff.1 (Arena.mem_handles.1 hh)
    obtain hc | hpos := htended.kept h f hf
    · exact .inl ⟨f, hf, hc⟩
    refine .inr (Classical.or_iff_not_imp_right.2 fun hqueue => ?_)
    unfold Store.keepers at hpos
    rw [List.count_nil, List.count_eq_zero.2 hqueue] at hpos
    obtain ⟨id, hp⟩ := Store.exists_binding_of_owners (s := (s.run fuel mode source).2.interpreter.store)
      (h := h) (by omega)
    exact ⟨id, Heap.mem_bound.2 hp⟩
  · have hsubset := htended.lasting_subset hs.accounted hstamps hbound
    exact (List.subperm_of_subset (Store.nodup_lasting _) hsubset).length_le

/-- The frame in which a bound method was called that has gone since has been captured meanwhile and is
still in the queue. -/
def leftover : Session :=
  let s := Session.new {} ⟨fun _ => 0, 0, 0⟩
  let s := (s.run 99 .program "class A { m() { fun g() {} } } fun h(b) { b(); return b; }").2
  (s.run 99 .expression "h(A().m)").2

theorem reached_leftover : leftover.Reached := by
  refine .run (.run (.new _ _) 99 .program _ (?_ : _ = Outcome.status .ok)) 99 .expression _
    (?_ : _ = Outcome.status .ok) <;> decide +kernel

/-- A run that makes nothing. -/
theorem run_leftover :
    let result := leftover.run 99 .program "nil;"
    result.1.outcome = .status .ok ∧
      result.2.interpreter.store.heap.nextStamp = leftover.interpreter.store.heap.nextStamp ∧
      result.2.interpreter.store.heap.bound ⊆ leftover.interpreter.store.heap.bound := by
  decide +kernel

theorem frames_of_run_leftover :
    leftover.Reached ∧ (leftover.run 99 .program "nil;").1.outcome = .status .ok ∧
      (leftover.run 99 .program "nil;").2.interpreter.active = .globals ∧
      (leftover.run 99 .program "nil;").2.interpreter.store.lasting.length ≤
        leftover.interpreter.store.lasting.length := by
  obtain ⟨hended, hstamps, hbound⟩ := run_leftover
  obtain ⟨hactive, -, hlasting⟩ := frames_of_run reached_leftover hended
  exact ⟨reached_leftover, hended, hactive, hlasting hstamps hbound⟩

/-- The queue may lose frames that are not freed, because they are captured. -/
theorem outside_grows :
    let before := leftover.interpreter.store
    let result := leftover.run 99 .program "nil;"
    let after := result.2.interpreter.store
    leftover.Reached ∧ result.1.outcome = .status .ok ∧ after.heap.nextStamp = before.heap.nextStamp ∧
      after.heap.bound ⊆ before.heap.bound ∧ before.outside.length < after.outside.length := by
  obtain ⟨hended, hstamps, hbound⟩ := run_leftover
  exact ⟨reached_leftover, hended, hstamps, hbound, by decide +kernel⟩

end Session
end Lox
