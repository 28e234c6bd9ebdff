import Lox.Store.Frames

/-!
# Objects

Instances, arrays and bindings of methods are counted by the references to them and go when the
last one is dropped. A binding owns the frame of its bound method: when it goes, the
frame is queued for release. Objects that refer to each other in a cycle stay.
-/
namespace Lox

inductive Payload where
  | instance (parent : Class) (fields : Bindings Value)
  | array (elements : Array Value)
  | binding (frame : Handle)

structure Object where
  references : Nat
  payload : Payload

/-- Addresses are never used again; those of objects that are gone hold nothing. -/
structure Heap where
  objects : Array (Option Object)
  /-- The next identity for a function or class. -/
  nextStamp : Nat

/-- The objects that some values keep alive. -/
def Value.objects (values : List Value) : List ObjectId := values.filterMap Value.object?

namespace Payload

/-- The objects that this one keeps alive. -/
def children : Payload → List ObjectId
  | .instance _ fields => Value.objects fields.values
  | array elements => elements.foldr (fun v ids => v.object?.toList ++ ids) []
  | binding _ => []

/-- The frame that is released when the object goes. -/
def owned : Payload → List Handle
  | binding frame => [frame]
  | _ => []

end Payload

namespace Heap

def empty : Heap := ⟨#[], 0⟩

def find? (heap : Heap) (id : ObjectId) : Option Object := heap.objects[id]?.join

def payload? (heap : Heap) (id : ObjectId) : Option Payload := (heap.find? id).map Object.payload

def live (heap : Heap) : Nat := heap.objects.countP Option.isSome

def stamp (heap : Heap) : Nat × Heap :=
  (heap.nextStamp, { heap with nextStamp := heap.nextStamp + 1 })

/-- A new object with one reference to it. -/
def allocate (heap : Heap) (payload : Payload) : ObjectId × Heap :=
  (heap.objects.size, { heap with objects := heap.objects.push (some ⟨1, payload⟩) })

def modify (heap : Heap) (id : ObjectId) (f : Payload → Payload) : Heap :=
  { heap with objects := heap.objects.modify id fun
      | some object => some { object with payload := f object.payload }
      | none => none }

/-- Counts one more reference to an object. -/
def retain (heap : Heap) (id : ObjectId) : Heap :=
  { heap with objects := heap.objects.modify id fun
      | some object => some { object with references := object.references + 1 }
      | none => none }

/-- Drops one reference to an object. With the last one the object goes, and what it was is
given back. -/
def drop (heap : Heap) (id : ObjectId) : Option Payload × Heap :=
  match heap.objects[id]? with
  | some (some object) =>
    if 1 < object.references then
      let fewer := some { object with references := object.references - 1 }
      (none, { heap with objects := heap.objects.setIfInBounds id fewer })
    else (some object.payload, { heap with objects := heap.objects.setIfInBounds id none })
  | _ => (none, heap)

/-- Drops references up to the first that was the last one to its object. -/
def dropNext (heap : Heap) : List ObjectId → Option (Payload × List ObjectId) × Heap
  | [] => (none, heap)
  | id :: rest =>
    match heap.drop id with
    | (some payload, heap) => (some (payload, rest), heap)
    | (none, heap) => heap.dropNext rest

theorem live_drop_of_none {heap : Heap} {id : ObjectId} (h : (heap.drop id).1 = none) :
    (heap.drop id).2.live = heap.live := by
  unfold drop at h ⊢
  split at h
  · next object hid =>
    by_cases hr : 1 < object.references
    · obtain ⟨hi, ho⟩ := Array.getElem?_eq_some_iff.1 hid
      have hpos : 0 < heap.objects.countP Option.isSome :=
        Array.countP_pos_iff.2 ⟨heap.objects[id], Array.getElem_mem hi, by rw [ho]; rfl⟩
      simp only [hr, if_true, live]
      rw [Array.setIfInBounds_def, dif_pos hi, Array.countP_set, ho]
      simp only [Option.isSome_some, if_true]
      omega
    · rw [if_neg hr] at h
      cases h
  · rfl

theorem live_drop_lt {heap : Heap} {id : ObjectId} {payload : Payload}
    (h : (heap.drop id).1 = some payload) : (heap.drop id).2.live < heap.live := by
  unfold drop at h ⊢
  split at h
  · next object hid =>
    by_cases hr : 1 < object.references
    · rw [if_pos hr] at h
      cases h
    · simp only [hr, if_false]
      exact countP_setIfInBounds_lt hid rfl rfl
  · cases h

theorem live_dropNext_lt {heap : Heap} {ids rest : List ObjectId} {payload : Payload}
    (h : (heap.dropNext ids).1 = some (payload, rest)) :
    (heap.dropNext ids).2.live < heap.live := by
  induction ids generalizing heap with
  | nil => cases h
  | cons id ids ih =>
    rw [dropNext] at h ⊢
    rcases hd : heap.drop id with ⟨gone, after⟩
    cases gone with
    | some found =>
      have hlt : (heap.drop id).2.live < heap.live := live_drop_lt (by rw [hd])
      rwa [hd] at hlt
    | none =>
      have heq : (heap.drop id).2.live = heap.live := live_drop_of_none (by rw [hd])
      rw [hd] at heq h
      exact heq ▸ ih h

/-- Drops one reference to each of the objects, and with the last one to an object those that
it holds itself. Frames owned by objects that go are added to the queue. -/
def discard (heap : Heap) (queue : List Handle) (ids : List ObjectId) : Heap × List Handle :=
  match h : heap.dropNext ids with
  | (some (payload, rest), after) =>
    have : after.live < heap.live := by
      have hlt : (heap.dropNext ids).2.live < heap.live := live_dropNext_lt (by rw [h])
      rwa [h] at hlt
    discard after (payload.owned ++ queue) (payload.children ++ rest)
  | (none, after) => (after, queue)
termination_by heap.live

end Heap
end Lox
