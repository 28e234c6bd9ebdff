import Mathlib.Algebra.Order.BigOperators.Group.List
import Mathlib.Algebra.Order.Group.Nat
import Mathlib.Algebra.Ring.Nat
import Lox.Proofs.Store.Arena

/-!
# Counting references

How often the frames and the objects of a store refer to an object, and how often objects own a
frame, as sums over the slots. Every change of the store is one slot overwritten or one added, and
these sums follow it.
-/
namespace Lox

variable {α : Type}

def tally (f : α → Nat) (items : Array α) : Nat := (items.toList.map f).sum

theorem sum_map_set (f : α → Nat) {items : List α} {i : Nat} {old : α} (h : items[i]? = some old)
    (new : α) : ((items.set i new).map f).sum + f old = (items.map f).sum + f new := by
  induction items generalizing i with
  | nil => cases h
  | cons first rest ih =>
    cases i with
    | zero =>
      cases h
      simp only [List.set_cons_zero, List.map_cons, List.sum_cons]
      omega
    | succ i =>
      have hrest := ih (i := i) h
      simp only [List.set_cons_succ, List.map_cons, List.sum_cons]
      omega

theorem tally_set (f : α → Nat) {items : Array α} {i : Nat} {old : α} (h : items[i]? = some old)
    (new : α) : tally f (items.setIfInBounds i new) + f old = tally f items + f new := by
  unfold tally
  rw [Array.toList_setIfInBounds]
  exact sum_map_set f (by rw [Array.getElem?_toList, h]) new

theorem tally_push (f : α → Nat) (items : Array α) (new : α) :
    tally f (items.push new) = tally f items + f new := by
  simp [tally]

theorem le_tally (f : α → Nat) {items : Array α} {i : Nat} {a : α} (h : items[i]? = some a) :
    f a ≤ tally f items := by
  unfold tally
  refine List.le_sum_of_mem (List.mem_map_of_mem ?_)
  rw [Array.mem_toList_iff]
  exact Array.mem_of_getElem? h

/-! ## Objects that values hold -/

theorem count_objects_cons (v : Value) (values : List Value) (id : ObjectId) :
    (Value.objects (v :: values)).count id =
      (Value.objects [v]).count id + (Value.objects values).count id := by
  unfold Value.objects
  rw [← List.count_append, ← List.filterMap_append]
  rfl

theorem count_objects_append (left right : List Value) (id : ObjectId) :
    (Value.objects (left ++ right)).count id =
      (Value.objects left).count id + (Value.objects right).count id := by
  unfold Value.objects
  rw [List.filterMap_append, List.count_append]

theorem objects_singleton (v : Value) : Value.objects [v] = v.object?.toList := by
  unfold Value.objects
  cases h : v.object? <;> simp [h]

theorem objects_eq_nil {values : List Value} (h : ∀ v ∈ values, v.object? = none) :
    Value.objects values = [] :=
  List.filterMap_eq_nil_iff.2 h

theorem mem_objects_of_mem {v : Value} {values : List Value} {id : ObjectId} (hv : v ∈ values)
    (hid : v.object? = some id) : id ∈ Value.objects values :=
  List.mem_filterMap.2 ⟨v, hv, hid⟩

theorem children_array (elements : Array Value) :
    (Payload.array elements).children = Value.objects elements.toList := by
  show elements.foldr _ [] = _
  rw [← Array.foldr_toList]
  induction elements.toList with
  | nil => rfl
  | cons v rest ih =>
    rw [List.foldr_cons, ih, Value.objects, Value.objects]
    cases hv : v.object? <;> simp [hv]

/-- Binding a name replaces what was bound to it. -/
theorem count_objects_insert (b : Bindings Value) (name : String) (v : Value) (id : ObjectId) :
    (Value.objects (b.insert name v).values).count id + (Value.objects (b.find? name).toList).count id =
      (Value.objects b.values).count id + (Value.objects [v]).count id := by
  obtain ⟨entries⟩ := b
  unfold Bindings.insert Bindings.find? Bindings.values
  dsimp only
  induction entries with
  | nil => simp [Bindings.place, Bindings.lookup, Value.objects]
  | cons entry rest ih =>
    obtain ⟨key, old⟩ := entry
    rw [Bindings.place, Bindings.lookup]
    split
    · simp only [List.map_cons, Option.toList_some]
      rw [count_objects_cons v (rest.map Prod.snd), count_objects_cons old (rest.map Prod.snd)]
      omega
    · simp only [List.map_cons]
      rw [count_objects_cons old ((Bindings.place name v rest).map Prod.snd),
        count_objects_cons old (rest.map Prod.snd)]
      omega

/-! ## Frames -/

def Slot.mentions (id : ObjectId) : Slot → Nat
  | .occupied _ frame => (Value.objects frame.bindings.values).count id
  | .vacant _ => 0

namespace Arena

def mentions (a : Arena) (id : ObjectId) : Nat := tally (Slot.mentions id) a.slots

theorem count_le_mentions {a : Arena} {h : Handle} {frame : Frame} (hf : a.frame? h = some frame)
    (id : ObjectId) : (Value.objects frame.bindings.values).count id ≤ a.mentions id :=
  le_tally (Slot.mentions id) (frame?_eq_some_iff.1 hf)

theorem mentions_put {a : Arena} {h : Handle} {frame : Frame} (hf : a.frame? h = some frame)
    (new : Frame) (id : ObjectId) :
    (a.put h new).mentions id + (Value.objects frame.bindings.values).count id =
      a.mentions id + (Value.objects new.bindings.values).count id :=
  tally_set (Slot.mentions id) (frame?_eq_some_iff.1 hf) (.occupied h.generation new)

theorem mentions_vacate {a : Arena} {h : Handle} {frame : Frame} (hf : a.frame? h = some frame)
    (id : ObjectId) :
    (a.vacate h.index).mentions id + (Value.objects frame.bindings.values).count id =
      a.mentions id := by
  have hs := frame?_eq_some_iff.1 hf
  have hset := tally_set (Slot.mentions id) hs (.vacant (h.generation + 1))
  unfold mentions vacate
  rw [hs]
  exact hset

theorem mentions_create {a : Arena} (hr : a.Recycles) (e : Handle) (id : ObjectId) :
    (a.create e).2.mentions id = a.mentions id := by
  obtain ⟨i, free, generation, -, hs, hc⟩ | ⟨-, hc⟩ := create_cases hr e
  · rw [hc]
    exact tally_set (Slot.mentions id) hs (.occupied generation ⟨Bindings.empty, some e, false⟩)
  · rw [hc]
    exact tally_push (Slot.mentions id) a.slots (.occupied 0 ⟨Bindings.empty, some e, false⟩)

theorem mentions_capture (a : Arena) (h : Handle) (id : ObjectId) :
    (a.capture h).mentions id = a.mentions id := by
  refine capture_induction (P := fun a _ b => b.mentions id = a.mentions id) (fun _ _ _ => rfl)
    ?_ ?_ a h
  · intro a h f outer hf _ _ ih
    have hput := mentions_put hf { f with captured := true } id
    dsimp only at hput
    omega
  · intro a h f hf _ _
    have hput := mentions_put hf { f with captured := true } id
    dsimp only at hput
    omega

end Arena

/-! ## Objects -/

namespace Heap

def weigh (f : Payload → Nat) : Option Object → Nat
  | some object => f object.payload
  | none => 0

/-- The sum of a quantity over the objects. -/
def total (f : Payload → Nat) (heap : Heap) : Nat := tally (weigh f) heap.objects

def mentions (heap : Heap) (id : ObjectId) : Nat := heap.total fun p => p.children.count id

/-- How many objects own a frame. -/
def owners (heap : Heap) (h : Handle) : Nat := heap.total fun p => p.owned.count h

/-- The count that an object keeps of the references to it. -/
def references (heap : Heap) (id : ObjectId) : Nat :=
  ((heap.find? id).map Object.references).getD 0

def put (heap : Heap) (id : ObjectId) (entry : Option Object) : Heap :=
  { heap with objects := heap.objects.setIfInBounds id entry }

theorem find?_eq_some_iff {heap : Heap} {id : ObjectId} {object : Object} :
    heap.find? id = some object ↔ heap.objects[id]? = some (some object) := by
  unfold find?
  cases heap.objects[id]? with
  | none => simp
  | some entry => simp

theorem le_total (f : Payload → Nat) {heap : Heap} {id : ObjectId} {p : Payload}
    (hp : heap.payload? id = some p) : f p ≤ heap.total f := by
  obtain ⟨object, ho, rfl⟩ := Option.map_eq_some_iff.1 hp
  exact le_tally (weigh f) (find?_eq_some_iff.1 ho)

section

variable {heap : Heap} {id : ObjectId} {object : Object} (ho : heap.find? id = some object)
include ho

theorem find?_put (entry : Option Object) (other : ObjectId) :
    (heap.put id entry).find? other = if other = id then entry else heap.find? other := by
  obtain ⟨hi, -⟩ := Array.getElem?_eq_some_iff.1 (find?_eq_some_iff.1 ho)
  unfold find? put
  by_cases h : other = id
  · subst h
    simp [hi]
  · simp [h, Ne.symm h]

theorem total_put (f : Payload → Nat) (entry : Option Object) :
    (heap.put id entry).total f + f object.payload =
      heap.total f + weigh f entry :=
  tally_set (weigh f) (find?_eq_some_iff.1 ho) entry

theorem retain_eq_put :
    heap.retain id = heap.put id (some { object with references := object.references + 1 }) := by
  unfold retain put
  rw [modify_eq_setIfInBounds (find?_eq_some_iff.1 ho)]

theorem modify_eq_put (f : Payload → Payload) :
    heap.modify id f = heap.put id (some { object with payload := f object.payload }) := by
  unfold modify put
  rw [modify_eq_setIfInBounds (find?_eq_some_iff.1 ho)]

theorem drop_eq_put :
    heap.drop id = if 1 < object.references then
      (none, heap.put id (some { object with references := object.references - 1 }))
    else (some object.payload, heap.put id none) := by
  unfold drop put
  rw [find?_eq_some_iff.1 ho]

end

theorem drop_of_none {heap : Heap} {id : ObjectId} (h : heap.find? id = none) :
    heap.drop id = (none, heap) := by
  unfold drop
  split
  · next object hs =>
    rw [find?_eq_some_iff.2 hs] at h
    cases h
  · rfl

theorem eq_none_of_find? {heap : Heap} {id : ObjectId} (h : heap.find? id = none)
    {entry : Option Object} (hs : heap.objects[id]? = some entry) : entry = none := by
  unfold find? at h
  rw [hs] at h
  exact h

theorem modify_of_none {heap : Heap} {id : ObjectId} (h : heap.find? id = none)
    (f : Payload → Payload) : heap.modify id f = heap := by
  unfold modify
  rw [modify_of_fixed]
  intro entry hs
  rw [eq_none_of_find? h hs]

theorem retain_of_none {heap : Heap} {id : ObjectId} (h : heap.find? id = none) :
    heap.retain id = heap := by
  unfold retain
  rw [modify_of_fixed]
  intro entry hs
  rw [eq_none_of_find? h hs]

theorem find?_allocate (heap : Heap) (p : Payload) (id : ObjectId) :
    (heap.allocate p).2.find? id =
      if id = heap.objects.size then some ⟨1, p⟩ else heap.find? id := by
  unfold allocate find?
  dsimp only
  rw [Array.getElem?_push]
  split <;> rfl

theorem total_allocate (f : Payload → Nat) (heap : Heap) (p : Payload) :
    (heap.allocate p).2.total f = heap.total f + f p :=
  tally_push (weigh f) heap.objects (some ⟨1, p⟩)

theorem find?_size (heap : Heap) : heap.find? heap.objects.size = none := by
  unfold find?
  simp

end Heap
end Lox
