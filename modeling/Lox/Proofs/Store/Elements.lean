import Lox.Proofs.Numbers.Naturals
import Lox.Proofs.Ownership.Upkeep
import Lox.Proofs.Scoping.Contents

/-!
# The elements of an array

Only a number that is equal to a whole number below the length names an element. As long as an array is there
it has the elements that it was made with, but for those that have been stored since: nothing else that is
done to a store changes them, and no other object gets the identity of an array that is gone.
-/
namespace Lox

/-- The value is a number that is equal to `k`. -/
def Value.isIndex (v : Value) (k : Nat) : Bool := v.same (.number (Float.ofNat k))

theorem Value.isIndex_iff {v : Value} {k : Nat} (hk : k ≤ 2 ^ 53) :
    v.isIndex k = true ↔ ∃ x, v = .number x ∧ Number.toNat? x = some k := by
  cases v with
  | number x => simp [isIndex, same, Number.toNat?_eq_some_iff hk]
  | _ => simp [isIndex, same]

theorem Value.isIndex_unique {v : Value} {j k : Nat} (hj : v.isIndex j = true) (hk : v.isIndex k = true)
    (hle : j ≤ 2 ^ 53) (hle' : k ≤ 2 ^ 53) : j = k := by
  obtain ⟨x, rfl, hx⟩ := (isIndex_iff hle).1 hj
  obtain ⟨y, hy, hy'⟩ := (isIndex_iff hle').1 hk
  cases hy
  exact Option.some.inj (hx.symm.trans hy')

/-- What `contents` becomes when `v` is stored at the index. -/
def storeAt (contents : List Value) (index v : Value) : List Value :=
  contents.mapIdx fun k old => if index.isIndex k = true then v else old

section

variable {contents : List Value} {index v : Value} {k : Nat}

theorem length_storeAt : (storeAt contents index v).length = contents.length := List.length_mapIdx

theorem storeAt_of_isIndex (hlength : contents.length ≤ 2 ^ 53) (hk : k < contents.length)
    (hindex : index.isIndex k = true) : storeAt contents index v = contents.set k v := by
  refine List.ext_getElem? fun j => ?_
  rw [storeAt, List.getElem?_mapIdx, List.getElem?_set]
  by_cases hjk : k = j
  · subst hjk
    simp [hindex, hk]
  · rw [if_neg hjk]
    cases hj : contents[j]? with
    | none => rfl
    | some old =>
      obtain ⟨hj, -⟩ := List.getElem?_eq_some_iff.1 hj
      have hother : ¬ index.isIndex j = true := fun h =>
        hjk (Value.isIndex_unique hindex h (by omega) (by omega))
      rw [Option.map_some, if_neg hother]

theorem storeAt_of_not_isIndex (hindex : ∀ k < contents.length, index.isIndex k = false) :
    storeAt contents index v = contents := by
  refine List.ext_getElem length_storeAt fun k hk hk' => ?_
  simp [storeAt, hindex k hk']

end

namespace Store

variable {s t : Store} {id other : ObjectId} {contents : List Value} {elements : Array Value}
  {index v : Value} {k : Nat}

/-- The object has been made. It is an array with these elements, or gone. -/
structure Lists (id : ObjectId) (contents : List Value) (s : Store) : Prop where
  made : id < s.heap.objects.size
  payload : ∀ p, s.heap.payload? id = some p → p = .array contents.toArray

namespace Lists

theorem within (h : s.Lists id contents) (hwithin : t.heap.Within s.heap) : t.Lists id contents :=
  ⟨hwithin.size ▸ h.made, fun p hp => h.payload p (hwithin.payload id p hp)⟩

theorem remains (h : s.Lists id contents) (hremains : t.Remains s) : t.Lists id contents :=
  h.within hremains.heap

theorem elements? (h : s.Lists id contents) (he : s.elements? id = some elements) :
    elements = contents.toArray := by
  have hp := h.payload _ (elements?_eq_some_iff.1 he)
  cases hp
  rfl

/-- Other objects get other identities. -/
theorem allocate (h : s.Lists id contents) (p : Payload) : (s.allocate p).2.Lists id contents := by
  have hne : id ≠ (s.allocate p).1 := Nat.ne_of_lt h.made
  refine ⟨?_, fun q hq => h.payload q ?_⟩
  · change id < (s.heap.objects.push _).size
    rw [Array.size_push]
    exact Nat.lt_succ_of_lt h.made
  · rwa [payload?_allocate, if_neg hne] at hq

theorem new (s : Store) (contents : List Value) :
    (s.allocate (.array contents.toArray)).2.Lists (s.allocate (.array contents.toArray)).1 contents := by
  refine ⟨?_, fun p hp => ?_⟩
  · change s.heap.objects.size < (s.heap.objects.push _).size
    rw [Array.size_push]
    exact Nat.lt_succ_self _
  · rw [payload?_allocate, if_pos rfl] at hp
    exact (Option.some.inj hp).symm

/-- An object is changed, but if it is this array then only if it gets the `contents`. -/
theorem modify {contents' : List Value} (h : s.Lists id contents) {f : Payload → Payload}
    (hself : other = id → f (.array contents.toArray) = .array contents'.toArray)
    (hother : other ≠ id → contents = contents') :
    ({ s with heap := s.heap.modify other f } : Store).Lists id contents' := by
  refine ⟨?_, fun p hp => ?_⟩
  · change id < (s.heap.objects.modify other _).size
    rw [Array.size_modify]
    exact h.made
  · rw [payload?_modify_eq] at hp
    split at hp
    · next heq =>
      obtain ⟨q, hq, rfl⟩ := Option.map_eq_some_iff.1 hp
      rw [h.payload q (heq ▸ hq)]
      exact hself heq.symm
    · next hne =>
      rw [h.payload p hp, hother (Ne.symm hne)]

end Lists

/-- All that is done to a store but for writes to arrays leaves the elements as they are. -/
theorem housekeeping_lists (id : ObjectId) (contents : List Value) :
    Housekeeping fun _ s => s.Lists id contents where
  retain h v := h.remains (remains_retain _ v)
  discardObjects h ids := h.remains (remains_discardObjects _ ids)
  define {_ s} hs h name v := by
    cases hf : s.arena.frame? h with
    | none =>
      rw [define_of_none hf]
      exact hs.remains (remains_discard s v)
    | some f =>
      rw [define_of_some hf]
      exact hs.within (remains_discardObjects _ _).heap
  create h _ := ⟨h.made, h.payload⟩
  release {_ _ h} hs := hs.remains (remains_release _ h)
  drain h := h.remains (remains_drain _)
  closeOver h _ _ _ := ⟨h.made, h.payload⟩
  makeClass h _ _ _ := ⟨h.made, h.payload⟩
  allocate _ h := h.allocate _
  guard {_ _ h} hs f := hs.allocate (.binding h)
  setField {_ s} h other name v := by
    have hmodify : ({ s with heap := s.heap.modify other (Payload.setField name v) } : Store).Lists id contents :=
      h.modify (fun _ => rfl) fun _ => rfl
    unfold Store.setField
    dsimp only
    split
    · exact hmodify.remains (remains_discard _ _)
    · exact hmodify

/-! ## Reading -/

/-- Only a number equal to a whole number below the length names an element. -/
theorem slot?_eq_some_iff (he : s.elements? id = some elements) (hsize : elements.size ≤ 2 ^ 53) :
    s.slot? id index = some k ↔ k < elements.size ∧ index.isIndex k = true := by
  have hlength : s.length id = elements.size := by
    unfold Store.length
    rw [he]
  unfold slot?
  rw [hlength]
  cases index with
  | number x =>
    dsimp only
    rw [Option.filter_eq_some_iff, decide_eq_true_iff, and_comm]
    refine and_congr_right fun hk => ?_
    exact (Number.toNat?_eq_some_iff (by omega)).trans Iff.rfl
  | _ => simp [Value.isIndex, Value.same]

theorem slot?_eq_none_iff (he : s.elements? id = some elements) (hsize : elements.size ≤ 2 ^ 53) :
    s.slot? id index = none ↔ ∀ k < elements.size, index.isIndex k = false := by
  rw [Option.eq_none_iff_forall_ne_some]
  simp only [ne_eq, slot?_eq_some_iff he hsize, not_and, Bool.not_eq_true]

/-- At an index that names an element stands that element. -/
theorem element_of_isIndex (he : s.elements? id = some contents.toArray) (hlength : contents.length ≤ 2 ^ 53)
    (hv : contents[k]? = some v) (hindex : index.isIndex k = true) : s.element id index = v := by
  obtain ⟨hk, -⟩ := List.getElem?_eq_some_iff.1 hv
  have hslot := (slot?_eq_some_iff he hlength).2 ⟨hk, hindex⟩
  simp [element, hslot, he, hv]

/-- At any other stands nothing. -/
theorem element_of_not_isIndex (he : s.elements? id = some contents.toArray)
    (hlength : contents.length ≤ 2 ^ 53) (hindex : ∀ k < contents.length, index.isIndex k = false) :
    s.element id index = .nil := by
  have hslot := (slot?_eq_none_iff he hlength).2 hindex
  simp [element, hslot]

/-! ## Writing -/

/-- What is given back has been stored. -/
theorem setElement_of_isIndex (he : s.elements? id = some contents.toArray) (hlength : contents.length ≤ 2 ^ 53)
    (hk : k < contents.length) (hindex : index.isIndex k = true) : (s.setElement id index v).1 = v := by
  have hslot := (slot?_eq_some_iff he hlength).2 ⟨hk, hindex⟩
  simp [setElement, hslot]

theorem setElement_of_not_isIndex (he : s.elements? id = some contents.toArray)
    (hlength : contents.length ≤ 2 ^ 53) (hindex : ∀ k < contents.length, index.isIndex k = false) :
    s.setElement id index v = (.nil, s) :=
  setElement_of_none ((slot?_eq_none_iff he hlength).2 hindex) v

/-- A write to another array leaves the elements as they are. -/
theorem Lists.setElement_other (h : s.Lists id contents) (hne : other ≠ id) (index v : Value) :
    (s.setElement other index v).2.Lists id contents := by
  unfold setElement
  split
  · refine Lists.remains ?_ (remains_discard _ _)
    exact (h.remains (remains_retain s v)).modify (fun heq => absurd heq hne) fun _ => rfl
  · exact h

/-- A write changes the element that the index names, and nothing else. -/
theorem Lists.setElement (h : s.Lists id contents) (hlength : contents.length ≤ 2 ^ 53) (index v : Value) :
    (s.setElement id index v).2.Lists id (storeAt contents index v) := by
  cases hp : s.heap.payload? id with
  | none =>
    have helements : s.elements? id = none := by simp [Store.elements?, hp]
    have hslot : s.slot? id index = none := by
      cases index <;> simp [slot?, Store.length, helements]
    rw [setElement_of_none hslot]
    exact ⟨h.made, fun p hp' => nomatch hp.symm.trans hp'⟩
  | some p =>
    obtain rfl := h.payload p hp
    have he := elements?_eq_some_iff.2 hp
    by_cases hindex : ∃ k < contents.length, index.isIndex k = true
    · obtain ⟨k, hk, hindex⟩ := hindex
      have hslot := (slot?_eq_some_iff he hlength).2 ⟨hk, hindex⟩
      have hold : contents.toArray[k]? = some contents[k] := by simp [hk]
      rw [setElement_of_slot? hslot he hold, storeAt_of_isIndex hlength hk hindex]
      refine Lists.remains ?_ (remains_discard _ _)
      exact (h.remains (remains_retain s v)).modify (fun _ => by simp) fun hne => absurd rfl hne
    · simp only [not_exists, not_and, Bool.not_eq_true] at hindex
      rw [setElement_of_not_isIndex he hlength hindex, storeAt_of_not_isIndex hindex]
      exact h

end Store
end Lox
