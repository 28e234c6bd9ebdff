import Mathlib.Data.List.Perm.Subperm
import Mathlib.Logic.Relation
import Lox.Store.Display

/-!
# The text of arrays

Arrays can be shared and can contain themselves. What is shown of an array inside of others depends on those
alone that are being written around it. Each of these has elements and none is there twice, so there are no
more of them than there are objects, and every array has a text.
-/
namespace Lox

open Relation (ReflTransGen TransGen)

namespace Store

/-- The elements of an array in their order. -/
def elements (s : Store) (id : ObjectId) : List Value := ((s.elements? id).getD #[]).toList

/-- One array is an element of the other. -/
def Contains (s : Store) (outer inner : ObjectId) : Prop := .array inner ∈ s.elements outer

/-- The text of a value inside of the arrays on a path. An array on the path is abbreviated, any other one shows
its elements, which are inside of it as well. -/
inductive Shows (s : Store) : List ObjectId → Value → String → Prop
  | other {path : List ObjectId} {v : Value} (hv : ∀ id, v ≠ .array id) : Shows s path v (s.display v)
  | again {path : List ObjectId} {id : ObjectId} (hid : id ∈ path) : Shows s path (.array id) "[...]"
  | array {path : List ObjectId} {id : ObjectId} (hid : id ∉ path) (text : Value → String)
      (h : ∀ v ∈ s.elements id, Shows s (id :: path) v (text v)) :
      Shows s path (.array id) ("[" ++ ", ".intercalate ((s.elements id).map text) ++ "]")

/-- The text of a value that shows the elements of all arrays, wherever they are. -/
inductive Spells (s : Store) : Value → String → Prop
  | other {v : Value} (hv : ∀ id, v ≠ .array id) : Spells s v (s.display v)
  | array {id : ObjectId} (text : Value → String) (h : ∀ v ∈ s.elements id, Spells s v (text v)) :
      Spells s (.array id) ("[" ++ ", ".intercalate ((s.elements id).map text) ++ "]")

variable {s : Store} {path : List ObjectId} {v : Value} {id : ObjectId} {t t' : String}

/-! ## Every value has one text -/

theorem Shows.unique (h : s.Shows path v t) (h' : s.Shows path v t') : t = t' := by
  induction h generalizing t' with
  | other hv =>
    cases h' with
    | other => rfl
    | again => exact absurd rfl (hv _)
    | array => exact absurd rfl (hv _)
  | again hid =>
    cases h' with
    | other hv => exact absurd rfl (hv _)
    | again => rfl
    | array hnot => exact absurd hid hnot
  | array hid text h ih =>
    cases h' with
    | other hv => exact absurd rfl (hv _)
    | again hmem => exact absurd hmem hid
    | array _ text' h' =>
      have hsame : (s.elements _).map text = (s.elements _).map text' :=
        List.map_congr_left fun v hv => ih v hv (h' v hv)
      rw [hsame]

theorem Spells.unique (h : s.Spells v t) (h' : s.Spells v t') : t = t' := by
  induction h generalizing t' with
  | other hv =>
    cases h' with
    | other => rfl
    | array => exact absurd rfl (hv _)
  | array text h ih =>
    cases h' with
    | other hv => exact absurd rfl (hv _)
    | array text' h' =>
      have hsame : (s.elements _).map text = (s.elements _).map text' :=
        List.map_congr_left fun v hv => ih v hv (h' v hv)
      rw [hsame]

/-- What has elements is one of the objects. -/
theorem lt_size_of_mem_elements (hv : v ∈ s.elements id) : id < s.heap.objects.size := by
  by_contra hnot
  have hnone : s.heap.objects[id]? = none := Array.getElem?_eq_none (Nat.le_of_not_lt hnot)
  have hempty : s.elements id = [] := by
    simp [elements, elements?, Heap.payload?, Heap.find?, hnone]
  rw [hempty] at hv
  cases hv

theorem displayInside_of_not_array (hv : ∀ id, v ≠ .array id) (depth : Nat) (path : List ObjectId) :
    s.displayInside depth path v = s.display v := by
  cases v with
  | array id => exact absurd rfl (hv id)
  | _ =>
    unfold display
    simp only [displayInside]

/-- The depth is enough for all objects that are not on the path. -/
theorem shows_displayInside {depth : Nat} (hnodup : path.Nodup) (hpath : ∀ id ∈ path, id < s.heap.objects.size)
    (hdepth : s.heap.objects.size < depth + path.length) (v : Value) :
    s.Shows path v (s.displayInside depth path v) := by
  induction depth generalizing path v with
  | zero =>
    have hsub : path ⊆ List.range s.heap.objects.size := fun id hid => List.mem_range.2 (hpath id hid)
    have hle := (List.subperm_of_subset hnodup hsub).length_le
    rw [List.length_range] at hle
    omega
  | succ depth ih =>
    cases v with
    | array id =>
      rw [displayInside]
      by_cases hid : id ∈ path
      · rw [if_pos (List.contains_iff_mem.2 hid)]
        exact .again hid
      · rw [if_neg (mt List.contains_iff_mem.1 hid)]
        refine .array hid (s.displayInside depth (id :: path)) fun v hv => ?_
        refine ih (List.nodup_cons.2 ⟨hid, hnodup⟩) ?_ (by rw [List.length_cons]; omega) v
        exact List.forall_mem_cons.2 ⟨lt_size_of_mem_elements hv, hpath⟩
    | _ =>
      rw [displayInside_of_not_array (fun id => Value.noConfusion)]
      exact .other fun id => Value.noConfusion

theorem shows_display (s : Store) (v : Value) : s.Shows [] v (s.display v) :=
  shows_displayInside List.nodup_nil (List.forall_mem_nil _) (Nat.lt_succ_self _) v

/-! ## Arrays without cycles -/

/-- If no array inside of the value is on the path or contains itself, nothing is abbreviated. -/
theorem Shows.spells (h : s.Shows path v t)
    (hclear : ∀ outer, v = .array outer → ∀ inner, ReflTransGen s.Contains outer inner →
      inner ∉ path ∧ ¬ TransGen s.Contains inner inner) : s.Spells v t := by
  induction h with
  | other hv => exact .other hv
  | again hid => exact absurd hid (hclear _ rfl _ .refl).1
  | array hid text h ih =>
    refine .array text fun v hv => ih v hv fun outer houter inner hinner => ?_
    have hstep : s.Contains _ outer := houter ▸ hv
    obtain ⟨hnot, hacyclic⟩ := hclear _ rfl inner (.head hstep hinner)
    refine ⟨fun hmem => ?_, hacyclic⟩
    obtain rfl | hmem := List.mem_cons.1 hmem
    · exact (hclear _ rfl _ .refl).2 (.head' hstep hinner)
    · exact hnot hmem

/-- Whatever arrays there are and whatever they contain, every value has a text, in which exactly the arrays are
abbreviated that are met again inside of themselves. If no array inside of an array contains itself, its text
shows the elements of all of them, at each place where they stand. -/
theorem display_iff (s : Store) :
    (∀ v t, s.Shows [] v t ↔ t = s.display v) ∧
      ∀ id, (∀ inner, ReflTransGen s.Contains id inner → ¬ TransGen s.Contains inner inner) →
        ∀ t, s.Spells (.array id) t ↔ t = s.display (.array id) := by
  refine ⟨fun v t => ⟨fun h => h.unique (shows_display s v), fun h => h ▸ shows_display s v⟩,
    fun id hacyclic t => ?_⟩
  have hspells : s.Spells (.array id) (s.display (.array id)) := by
    refine (shows_display s (.array id)).spells fun outer houter inner hinner => ⟨List.not_mem_nil, ?_⟩
    cases houter
    exact hacyclic inner hinner
  exact ⟨fun h => h.unique hspells, fun h => h ▸ hspells⟩

/-- An array that is shared and not inside of itself is written out twice. -/
theorem display_iff_shared :
    let s := ((empty.allocate (.array #[.nil])).2.allocate (.array #[.array 0, .array 0])).2
    (∀ inner, ReflTransGen s.Contains 1 inner → ¬ TransGen s.Contains inner inner) ∧
      s.Spells (.array 1) "[[nil], [nil]]" := by
  intro s
  have hbelow : ∀ outer inner, s.Contains outer inner → inner < outer := by
    intro outer inner h
    have hlt : outer < 2 := lt_size_of_mem_elements h
    match outer, hlt with
    | 0, _ => cases List.mem_singleton.1 h
    | 1, _ =>
      have h : Value.array inner ∈ [.array 0, .array 0] := h
      have hinner : inner = 0 := by simpa using h
      exact hinner ▸ Nat.zero_lt_one
  have hacyclic : ∀ inner, ReflTransGen s.Contains 1 inner → ¬ TransGen s.Contains inner inner := by
    intro inner _ hcycle
    have hlt : TransGen (fun a b : Nat => b < a) inner inner := TransGen.mono hbelow _ _ hcycle
    rw [Relation.transGen_eq_self] at hlt
    exact Nat.lt_irrefl inner hlt
  exact ⟨hacyclic, ((display_iff s).2 1 hacyclic _).2 (by decide +kernel)⟩

end Store
end Lox
