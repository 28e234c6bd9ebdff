import Mathlib.Data.List.Basic
import Lox.Store.Trace

/-!
# What the operations on frames do to a handle

Each operation of the arena is described by what a handle finds afterwards. Nothing later on has to
open the slots again.
-/
namespace Lox

theorem modify_eq_setIfInBounds {α : Type} {items : Array α} {i : Nat} {old : α}
    (h : items[i]? = some old) (f : α → α) :
    items.modify i f = items.setIfInBounds i (f old) := by
  obtain ⟨hi, -⟩ := Array.getElem?_eq_some_iff.1 h
  apply Array.ext_getElem?
  intro j
  rw [Array.getElem?_modify]
  by_cases hij : i = j
  · subst hij
    rw [if_pos rfl, h, Array.getElem?_setIfInBounds_self_of_lt hi]
    rfl
  · rw [if_neg hij, Array.getElem?_setIfInBounds_ne hij]

theorem modify_of_fixed {α : Type} {items : Array α} {i : Nat} {f : α → α}
    (h : ∀ old, items[i]? = some old → f old = old) : items.modify i f = items := by
  apply Array.ext_getElem?
  intro j
  rw [Array.getElem?_modify]
  by_cases hij : i = j
  · subst hij
    rw [if_pos rfl]
    cases hs : items[i]? with
    | none => rfl
    | some old => exact congrArg some (h old hs)
  · rw [if_neg hij]

def Slot.vacated : Slot → Slot
  | .occupied generation _ => .vacant (generation + 1)
  | .vacant generation => .vacant generation

/-- Has the slot had an occupant of this generation? -/
def Slot.Knew : Slot → Nat → Prop
  | .occupied generation _, n => n ≤ generation
  | .vacant generation, n => n < generation

namespace Arena

theorem frame?_eq_some_iff {a : Arena} {h : Handle} {frame : Frame} :
    a.frame? h = some frame ↔ a.slots[h.index]? = some (.occupied h.generation frame) := by
  unfold frame?
  constructor
  · intro hf
    split at hf
    · next generation f hs =>
      split at hf
      · next hg => cases hf; rw [hs, hg]
      · cases hf
    · cases hf
  · intro hs
    simp [hs]

theorem contains_iff {a : Arena} {h : Handle} : a.contains h = true ↔ ∃ f, a.frame? h = some f :=
  Option.isSome_iff_exists

theorem frame?_congr {a b : Arena} {h : Handle} (hs : a.slots[h.index]? = b.slots[h.index]?) :
    a.frame? h = b.frame? h := by
  unfold frame?
  rw [hs]

/-! ## Emptying a slot -/

theorem slots_vacate (a : Arena) (i j : Nat) :
    (a.vacate i).slots[j]? = if i = j then (a.slots[j]?).map Slot.vacated else a.slots[j]? := by
  unfold vacate
  split
  · next generation f hs =>
    obtain ⟨hi, -⟩ := Array.getElem?_eq_some_iff.1 hs
    by_cases h : i = j
    · subst h
      rw [if_pos rfl, hs]
      simp [hi, Slot.vacated]
    · simp [h]
  · next hs =>
    split
    · next h =>
      subst h
      cases hj : a.slots[i]? with
      | none => rfl
      | some slot =>
        cases slot with
        | occupied generation f => exact absurd hj (hs generation f)
        | vacant generation => rfl
    · rfl

theorem frame?_vacate (a : Arena) (i : Nat) (h : Handle) :
    (a.vacate i).frame? h = if i = h.index then none else a.frame? h := by
  by_cases hi : i = h.index
  · rw [if_pos hi, frame?, slots_vacate, if_pos hi]
    rcases a.slots[h.index]? with _ | (_ | _) <;> rfl
  · rw [if_neg hi]
    exact frame?_congr (by rw [slots_vacate, if_neg hi])

theorem frame?_of_vacate {a : Arena} {i : Nat} {h : Handle} {f : Frame}
    (hf : (a.vacate i).frame? h = some f) : i ≠ h.index ∧ a.frame? h = some f := by
  rw [frame?_vacate] at hf
  split at hf
  · cases hf
  · next hne => exact ⟨hne, hf⟩

@[simp] theorem reclaims_vacate (a : Arena) (i : Nat) : (a.vacate i).reclaims = a.reclaims := by
  unfold vacate
  split <;> rfl

theorem live_vacate_le (a : Arena) (i : Nat) : (a.vacate i).live ≤ a.live := by
  unfold vacate
  split
  · exact Nat.sub_le _ _
  · exact Nat.le_refl _

/-- As long as the count of frames is right, it stays right when a frame is freed. -/
theorem live_vacate {a : Arena} (h : a.live = a.occupied) (i : Nat) :
    (a.vacate i).live = (a.vacate i).occupied := by
  unfold vacate
  split
  · next generation f hs =>
    obtain ⟨hi, hslot⟩ := Array.getElem?_eq_some_iff.1 hs
    simp only [occupied, h]
    rw [Array.setIfInBounds_def, dif_pos hi, Array.countP_set, hslot]
    simp [Slot.isOccupied]
  · exact h

theorem frame?_vacate_of_frame? {a : Arena} {h : Handle} {frame : Frame}
    (hf : a.frame? h = some frame) (g : Handle) :
    (a.vacate h.index).frame? g = if g = h then none else a.frame? g := by
  rw [frame?_vacate]
  by_cases hgh : g = h
  · rw [if_pos hgh, if_pos (by rw [hgh])]
  · rw [if_neg hgh]
    split
    · next hindex =>
      unfold frame?
      rw [← hindex, frame?_eq_some_iff.1 hf]
      dsimp only
      rw [if_neg]
      intro hgeneration
      exact hgh (congrArg₂ Handle.mk hindex hgeneration).symm
    · rfl

/-! ## Handles that have been given out -/

/-- The handle has been given out. -/
def Issued (a : Arena) (h : Handle) : Prop :=
  ∃ slot, a.slots[h.index]? = some slot ∧ slot.Knew h.generation

/-- The free list names vacant slots, each once. -/
structure Recycles (a : Arena) : Prop where
  nodup : a.free.Nodup
  vacant : ∀ i ∈ a.free, ∃ generation, a.slots[i]? = some (.vacant generation)

theorem issued_of_frame? {a : Arena} {h : Handle} {frame : Frame} (hf : a.frame? h = some frame) :
    a.Issued h :=
  ⟨_, frame?_eq_some_iff.1 hf, Nat.le_refl _⟩

theorem knew_vacated {slot : Slot} {n : Nat} (h : slot.Knew n) : slot.vacated.Knew n := by
  cases slot with
  | occupied generation f => exact Nat.lt_succ_of_le h
  | vacant generation => exact h

theorem issued_vacate {a : Arena} {h : Handle} (hi : a.Issued h) (i : Nat) :
    (a.vacate i).Issued h := by
  obtain ⟨slot, hs, hknew⟩ := hi
  by_cases hij : i = h.index
  · exact ⟨slot.vacated, by rw [slots_vacate, if_pos hij, hs]; rfl, knew_vacated hknew⟩
  · exact ⟨slot, by rw [slots_vacate, if_neg hij, hs], hknew⟩

theorem recycles_vacate {a : Arena} (hr : a.Recycles) (i : Nat) : (a.vacate i).Recycles := by
  cases hs : a.slots[i]? with
  | none =>
    have hsame : a.vacate i = a := by
      unfold vacate
      rw [hs]
    rw [hsame]
    exact hr
  | some slot =>
    cases slot with
    | vacant generation =>
      have hsame : a.vacate i = a := by
        unfold vacate
        rw [hs]
      rw [hsame]
      exact hr
    | occupied generation f =>
      have hfree : (a.vacate i).free = i :: a.free := by
        unfold vacate
        rw [hs]
      have hnew : i ∉ a.free := by
        intro hmem
        obtain ⟨g, hg⟩ := hr.vacant i hmem
        rw [hs] at hg
        cases hg
      refine ⟨?_, fun j hj => ?_⟩
      · rw [hfree]
        exact List.nodup_cons.2 ⟨hnew, hr.nodup⟩
      · rw [hfree] at hj
        rw [slots_vacate]
        split
        · next h =>
          subst h
          rw [hs]
          exact ⟨_, rfl⟩
        · next h =>
          obtain hj | hj := List.mem_cons.1 hj
          · exact absurd hj.symm h
          · exact hr.vacant j hj

/-! ## Adding a frame -/

theorem create_of_free {a : Arena} {i : Nat} {free : List Nat} {generation : Nat}
    (hfree : a.free = i :: free) (hs : a.slots[i]? = some (.vacant generation)) (e : Handle) :
    a.create e = (⟨i, generation⟩, { a with
      slots := a.slots.setIfInBounds i (.occupied generation ⟨Bindings.empty, some e, false⟩)
      free := free
      live := a.live + 1 }) := by
  unfold create
  rw [hfree]
  dsimp only
  rw [hs]

theorem create_of_full {a : Arena} (hfree : a.free = []) (e : Handle) :
    a.create e = (⟨a.slots.size, 0⟩, { a with
      slots := a.slots.push (.occupied 0 ⟨Bindings.empty, some e, false⟩)
      live := a.live + 1 }) := by
  unfold create
  rw [hfree]

/-- Either the slot freed last is used again or a slot is added. -/
theorem create_cases {a : Arena} (hr : a.Recycles) (e : Handle) :
    (∃ i free generation, a.free = i :: free ∧ a.slots[i]? = some (.vacant generation) ∧
      a.create e = (⟨i, generation⟩, { a with
        slots := a.slots.setIfInBounds i (.occupied generation ⟨Bindings.empty, some e, false⟩)
        free := free
        live := a.live + 1 })) ∨
    (a.free = [] ∧ a.create e = (⟨a.slots.size, 0⟩, { a with
      slots := a.slots.push (.occupied 0 ⟨Bindings.empty, some e, false⟩)
      live := a.live + 1 })) := by
  by_cases hfree : a.free = []
  · exact .inr ⟨hfree, create_of_full hfree e⟩
  · obtain ⟨i, free, hfree⟩ := List.exists_cons_of_ne_nil hfree
    obtain ⟨generation, hs⟩ := hr.vacant i (by rw [hfree]; exact List.mem_cons_self)
    exact .inl ⟨i, free, generation, hfree, hs, create_of_free hfree hs e⟩

@[simp] theorem reclaims_create (a : Arena) (e : Handle) :
    (a.create e).2.reclaims = a.reclaims := by
  unfold create
  split <;> rfl

section

variable {a : Arena} (hr : a.Recycles) (e : Handle)
include hr

theorem not_issued_create : ¬ a.Issued (a.create e).1 := by
  rintro ⟨slot, hslot, hknew⟩
  obtain ⟨i, free, generation, -, hs, hc⟩ | ⟨-, hc⟩ := create_cases hr e
  · rw [hc] at hslot hknew
    rw [hs] at hslot
    cases hslot
    exact Nat.lt_irrefl _ hknew
  · rw [hc] at hslot
    simp at hslot

theorem frame?_create (h : Handle) :
    (a.create e).2.frame? h =
      if h = (a.create e).1 then some ⟨Bindings.empty, some e, false⟩ else a.frame? h := by
  obtain ⟨i, free, generation, -, hs, hc⟩ | ⟨-, hc⟩ := create_cases hr e
  · obtain ⟨hi, -⟩ := Array.getElem?_eq_some_iff.1 hs
    rw [hc]
    obtain ⟨j, g⟩ := h
    by_cases hij : i = j
    · subst hij
      unfold frame?
      rw [hs]
      simp [hi, eq_comm]
    · unfold frame?
      simp [hij, Ne.symm hij]
  · rw [hc]
    obtain ⟨j, g⟩ := h
    unfold frame?
    dsimp only
    rw [Array.getElem?_push]
    by_cases hj : j = a.slots.size
    · subst hj
      simp [eq_comm]
    · simp [hj]

/-- A frame is the new one, or it was there before. -/
theorem frame?_create_cases {h : Handle} {f : Frame} (hf : (a.create e).2.frame? h = some f) :
    (h = (a.create e).1 ∧ f = ⟨Bindings.empty, some e, false⟩) ∨ a.frame? h = some f := by
  rw [frame?_create hr] at hf
  split at hf
  · next heq =>
    cases hf
    exact .inl ⟨heq, rfl⟩
  · exact .inr hf

theorem issued_create {h : Handle} (hi : h = (a.create e).1 ∨ a.Issued h) :
    (a.create e).2.Issued h := by
  obtain rfl | ⟨slot, hslot, hknew⟩ := hi
  · exact issued_of_frame? ((frame?_create hr e _).trans (if_pos rfl))
  · obtain ⟨i, free, generation, -, hs, hc⟩ | ⟨-, hc⟩ := create_cases hr e
    · obtain ⟨hsize, -⟩ := Array.getElem?_eq_some_iff.1 hs
      rw [hc]
      by_cases hij : i = h.index
      · rw [← hij, hs] at hslot
        cases hslot
        refine ⟨.occupied generation ⟨Bindings.empty, some e, false⟩, ?_, Nat.le_of_lt hknew⟩
        rw [← hij, Array.getElem?_setIfInBounds_self_of_lt hsize]
      · exact ⟨slot, by rw [Array.getElem?_setIfInBounds_ne hij, hslot], hknew⟩
    · obtain ⟨hsize, -⟩ := Array.getElem?_eq_some_iff.1 hslot
      rw [hc]
      exact ⟨slot, by rw [Array.getElem?_push_lt hsize, ← hslot, Array.getElem?_eq_getElem hsize],
        hknew⟩

theorem recycles_create : (a.create e).2.Recycles := by
  obtain ⟨i, free, generation, hfree, hs, hc⟩ | ⟨hfree, hc⟩ := create_cases hr e
  · have hnodup := hr.nodup
    rw [hfree, List.nodup_cons] at hnodup
    rw [hc]
    refine ⟨hnodup.2, fun j hj => ?_⟩
    have hij : i ≠ j := by
      rintro rfl
      exact hnodup.1 hj
    dsimp only
    rw [Array.getElem?_setIfInBounds_ne hij]
    exact hr.vacant j (by rw [hfree]; exact List.mem_cons_of_mem _ hj)
  · rw [hc]
    refine ⟨hr.nodup, fun j hj => ?_⟩
    rw [hfree] at hj
    cases hj

end

/-! ## Changing a frame -/

/-- The arena with another frame behind a handle. -/
def put (a : Arena) (h : Handle) (new : Frame) : Arena :=
  { a with slots := a.slots.setIfInBounds h.index (.occupied h.generation new) }

section

variable {a : Arena} {h g : Handle} {frame : Frame} (hf : a.frame? h = some frame) (new : Frame)
include hf

theorem frame?_put (g : Handle) :
    (a.put h new).frame? g = if g = h then some new else a.frame? g := by
  have hs := frame?_eq_some_iff.1 hf
  obtain ⟨hi, -⟩ := Array.getElem?_eq_some_iff.1 hs
  obtain ⟨j, n⟩ := g
  obtain ⟨i, m⟩ := h
  dsimp only at hs hi
  unfold frame? put
  by_cases hij : i = j
  · subst hij
    dsimp only
    rw [Array.getElem?_setIfInBounds_self_of_lt hi, hs]
    by_cases hmn : m = n
    · simp [hmn]
    · simp [hmn, Ne.symm hmn]
  · simp [hij, Ne.symm hij]

/-- A frame is the one that was put there, or it was there before. -/
theorem frame?_put_cases {new f : Frame} (hg : (a.put h new).frame? g = some f) :
    (g = h ∧ f = new) ∨ a.frame? g = some f := by
  rw [frame?_put hf] at hg
  split at hg
  · next heq =>
    cases hg
    exact .inl ⟨heq, rfl⟩
  · exact .inr hg

theorem issued_put (hg : a.Issued g) : (a.put h new).Issued g := by
  have hs := frame?_eq_some_iff.1 hf
  obtain ⟨hi, -⟩ := Array.getElem?_eq_some_iff.1 hs
  obtain ⟨slot, hslot, hknew⟩ := hg
  by_cases hij : h.index = g.index
  · rw [← hij, hs] at hslot
    cases hslot
    refine ⟨.occupied h.generation new, ?_, hknew⟩
    rw [put, ← hij, Array.getElem?_setIfInBounds_self_of_lt hi]
  · exact ⟨slot, by rw [put, Array.getElem?_setIfInBounds_ne hij, hslot], hknew⟩

theorem recycles_put (hr : a.Recycles) : (a.put h new).Recycles := by
  refine ⟨hr.nodup, fun i hi => ?_⟩
  obtain ⟨generation, hs⟩ := hr.vacant i hi
  have hne : h.index ≠ i := by
    rintro rfl
    rw [frame?_eq_some_iff.1 hf] at hs
    cases hs
  exact ⟨generation, by rw [put, Array.getElem?_setIfInBounds_ne hne, hs]⟩

theorem modifySlot_eq_put (f : Frame → Frame) : a.modifySlot h.index f = a.put h (f frame) := by
  unfold modifySlot put
  rw [modify_eq_setIfInBounds (frame?_eq_some_iff.1 hf)]

end

/-! ## Capturing -/

def Captured (a : Arena) (h : Handle) : Prop := ∃ f, a.frame? h = some f ∧ f.captured = true

theorem Captured.contains {a : Arena} {h : Handle} (hc : a.Captured h) : a.contains h = true := by
  obtain ⟨f, hf, -⟩ := hc
  exact contains_iff.2 ⟨f, hf⟩

theorem capture_of_loose {a : Arena} {h : Handle} {f : Frame} (hf : a.frame? h = some f)
    (hc : f.captured = false) :
    a.capture h = match f.enclosing with
      | some outer => (a.put h { f with captured := true }).capture outer
      | none => a.put h { f with captured := true } := by
  have hs := frame?_eq_some_iff.1 hf
  rw [capture]
  split
  · next generation f' hs' =>
    rw [hs] at hs'
    cases hs'
    rw [dif_pos ⟨rfl, hc⟩]
    rfl
  · next hs' => exact absurd hs (hs' _ _)

/-- There is nothing to do for a frame that is captured already, or for a stale handle. -/
theorem capture_of_captured {a : Arena} {h : Handle}
    (hc : ∀ f, a.frame? h = some f → f.captured = true) : a.capture h = a := by
  rw [capture]
  split
  · next generation f hs =>
    split
    · next hloose =>
      obtain ⟨rfl, hloose⟩ := hloose
      rw [hc f (frame?_eq_some_iff.2 hs)] at hloose
      cases hloose
    · rfl
  · rfl

/-- What holds of an arena that needs no change, and of capturing a frame if it holds of what
remains to be done outside of it, holds of capturing. -/
theorem capture_induction {P : Arena → Handle → Arena → Prop}
    (hdone : ∀ a h, (∀ f, a.frame? h = some f → f.captured = true) → P a h a)
    (hstep : ∀ a h f outer, a.frame? h = some f → f.captured = false → f.enclosing = some outer →
      P (a.put h { f with captured := true }) outer
        ((a.put h { f with captured := true }).capture outer) →
      P a h ((a.put h { f with captured := true }).capture outer))
    (hlast : ∀ a h f, a.frame? h = some f → f.captured = false → f.enclosing = none →
      P a h (a.put h { f with captured := true })) (a : Arena) (h : Handle) :
    P a h (a.capture h) := by
  by_cases hc : ∀ f, a.frame? h = some f → f.captured = true
  · rw [capture_of_captured hc]
    exact hdone a h hc
  · simp only [not_forall, Bool.not_eq_true] at hc
    obtain ⟨f, hf, hloose⟩ := hc
    have hs := frame?_eq_some_iff.1 hf
    have hlt : (a.put h { f with captured := true }).loose < a.loose :=
      countP_setIfInBounds_lt hs (by simp [Slot.isLoose, hloose]) rfl
    have hcapture := capture_of_loose hf hloose
    cases he : f.enclosing with
    | none =>
      have hlast := hlast a h f hf hloose he
      rw [he] at hcapture
      rw [hcapture]
      rwa [he] at hlast
    | some outer =>
      have hstep := hstep a h f outer hf hloose he (capture_induction hdone hstep hlast _ outer)
      rw [he] at hcapture
      rw [hcapture]
      rwa [he] at hstep
termination_by a.loose

/-- Capturing changes nothing but flags. -/
theorem frame?_capture (a : Arena) (h g : Handle) :
    (a.capture h).frame? g = a.frame? g ∨
      ∃ f, a.frame? g = some f ∧ (a.capture h).frame? g = some { f with captured := true } := by
  refine capture_induction (P := fun a _ b => b.frame? g = a.frame? g ∨
    ∃ f, a.frame? g = some f ∧ b.frame? g = some { f with captured := true }) ?_ ?_ ?_ a h
  · exact fun a h _ => .inl rfl
  · intro a h f outer hf _ _ ih
    rw [frame?_put hf] at ih
    by_cases hgh : g = h
    · subst hgh
      rw [if_pos rfl] at ih
      obtain ih | ⟨f', hf', ih⟩ := ih
      · exact .inr ⟨f, hf, ih⟩
      · cases hf'
        exact .inr ⟨f, hf, ih⟩
    · rw [if_neg hgh] at ih
      exact ih
  · intro a h f hf _ _
    rw [frame?_put hf]
    by_cases hgh : g = h
    · subst hgh
      exact .inr ⟨f, hf, if_pos rfl⟩
    · exact .inl (if_neg hgh)

theorem contains_capture (a : Arena) (h g : Handle) :
    (a.capture h).contains g = a.contains g := by
  obtain hg | ⟨f, hf, hg⟩ := frame?_capture a h g
  · rw [contains, hg, contains]
  · rw [contains, hg, contains, hf]
    rfl

theorem Captured.capture {a : Arena} {g : Handle} (hc : a.Captured g) (h : Handle) :
    (a.capture h).Captured g := by
  obtain ⟨f, hf, hcap⟩ := hc
  obtain hg | ⟨f', -, hg⟩ := frame?_capture a h g
  · exact ⟨f, hg.trans hf, hcap⟩
  · exact ⟨_, hg, rfl⟩

theorem Captured.put {a : Arena} {g h : Handle} {frame : Frame} (hc : a.Captured g)
    (hf : a.frame? h = some frame) {new : Frame} (hnew : frame.captured = true → new.captured = true) :
    (a.put h new).Captured g := by
  obtain ⟨f, hg, hcap⟩ := hc
  by_cases hgh : g = h
  · subst hgh
    rw [hf] at hg
    cases hg
    exact ⟨new, (frame?_put hf new g).trans (if_pos rfl), hnew hcap⟩
  · exact ⟨f, (frame?_put hf new g).trans ((if_neg hgh).trans hg), hcap⟩

theorem captured_capture {a : Arena} {h : Handle} (hc : a.contains h = true) :
    (a.capture h).Captured h := by
  refine capture_induction (P := fun a h b => a.contains h = true → b.Captured h) ?_ ?_ ?_ a h hc
  · intro a h hcap hc
    obtain ⟨f, hf⟩ := contains_iff.1 hc
    exact ⟨f, hf, hcap f hf⟩
  · intro a h f outer hf _ _ _ _
    exact Captured.capture ⟨_, (frame?_put hf _ h).trans (if_pos rfl), rfl⟩ outer
  · intro a h f hf _ _ _
    exact ⟨_, (frame?_put hf _ h).trans (if_pos rfl), rfl⟩

/-- Setting a flag closes the link to the frame and leaves the others as they are. -/
theorem closed_put_captured {a : Arena} {h e : Handle} {f : Frame} (hf : a.frame? h = some f)
    (he : e = h ∨ a.contains e = false ∨ a.Captured e) :
    (a.put h { f with captured := true }).contains e = false ∨
      (a.put h { f with captured := true }).Captured e := by
  by_cases heh : e = h
  · exact .inr ⟨_, (frame?_put hf _ e).trans (if_pos heh), rfl⟩
  · refine (he.resolve_left heh).imp (fun hgone => ?_) fun hcaptured => hcaptured.put hf fun _ => rfl
    rw [contains, frame?_put hf, if_neg heh]
    exact hgone

/-- If only `h` may be missing around the captured frames, nothing is missing after it has been
captured. Links that lead nowhere do not count. -/
theorem closed_capture {a : Arena} {h : Handle}
    (hclosed : ∀ g f e, a.frame? g = some f → f.captured = true → f.enclosing = some e →
      e = h ∨ a.contains e = false ∨ a.Captured e) (g : Handle) (f : Frame) (e : Handle) :
    (a.capture h).frame? g = some f → f.captured = true → f.enclosing = some e →
      (a.capture h).contains e = false ∨ (a.capture h).Captured e := by
  revert hclosed g f e
  refine capture_induction (P := fun a h b =>
    (∀ g f e, a.frame? g = some f → f.captured = true → f.enclosing = some e →
      e = h ∨ a.contains e = false ∨ a.Captured e) → ∀ g f e,
    b.frame? g = some f → f.captured = true → f.enclosing = some e →
      b.contains e = false ∨ b.Captured e) ?_ ?_ ?_ a h
  · intro a h hcap hclosed g f e hf hc he
    obtain rfl | hclosed := hclosed g f e hf hc he
    · cases hfe : a.frame? e with
      | none => exact .inl (by rw [contains, hfe]; rfl)
      | some fe => exact .inr ⟨fe, hfe, hcap fe hfe⟩
    · exact hclosed
  · intro a h f outer hf hloose ho ih hclosed
    refine ih fun g f' e hf' hc he => ?_
    obtain ⟨rfl, rfl⟩ | hf' := frame?_put_cases hf hf'
    · rw [ho] at he
      cases he
      exact .inl rfl
    · exact .inr (closed_put_captured hf (hclosed g f' e hf' hc he))
  · intro a h f hf hloose ho hclosed g f' e hf' hc he
    obtain ⟨rfl, rfl⟩ | hf' := frame?_put_cases hf hf'
    · rw [ho] at he
      cases he
    · exact closed_put_captured hf (hclosed g f' e hf' hc he)

theorem captured_of_capture {a : Arena} {h : Handle}
    (hlive : ∀ g f e, a.frame? g = some f → f.enclosing = some e → a.contains e = true)
    (hclosed : ∀ g f e, a.frame? g = some f → f.captured = true → f.enclosing = some e →
      e = h ∨ a.Captured e) (g e : Handle) (f : Frame)
    (hf : (a.capture h).frame? g = some f) (hc : f.captured = true) (he : f.enclosing = some e) :
    (a.capture h).Captured e := by
  obtain ⟨f', hf', he'⟩ : ∃ f', a.frame? g = some f' ∧ f'.enclosing = some e := by
    obtain hg | ⟨f', hf', hg⟩ := frame?_capture a h g
    · exact ⟨f, hg.symm.trans hf, he⟩
    · rw [hg] at hf
      cases hf
      exact ⟨f', hf', he⟩
  refine (closed_capture (fun g f e hf hc he => (hclosed g f e hf hc he).imp_right .inr)
    g f e hf hc he).resolve_left fun hgone => ?_
  rw [contains_capture, hlive g f' e hf' he'] at hgone
  cases hgone

theorem issued_capture {a : Arena} {g : Handle} (hg : a.Issued g) (h : Handle) :
    (a.capture h).Issued g :=
  capture_induction (P := fun a _ b => a.Issued g → b.Issued g) (fun _ _ _ hg => hg)
    (fun _ _ _ _ hf _ _ ih hg => ih (issued_put hf _ hg)) (fun _ _ _ hf _ _ hg => issued_put hf _ hg)
    a h hg

theorem recycles_capture {a : Arena} (hr : a.Recycles) (h : Handle) : (a.capture h).Recycles :=
  capture_induction (P := fun a _ b => a.Recycles → b.Recycles) (fun _ _ _ hr => hr)
    (fun _ _ _ _ hf _ _ ih hr => ih (recycles_put hf _ hr)) (fun _ _ _ hf _ _ hr => recycles_put hf _ hr)
    a h hr

@[simp] theorem reclaims_capture (a : Arena) (h : Handle) :
    (a.capture h).reclaims = a.reclaims :=
  capture_induction (P := fun a _ b => b.reclaims = a.reclaims) (fun _ _ _ => rfl)
    (fun _ _ _ _ _ _ _ ih => ih) (fun _ _ _ _ _ _ => rfl) a h

end Arena
end Lox
