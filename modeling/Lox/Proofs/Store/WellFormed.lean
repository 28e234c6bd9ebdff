import Lox.Proofs.Store.Arena

/-!
# Well-formed arenas

The free list and the count of live frames follow the slots, the global frame stays where it is,
and around a captured frame there are only captured frames and links that lead nowhere. Every
operation on frames keeps this. A slot remembers how often it was freed: its generation grows with
each time and at no other.
-/
namespace Lox

namespace Arena

/-- The free list names the vacant slots, each once, and the live frames are counted. -/
structure Tidy (a : Arena) : Prop where
  nodup : a.free.Nodup
  mem_free : ∀ i, i ∈ a.free ↔ ∃ generation, a.slots[i]? = some (.vacant generation)
  live : a.live = a.occupied

structure WellFormed (a : Arena) : Prop extends Tidy a where
  globals : ∃ f, a.frame? .globals = some f ∧ f.captured = true ∧ f.enclosing = none
  /-- What encloses a captured frame is gone or captured. -/
  closed : ∀ h f e, a.frame? h = some f → f.captured = true → f.enclosing = some e →
    a.contains e = false ∨ a.Captured e

/-- The enclosing frames have been made. -/
def Linked (a : Arena) : Prop :=
  ∀ h f e, a.frame? h = some f → f.enclosing = some e → a.Issued e

variable {a b c : Arena} {i : Nat} {h : Handle} {f : Frame}

theorem Tidy.recycles (ht : a.Tidy) : a.Recycles :=
  ⟨ht.nodup, fun i hi => (ht.mem_free i).1 hi⟩

theorem WellFormed.one_le_live (hw : a.WellFormed) : 1 ≤ a.live := by
  obtain ⟨f, hf, -, -⟩ := hw.globals
  have hslot := frame?_eq_some_iff.1 hf
  have hmem := Array.mem_of_getElem? hslot
  rw [hw.live]
  exact Array.countP_pos_iff.2 ⟨_, hmem, rfl⟩

theorem frame?_new (hf : new.frame? h = some f) : h = .globals ∧ f = ⟨Bindings.empty, none, true⟩ := by
  obtain ⟨index, generation⟩ := h
  have hs := frame?_eq_some_iff.1 hf
  cases index with
  | zero =>
    cases hs
    exact ⟨rfl, rfl⟩
  | succ index => cases hs

theorem wellFormed_new : Arena.new.WellFormed := by
  refine ⟨⟨List.nodup_nil, fun i => ⟨nofun, ?_⟩, rfl⟩, ⟨_, rfl, rfl, rfl⟩, fun h f e hf _ he => ?_⟩
  · rintro ⟨generation, hs⟩
    cases i with
    | zero => cases hs
    | succ i => cases hs
  · obtain ⟨-, rfl⟩ := frame?_new hf
    cases he

theorem linked_new : Arena.new.Linked := by
  intro h f e hf he
  obtain ⟨-, rfl⟩ := frame?_new hf
  cases he

/-! ## Emptying slots -/

theorem tidy_vacate (ht : a.Tidy) (i : Nat) : (a.vacate i).Tidy := by
  refine ⟨(recycles_vacate ht.recycles i).nodup, fun j => ?_, live_vacate ht.live i⟩
  refine ⟨(recycles_vacate ht.recycles i).vacant j, ?_⟩
  rintro ⟨generation, hs⟩
  rw [slots_vacate] at hs
  cases hi : a.slots[i]? with
  | none =>
    have hsame : a.vacate i = a := by rw [vacate, hi]
    rw [hsame, ht.mem_free]
    split at hs
    · next hij =>
      rw [← hij, hi] at hs
      cases hs
    · exact ⟨generation, hs⟩
  | some slot =>
    cases slot with
    | vacant old =>
      have hsame : a.vacate i = a := by rw [vacate, hi]
      rw [hsame, ht.mem_free]
      split at hs
      · next hij => exact ⟨old, hij ▸ hi⟩
      · exact ⟨generation, hs⟩
    | occupied old f =>
      have hfree : (a.vacate i).free = i :: a.free := by rw [vacate, hi]
      rw [hfree, List.mem_cons, ht.mem_free]
      split at hs
      · next hij => exact .inl hij.symm
      · exact .inr ⟨generation, hs⟩

/-- A frame other than the global one is freed. -/
theorem wellFormed_vacate (hw : a.WellFormed) (hi : i ≠ 0) : (a.vacate i).WellFormed := by
  refine ⟨tidy_vacate hw.toTidy i, ?_, fun h f e hf hc he => ?_⟩
  · obtain ⟨f, hf, hglobal⟩ := hw.globals
    exact ⟨f, (frame?_vacate a i _).trans ((if_neg hi).trans hf), hglobal⟩
  · obtain ⟨-, hf⟩ := frame?_of_vacate hf
    by_cases hie : i = e.index
    · left
      rw [contains, frame?_vacate, if_pos hie]
      rfl
    · rw [contains, frame?_vacate, if_neg hie]
      refine (hw.closed h f e hf hc he).imp_right fun hcaptured => ?_
      obtain ⟨fe, hfe, hce⟩ := hcaptured
      exact ⟨fe, (frame?_vacate a i e).trans ((if_neg hie).trans hfe), hce⟩

theorem linked_vacate (hl : a.Linked) (i : Nat) : (a.vacate i).Linked := by
  intro h f e hf he
  exact issued_vacate (hl h f e (frame?_of_vacate hf).2 he) i

/-- Some slots, but not that of the global frame, are emptied one after the other. -/
inductive Emptied : Arena → Arena → Prop where
  | refl (a : Arena) : Emptied a a
  | vacate {a b : Arena} {i : Nat} (hi : i ≠ 0) (h : Emptied (a.vacate i) b) : Emptied a b

theorem Emptied.trans (hab : a.Emptied b) (hbc : b.Emptied c) : a.Emptied c := by
  induction hab with
  | refl => exact hbc
  | vacate hi _ ih => exact .vacate hi (ih hbc)

theorem Emptied.wellFormed (he : a.Emptied b) (hw : a.WellFormed) : b.WellFormed := by
  induction he with
  | refl => exact hw
  | vacate hi _ ih => exact ih (wellFormed_vacate hw hi)

theorem Emptied.linked (he : a.Emptied b) (hl : a.Linked) : b.Linked := by
  induction he with
  | refl => exact hl
  | vacate _ _ ih => exact ih (linked_vacate hl _)

theorem Emptied.issued (he : a.Emptied b) (hi : a.Issued h) : b.Issued h := by
  induction he with
  | refl => exact hi
  | vacate _ _ ih => exact ih (issued_vacate hi _)

theorem wellFormed_schedule (hw : a.WellFormed) (n : Nat) :
    { a with nextCollection := n }.WellFormed :=
  ⟨⟨hw.nodup, hw.mem_free, hw.live⟩, hw.globals, hw.closed⟩

/-! ## Adding a frame -/

theorem tidy_create (ht : a.Tidy) (e : Handle) : (a.create e).2.Tidy := by
  refine ⟨(recycles_create ht.recycles e).nodup, fun j => ?_, ?_⟩
  · refine ⟨(recycles_create ht.recycles e).vacant j, ?_⟩
    rintro ⟨generation, hs⟩
    obtain ⟨i, free, old, hfree, hold, hc⟩ | ⟨hfree, hc⟩ := create_cases ht.recycles e
    · obtain ⟨hi, -⟩ := Array.getElem?_eq_some_iff.1 hold
      rw [hc] at hs ⊢
      dsimp only at hs ⊢
      by_cases hij : i = j
      · subst hij
        rw [Array.getElem?_setIfInBounds_self_of_lt hi] at hs
        cases hs
      · rw [Array.getElem?_setIfInBounds_ne hij] at hs
        have hmem := (ht.mem_free j).2 ⟨generation, hs⟩
        rw [hfree, List.mem_cons] at hmem
        exact hmem.resolve_left (Ne.symm hij)
    · rw [hc] at hs ⊢
      dsimp only at hs ⊢
      rw [Array.getElem?_push] at hs
      split at hs
      · cases hs
      · exact (ht.mem_free j).2 ⟨generation, hs⟩
  · obtain ⟨i, free, old, -, hold, hc⟩ | ⟨-, hc⟩ := create_cases ht.recycles e
    · obtain ⟨hi, hslot⟩ := Array.getElem?_eq_some_iff.1 hold
      rw [hc]
      simp only [occupied, ht.live]
      rw [Array.setIfInBounds_def, dif_pos hi, Array.countP_set, hslot]
      simp [Slot.isOccupied]
    · rw [hc]
      simp [occupied, ht.live, Array.countP_push, Slot.isOccupied]

theorem wellFormed_create (hw : a.WellFormed) (hl : a.Linked) (e : Handle) :
    (a.create e).2.WellFormed := by
  have hnew := not_issued_create hw.recycles e
  have hkept : ∀ {g : Handle}, a.Issued g → (a.create e).2.frame? g = a.frame? g := by
    intro g hg
    rw [frame?_create hw.recycles, if_neg]
    rintro rfl
    exact hnew hg
  refine ⟨tidy_create hw.toTidy e, ?_, fun h f outer hf hc ho => ?_⟩
  · obtain ⟨f, hf, hglobal⟩ := hw.globals
    exact ⟨f, (hkept (issued_of_frame? hf)).trans hf, hglobal⟩
  · obtain ⟨rfl, rfl⟩ | hf := frame?_create_cases hw.recycles e hf
    · cases hc
    · -- the enclosing frame was made before, so it is not the new one
      have houter := hkept (hl h f outer hf ho)
      unfold contains Captured
      rw [houter]
      exact hw.closed h f outer hf hc ho

theorem linked_create (ht : a.Tidy) (hl : a.Linked) {e : Handle} (he : a.Issued e) :
    (a.create e).2.Linked := by
  intro h f outer hf ho
  refine issued_create ht.recycles e (.inr ?_)
  obtain ⟨rfl, rfl⟩ | hf := frame?_create_cases ht.recycles e hf
  · cases ho
    exact he
  · exact hl h f outer hf ho

/-! ## Changing a frame -/

theorem tidy_put (ht : a.Tidy) (hf : a.frame? h = some f) (new : Frame) : (a.put h new).Tidy := by
  have hs := frame?_eq_some_iff.1 hf
  obtain ⟨hi, hslot⟩ := Array.getElem?_eq_some_iff.1 hs
  refine ⟨ht.nodup, fun j => ?_, ?_⟩
  · refine ⟨(recycles_put hf new ht.recycles).vacant j, ?_⟩
    rintro ⟨generation, hj⟩
    refine (ht.mem_free j).2 ⟨generation, ?_⟩
    by_cases hij : h.index = j
    · subst hij
      rw [put, Array.getElem?_setIfInBounds_self_of_lt hi] at hj
      cases hj
    · rwa [put, Array.getElem?_setIfInBounds_ne hij] at hj
  · change a.live = _
    unfold occupied put
    rw [ht.live, occupied, Array.setIfInBounds_def, dif_pos hi, Array.countP_set, hslot]
    have hpos : 0 < a.slots.countP Slot.isOccupied :=
      Array.countP_pos_iff.2 ⟨_, Array.mem_of_getElem? hs, rfl⟩
    simp only [Slot.isOccupied, if_true]
    omega

/-- The frame binds something else. -/
theorem wellFormed_put (hw : a.WellFormed) (hf : a.frame? h = some f) {new : Frame}
    (hc : new.captured = f.captured) (he : new.enclosing = f.enclosing) :
    (a.put h new).WellFormed := by
  have hback : ∀ {g f'}, (a.put h new).frame? g = some f' →
      ∃ f, a.frame? g = some f ∧ f.captured = f'.captured ∧ f.enclosing = f'.enclosing := by
    intro g f' hg
    obtain ⟨rfl, rfl⟩ | hg := frame?_put_cases hf hg
    · exact ⟨f, hf, hc.symm, he.symm⟩
    · exact ⟨f', hg, rfl, rfl⟩
  refine ⟨tidy_put hw.toTidy hf new, ?_, fun g f' e hg hcap henc => ?_⟩
  · obtain ⟨fg, hfg, hcap, henc⟩ := hw.globals
    by_cases hgh : Handle.globals = h
    · subst hgh
      rw [hf] at hfg
      cases hfg
      exact ⟨new, (frame?_put hf new _).trans (if_pos rfl), hc.trans hcap, he.trans henc⟩
    · exact ⟨fg, (frame?_put hf new _).trans ((if_neg hgh).trans hfg), hcap, henc⟩
  · obtain ⟨f₀, hf₀, hc₀, he₀⟩ := hback hg
    obtain hgone | hcaptured := hw.closed g f₀ e hf₀ (hc₀.trans hcap) (he₀.trans henc)
    · left
      refine Bool.eq_false_iff.2 fun hlive => ?_
      obtain ⟨fe, hfe⟩ := contains_iff.1 hlive
      obtain ⟨fe', hfe', -, -⟩ := hback hfe
      rw [contains, hfe'] at hgone
      cases hgone
    · exact .inr (hcaptured.put hf fun hcap => hc.trans hcap)

theorem linked_put (hl : a.Linked) (hf : a.frame? h = some f) {new : Frame}
    (he : new.enclosing = f.enclosing) : (a.put h new).Linked := by
  intro g f' e hg henc
  refine issued_put hf new ?_
  obtain ⟨-, rfl⟩ | hg := frame?_put_cases hf hg
  · exact hl h f e hf (he ▸ henc)
  · exact hl g f' e hg henc

theorem tidy_capture (ht : a.Tidy) (h : Handle) : (a.capture h).Tidy :=
  capture_induction (P := fun a _ b => a.Tidy → b.Tidy) (fun _ _ _ ht => ht)
    (fun _ _ _ _ hf _ _ ih ht => ih (tidy_put ht hf _)) (fun _ _ _ hf _ _ ht => tidy_put ht hf _)
    a h ht

theorem wellFormed_capture (hw : a.WellFormed) (h : Handle) : (a.capture h).WellFormed := by
  refine ⟨tidy_capture hw.toTidy h, ?_, closed_capture fun g f e hf hc he =>
    .inr (hw.closed g f e hf hc he)⟩
  obtain ⟨f, hf, hc, he⟩ := hw.globals
  obtain hg | ⟨f', hf', hg⟩ := frame?_capture a h .globals
  · exact ⟨f, hg.trans hf, hc, he⟩
  · rw [hf] at hf'
    cases hf'
    exact ⟨_, hg, rfl, he⟩

theorem linked_capture (hl : a.Linked) (h : Handle) : (a.capture h).Linked := by
  intro g f e hf he
  refine issued_capture ?_ h
  obtain hg | ⟨f', hf', hg⟩ := frame?_capture a h g
  · exact hl g f e (hg.symm.trans hf) he
  · rw [hg] at hf
    cases hf
    exact hl g f' e hf' he

end Arena
end Lox
