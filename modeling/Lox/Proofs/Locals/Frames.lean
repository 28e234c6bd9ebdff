import Lox.Proofs.Locals.Values
import Lox.Proofs.Store.Arena

/-!
# Frames under other names

The frames of two runs are in the same slots, lie inside of the same frames, and bind the like. What one run
binds in a marked frame by the old name the other one binds there by the new name.
-/
namespace Lox

/-! ## Arrays with the like in the same places -/

theorem rel_setIfInBounds {α β : Type} {R : Nat → α → β → Prop} {a : Array α} {b : Array β}
    (h : ∀ i, Option.Rel (R i) a[i]? b[i]?) {i : Nat} {x : α} {y : β} (hxy : R i x y) (j : Nat) :
    Option.Rel (R j) (a.setIfInBounds i x)[j]? (b.setIfInBounds i y)[j]? := by
  rw [Array.getElem?_setIfInBounds, Array.getElem?_setIfInBounds]
  by_cases hij : i = j
  · subst hij
    rw [if_pos rfl, if_pos rfl]
    have hi := h i
    by_cases ha : i < a.size
    · rw [if_pos ha]
      rw [Array.getElem?_eq_getElem ha] at hi
      by_cases hb : i < b.size
      · rw [if_pos hb]
        exact .some hxy
      · rw [Array.getElem?_eq_none (Nat.not_lt.1 hb)] at hi
        cases hi
    · rw [if_neg ha]
      rw [Array.getElem?_eq_none (Nat.not_lt.1 ha)] at hi
      by_cases hb : i < b.size
      · rw [Array.getElem?_eq_getElem hb] at hi
        cases hi
      · rw [if_neg hb]
        exact .none
  · rw [if_neg hij, if_neg hij]
    exact h j

theorem size_eq_of_rel {α β : Type} {R : Nat → α → β → Prop} {a : Array α} {b : Array β}
    (h : ∀ i, Option.Rel (R i) a[i]? b[i]?) : b.size = a.size := by
  have hnone : ∀ i, a[i]? = none ↔ b[i]? = none := fun i => by
    obtain ⟨ha, hb⟩ | ⟨x, y, ha, hb, -⟩ := rel_cases (h i)
    · exact iff_of_true ha hb
    · rw [ha, hb]
      exact iff_of_false nofun nofun
  refine Nat.le_antisymm ?_ ?_
  · exact Array.getElem?_eq_none_iff.1 ((hnone _).1 (Array.getElem?_eq_none (Nat.le_refl _)))
  · exact Array.getElem?_eq_none_iff.1 ((hnone _).2 (Array.getElem?_eq_none (Nat.le_refl _)))

theorem rel_push {α β : Type} {R : Nat → α → β → Prop} {a : Array α} {b : Array β}
    (h : ∀ i, Option.Rel (R i) a[i]? b[i]?) {x : α} {y : β} (hxy : R a.size x y) (j : Nat) :
    Option.Rel (R j) (a.push x)[j]? (b.push y)[j]? := by
  rw [Array.getElem?_push, Array.getElem?_push, size_eq_of_rel h]
  by_cases hj : j = a.size
  · rw [if_pos hj, if_pos hj, hj]
    exact .some hxy
  · rw [if_neg hj, if_neg hj]
    exact h j

theorem rel_modify {α β : Type} {R : Nat → α → β → Prop} {a : Array α} {b : Array β}
    (h : ∀ i, Option.Rel (R i) a[i]? b[i]?) {i : Nat} {f : α → α} {g : β → β}
    (hfg : ∀ x y, R i x y → R i (f x) (g y)) (j : Nat) :
    Option.Rel (R j) (a.modify i f)[j]? (b.modify i g)[j]? := by
  rw [Array.getElem?_modify, Array.getElem?_modify]
  by_cases hij : i = j
  · subst hij
    rw [if_pos rfl, if_pos rfl]
    obtain ⟨ha, hb⟩ | ⟨x, y, ha, hb, hxy⟩ := rel_cases (h i)
    · rw [ha, hb]
      exact .none
    · rw [ha, hb]
      exact .some (hfg x y hxy)
  · rw [if_neg hij, if_neg hij]
    exact h j

theorem forall₂_of_rel {α β : Type} {R : α → β → Prop} {a : Array α} {b : Array β}
    (h : ∀ i : Nat, Option.Rel R a[i]? b[i]?) : List.Forall₂ R a.toList b.toList := by
  refine List.forall₂_iff_get.2 ⟨(size_eq_of_rel h).symm, fun i ha hb => ?_⟩
  have hi := h i
  rw [Array.getElem?_eq_getElem ha, Array.getElem?_eq_getElem hb] at hi
  cases hi with
  | some h => exact h

/-! ## Frames -/

section

variable (ξ : Exchange) (μ : Marking)

structure Frame.Exchanged (mark : Bool) (f g : Frame) : Prop where
  bindings : f.bindings.Matched (ξ.text mark) (Value.Exchanged ξ μ) g.bindings
  enclosing : g.enclosing = f.enclosing
  captured : g.captured = f.captured

inductive Slot.Exchanged (i : Nat) : Slot → Slot → Prop where
  | occupied {generation f g} (h : Frame.Exchanged ξ μ (μ.mark ⟨i, generation⟩) f g) :
    Slot.Exchanged i (.occupied generation f) (.occupied generation g)
  | vacant {generation} : Slot.Exchanged i (.vacant generation) (.vacant generation)

structure Arena.Exchanged (a b : Arena) : Prop where
  slots : ∀ i, Option.Rel (Slot.Exchanged ξ μ i) a.slots[i]? b.slots[i]?
  free : b.free = a.free
  live : b.live = a.live
  nextCollection : b.nextCollection = a.nextCollection
  reclaims : b.reclaims = a.reclaims

end

/-- The marking knows the frames of the arena and what is around them. -/
structure Marking.Covers (μ : Marking) (a : Arena) : Prop where
  frames : ∀ h f, a.frame? h = some f →
    ∃ marks, μ h = some marks ∧ ∀ outer, f.enclosing = some outer → μ outer = some marks.tail
  issued : ∀ h marks, μ h = some marks → a.Issued h
  globals : μ .globals = some []
  recycles : a.Recycles

variable {ξ : Exchange} {μ μ' : Marking} {a b : Arena} {h : Handle} {f g : Frame}

theorem Exchange.text_injective (ξ : Exchange) (mark : Bool) : Function.Injective (ξ.text mark) :=
  fun _ _ => ξ.text_inj.1

namespace Frame.Exchanged

variable {mark : Bool}

theorem mono (hf : f.Exchanged ξ μ mark g) (hμ : μ.Extends μ') : f.Exchanged ξ μ' mark g :=
  ⟨hf.bindings.mono fun _ _ hv => hv.mono hμ, hf.enclosing, hf.captured⟩

theorem capture (hf : f.Exchanged ξ μ mark g) :
    Frame.Exchanged ξ μ mark { f with captured := true } { g with captured := true } :=
  ⟨hf.bindings, hf.enclosing, rfl⟩

theorem nodes (hf : f.Exchanged ξ μ mark g) : g.nodes = f.nodes := by
  unfold Frame.nodes
  rw [hf.enclosing, Value.Exchanged.flatMap_nodes hf.bindings.values]

end Frame.Exchanged

namespace Marking.Covers

/-- What keeps the frames that there are in their places keeps the marking. -/
theorem of_frames (hc : μ.Covers a) (hr : b.Recycles) (hi : ∀ h, a.Issued h → b.Issued h)
    (hb : ∀ h g, b.frame? h = some g → ∃ f, a.frame? h = some f ∧ g.enclosing = f.enclosing) : μ.Covers b := by
  refine ⟨fun h g hg => ?_, fun h marks hmarks => hi h (hc.issued h marks hmarks), hc.globals, hr⟩
  obtain ⟨f, hf, henclosing⟩ := hb h g hg
  rw [henclosing]
  exact hc.frames h f hf

theorem put (hc : μ.Covers a) (hf : a.frame? h = some f) {new : Frame} (hnew : new.enclosing = f.enclosing) :
    μ.Covers (a.put h new) := by
  refine hc.of_frames (Arena.recycles_put hf new hc.recycles) (fun _ => Arena.issued_put hf new)
    fun h' g hg => ?_
  obtain ⟨rfl, rfl⟩ | hg := Arena.frame?_put_cases hf hg
  · exact ⟨f, hf, hnew⟩
  · exact ⟨g, hg, rfl⟩

theorem vacate (hc : μ.Covers a) (i : Nat) : μ.Covers (a.vacate i) := by
  refine hc.of_frames (Arena.recycles_vacate hc.recycles i) (fun _ hi => Arena.issued_vacate hi i)
    fun h g hg => ?_
  exact ⟨g, (Arena.frame?_of_vacate hg).2, rfl⟩

theorem capture (hc : μ.Covers a) (h : Handle) : μ.Covers (a.capture h) := by
  refine hc.of_frames (Arena.recycles_capture hc.recycles h) (fun _ hi => Arena.issued_capture hi h)
    fun h' g hg => ?_
  obtain hsame | ⟨f, hf, hsame⟩ := Arena.frame?_capture a h h'
  · exact ⟨g, hsame ▸ hg, rfl⟩
  · rw [hsame] at hg
    cases hg
    exact ⟨f, hf, rfl⟩

/-- The handle of a new frame has no marks yet. -/
theorem new (hc : μ.Covers a) (e : Handle) : μ (a.create e).1 = none := by
  cases hm : μ (a.create e).1 with
  | none => rfl
  | some marks => exact absurd (hc.issued _ _ hm) (Arena.not_issued_create hc.recycles e)

theorem extends_create (hc : μ.Covers a) (e : Handle) (marks : List Bool) :
    μ.Extends (Function.update μ (a.create e).1 (some marks)) := by
  intro h marks' hmarks
  rw [Function.update_of_ne, hmarks]
  rintro rfl
  rw [hc.new e] at hmarks
  cases hmarks

/-- A new frame is inside of a frame that has marks. -/
theorem create (hc : μ.Covers a) {e : Handle} {marks : List Bool} (he : μ e = some marks) (mark : Bool) :
    Marking.Covers (Function.update μ (a.create e).1 (some (mark :: marks))) (a.create e).2 := by
  have hμ := hc.extends_create e (mark :: marks)
  refine ⟨fun h f hf => ?_, fun h marks' hmarks => ?_, hμ _ _ hc.globals, Arena.recycles_create hc.recycles e⟩
  · obtain ⟨rfl, rfl⟩ | hf := Arena.frame?_create_cases hc.recycles e hf
    · refine ⟨mark :: marks, Function.update_self .., fun outer houter => ?_⟩
      cases houter
      exact hμ _ _ he
    · obtain ⟨marks', hmarks, henclosing⟩ := hc.frames h f hf
      exact ⟨marks', hμ _ _ hmarks, fun outer houter => hμ _ _ (henclosing outer houter)⟩
  · by_cases heq : h = (a.create e).1
    · exact Arena.issued_create hc.recycles e (.inl heq)
    · rw [Function.update_of_ne heq] at hmarks
      exact Arena.issued_create hc.recycles e (.inr (hc.issued h marks' hmarks))

/-- Around the frame that lies so many links outside there are as many scopes less. -/
theorem ancestor (hc : μ.Covers a) {distance : Nat} {outer : Handle} {marks : List Bool}
    (hm : μ h = some marks) (ha : a.ancestor? h distance = some outer) : μ outer = some (marks.drop distance) := by
  induction distance generalizing h marks with
  | zero =>
    unfold Arena.ancestor? at ha
    split at ha
    · cases ha
      exact hm
    · cases ha
  | succ distance ih =>
    unfold Arena.ancestor? at ha
    cases hf : a.frame? h with
    | none =>
      rw [hf] at ha
      cases ha
    | some f =>
      rw [hf] at ha
      dsimp only at ha
      cases he : f.enclosing with
      | none =>
        rw [he] at ha
        cases ha
      | some e =>
        rw [he] at ha
        obtain ⟨marks', hmarks', henclosing⟩ := hc.frames h f hf
        cases hm.symm.trans hmarks'
        rw [ih (henclosing e he) ha, List.drop_tail]

end Marking.Covers

namespace Arena.Exchanged

variable (ha : a.Exchanged ξ μ b)

include ha

theorem frame? (h : Handle) : Option.Rel (Frame.Exchanged ξ μ (μ.mark h)) (a.frame? h) (b.frame? h) := by
  unfold Arena.frame?
  obtain ⟨hs, ht⟩ | ⟨s, t, hs, ht, hst⟩ := rel_cases (ha.slots h.index)
  · rw [hs, ht]
    exact .none
  · rw [hs, ht]
    cases hst with
    | vacant => exact .none
    | @occupied generation f g hf =>
      dsimp only
      by_cases hg : generation = h.generation
      · subst hg
        rw [if_pos rfl, if_pos rfl]
        exact .some hf
      · rw [if_neg hg, if_neg hg]
        exact .none

theorem contains (h : Handle) : b.contains h = a.contains h := by
  unfold Arena.contains
  obtain ⟨hs, ht⟩ | ⟨f, g, hs, ht, -⟩ := rel_cases (ha.frame? h)
  · rw [hs, ht]
  · rw [hs, ht]
    rfl

theorem find? (h : Handle) (name : String) :
    Option.Rel (Value.Exchanged ξ μ) (a.find? h name) (b.find? h (ξ.text (μ.mark h) name)) := by
  unfold Arena.find?
  obtain ⟨hs, ht⟩ | ⟨f, g, hs, ht, hf⟩ := rel_cases (ha.frame? h)
  · rw [hs, ht]
    exact .none
  · rw [hs, ht]
    exact hf.bindings.find? (ξ.text_injective _) name

theorem ancestor? (h : Handle) (distance : Nat) : b.ancestor? h distance = a.ancestor? h distance := by
  induction distance generalizing h with
  | zero =>
    unfold Arena.ancestor?
    rw [ha.contains]
  | succ distance ih =>
    unfold Arena.ancestor?
    obtain ⟨hs, ht⟩ | ⟨f, g, hs, ht, hf⟩ := rel_cases (ha.frame? h)
    · rw [hs, ht]
    · rw [hs, ht]
      dsimp only
      rw [hf.enclosing]
      cases f.enclosing with
      | none => rfl
      | some outer => exact ih outer

/-- The name is looked up under what it is called in the scope that lies so many scopes outside. -/
theorem findAt? (hc : μ.Covers a) {marks : List Bool} (hm : μ h = some marks) (distance : Nat) (name : String) :
    Option.Rel (Value.Exchanged ξ μ) (a.findAt? h distance name)
      (b.findAt? h distance (ξ.text (isMarked marks distance) name)) := by
  unfold Arena.findAt?
  rw [ha.ancestor?]
  cases houter : a.ancestor? h distance with
  | none => exact .none
  | some outer =>
    have hfind := ha.find? outer name
    rw [Marking.mark_of_some (hc.ancestor hm houter), marked_drop] at hfind
    exact hfind

theorem loose? (h : Handle) : Option.Rel (Frame.Exchanged ξ μ (μ.mark h)) (a.loose? h) (b.loose? h) := by
  unfold Arena.loose?
  obtain ⟨hs, ht⟩ | ⟨f, g, hs, ht, hf⟩ := rel_cases (ha.frame? h)
  · rw [hs, ht]
    exact .none
  · rw [hs, ht, Option.filter_some, Option.filter_some, ha.reclaims, hf.captured]
    split
    · exact .some hf
    · exact .none

theorem nextLoose? (queue : List Handle) : (a.nextLoose? queue = none ∧ b.nextLoose? queue = none) ∨
    ∃ h f g rest, a.nextLoose? queue = some (h, f, rest) ∧ b.nextLoose? queue = some (h, g, rest) ∧
      f.Exchanged ξ μ (μ.mark h) g := by
  induction queue with
  | nil => exact .inl ⟨rfl, rfl⟩
  | cons h rest ih =>
    unfold Arena.nextLoose?
    obtain ⟨hs, ht⟩ | ⟨f, g, hs, ht, hf⟩ := rel_cases (ha.loose? h)
    · rw [hs, ht]
      exact ih
    · rw [hs, ht]
      exact .inr ⟨h, f, g, rest, rfl, rfl, hf⟩

/-! ## Changes -/

/-- More is known of frames that there are not. -/
theorem extend (hμ : μ.Extends μ') (hc : μ.Covers a) : a.Exchanged ξ μ' b := by
  refine ⟨fun i => ?_, ha.free, ha.live, ha.nextCollection, ha.reclaims⟩
  obtain ⟨hs, ht⟩ | ⟨s, t, hs, ht, hst⟩ := rel_cases (ha.slots i)
  · rw [hs, ht]
    exact .none
  · rw [hs, ht]
    cases hst with
    | vacant => exact .some .vacant
    | @occupied generation f g hf =>
      obtain ⟨marks, hmarks, -⟩ := hc.frames ⟨i, generation⟩ f (frame?_eq_some_iff.2 hs)
      refine .some (.occupied ?_)
      rw [Marking.mark_of_some (hμ _ _ hmarks), ← Marking.mark_of_some hmarks]
      exact hf.mono hμ

theorem put (h : Handle) (hf : f.Exchanged ξ μ (μ.mark h) g) : (a.put h f).Exchanged ξ μ (b.put h g) :=
  ⟨rel_setIfInBounds ha.slots (.occupied hf), ha.free, ha.live, ha.nextCollection, ha.reclaims⟩

theorem vacate (i : Nat) : (a.vacate i).Exchanged ξ μ (b.vacate i) := by
  unfold Arena.vacate
  obtain ⟨hs, ht⟩ | ⟨s, t, hs, ht, hst⟩ := rel_cases (ha.slots i)
  · rw [hs, ht]
    exact ha
  · rw [hs, ht]
    cases hst with
    | vacant => exact ha
    | occupied hf =>
      exact ⟨rel_setIfInBounds ha.slots .vacant, congrArg (i :: ·) ha.free, congrArg (· - 1) ha.live,
        ha.nextCollection, ha.reclaims⟩

/-- A new frame binds nothing yet, whatever its marks are. -/
theorem create (hc : μ.Covers a) (e : Handle) (marks : List Bool) :
    (b.create e).1 = (a.create e).1 ∧
      (a.create e).2.Exchanged ξ (Function.update μ (a.create e).1 (some marks)) (b.create e).2 := by
  have hextended := ha.extend (hc.extends_create e marks) hc
  have hframe : ∀ mark, Frame.Exchanged ξ (Function.update μ (a.create e).1 (some marks)) mark
      ⟨Bindings.empty, some e, false⟩ ⟨Bindings.empty, some e, false⟩ := fun _ => ⟨.empty, rfl, rfl⟩
  obtain ⟨i, free, generation, hfree, hs, hcreate⟩ | ⟨hfree, hcreate⟩ := create_cases hc.recycles e
  · have ht : b.slots[i]? = some (.vacant generation) := by
      have hst := ha.slots i
      rw [hs] at hst
      obtain ⟨hnone, -⟩ | ⟨s, t, hs', ht, hst⟩ := rel_cases hst
      · cases hnone
      · cases hs'
        cases hst
        exact ht
    have hcreate' := create_of_free (ha.free.trans hfree) ht e
    rw [hcreate'] at *
    rw [hcreate] at hextended hframe ⊢
    exact ⟨rfl, rel_setIfInBounds hextended.slots (.occupied (hframe _)), rfl, congrArg (· + 1) ha.live,
      ha.nextCollection, ha.reclaims⟩
  · have hcreate' := create_of_full (ha.free.trans hfree) e
    rw [hcreate'] at *
    rw [hcreate] at hextended hframe ⊢
    rw [size_eq_of_rel ha.slots]
    exact ⟨rfl, rel_push hextended.slots (.occupied (hframe _)), ha.free, congrArg (· + 1) ha.live,
      ha.nextCollection, ha.reclaims⟩

omit ha

theorem capture (ha : a.Exchanged ξ μ b) (h : Handle) : (a.capture h).Exchanged ξ μ (b.capture h) := by
  revert b
  refine capture_induction (P := fun a h a' => ∀ {b : Arena}, a.Exchanged ξ μ b →
    a'.Exchanged ξ μ (b.capture h)) ?_ ?_ ?_ a h
  · intro a h hcaptured b ha
    rw [capture_of_captured]
    · exact ha
    · intro g hg
      obtain ⟨-, hnone⟩ | ⟨f, g', hf, hg', hfg⟩ := rel_cases (ha.frame? h)
      · rw [hg] at hnone
        cases hnone
      · cases hg.symm.trans hg'
        exact hfg.captured.trans (hcaptured f hf)
  · intro a h f outer hf hloose henclosing ih b ha
    obtain ⟨hnone, -⟩ | ⟨f', g, hf', hg, hfg⟩ := rel_cases (ha.frame? h)
    · rw [hf] at hnone
      cases hnone
    · cases hf.symm.trans hf'
      have hput := ha.put h hfg.capture
      have houter : g.enclosing = some outer := hfg.enclosing.trans henclosing
      rw [houter] at hput
      rw [capture_of_loose hg (hfg.captured.trans hloose), houter]
      exact ih hput
  · intro a h f hf hloose henclosing b ha
    obtain ⟨hnone, -⟩ | ⟨f', g, hf', hg, hfg⟩ := rel_cases (ha.frame? h)
    · rw [hf] at hnone
      cases hnone
    · cases hf.symm.trans hf'
      have hput := ha.put h hfg.capture
      have hnone : g.enclosing = none := hfg.enclosing.trans henclosing
      rw [hnone] at hput
      rw [capture_of_loose hg (hfg.captured.trans hloose), hnone]
      exact hput

end Arena.Exchanged

end Lox
