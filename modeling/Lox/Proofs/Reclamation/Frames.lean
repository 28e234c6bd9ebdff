import Lox.Proofs.Reclamation.Twin

/-!
# Twin frames

A new frame has a new image, so the renaming changes at a handle that was never used before. What
is freed on one side stays in the mirror.
-/
namespace Lox

/-- The frame `h` is taken to `g`, all others where they were. -/
def Renaming.extend (ρ : Renaming) (h g : Handle) : Renaming := fun h' => if h' = h then g else ρ h'

theorem Renaming.extend_self (ρ : Renaming) (h g : Handle) : ρ.extend h g h = g := if_pos rfl

theorem Renaming.extend_of_ne {ρ : Renaming} {h h' g : Handle} (hne : h' ≠ h) :
    ρ.extend h g h' = ρ h' :=
  if_neg hne

theorem Payload.rename_congr {ρ ρ' : Renaming} {p : Payload}
    (hvalues : ∀ v ∈ p.values, ∀ h ∈ v.handles, ρ' h = ρ h)
    (howned : ∀ h ∈ p.owned, ρ' h = ρ h) : p.rename ρ' = p.rename ρ := by
  cases p with
  | «instance» parent fields =>
    have hparent : parent.rename ρ' = parent.rename ρ :=
      Class.rename_congr (hvalues _ List.mem_cons_self)
    have hfields : fields.map (Value.rename ρ') = fields.map (Value.rename ρ) :=
      Bindings.map_congr fun v hv => Value.rename_congr (hvalues v (List.mem_cons_of_mem _ hv))
    exact congrArg₂ Payload.instance hparent hfields
  | array elements =>
    exact congrArg array (Array.map_congr_left fun v hv =>
      Value.rename_congr (hvalues v (Array.mem_toList_iff.2 hv)))
  | binding h => exact congrArg binding (howned h List.mem_cons_self)

namespace Store

variable {P : Handle → Handle → Prop} {ρ : Renaming} {s t u w : Store} {extra : List ObjectId}
  {held held' : List Value} {acts acts' : List Activation} {v : Value}

theorem Supports.contains (hv : s.Supports v) : ∀ h ∈ v.handles, s.arena.contains h = true := by
  intro h hh
  cases v with
  | function f =>
    obtain ⟨stamp, decl, closure, isInitializer, binding⟩ := f
    cases List.mem_singleton.1 hh
    cases binding with
    | none => exact Arena.Captured.contains hv
    | some id => exact hv.2
  | classObject c => exact (hv h hh).contains
  | _ => cases hh

theorem not_contains_create (hh : s.Healthy extra held acts) (e : Handle) :
    ¬ s.arena.contains (s.create e).1 = true := by
  intro hc
  obtain ⟨f, hf⟩ := Arena.contains_iff.1 hc
  exact Arena.not_issued_create hh.accounted.recycles e (Arena.issued_of_frame? hf)

/-- Nothing that can be got at mentions a frame that is only made now. -/
theorem Healthy.agree {ρ' : Renaming} (hh : s.Healthy extra held acts)
    (hagree : ∀ h, s.arena.contains h = true → ρ' h = ρ h) (hv : s.Accessible held v) :
    v.rename ρ' = v.rename ρ :=
  Value.rename_congr fun h hmem => hagree h ((hh.intact.supported v hv).contains h hmem)

theorem Healthy.agree_held {ρ' : Renaming} (hh : s.Healthy extra held acts)
    (hagree : ∀ h, s.arena.contains h = true → ρ' h = ρ h) :
    held.map (Value.rename ρ') = held.map (Value.rename ρ) :=
  List.map_congr_left fun _ hv => hh.agree hagree (.held hv)

theorem Healthy.agree_acts {ρ' : Renaming} (hh : s.Healthy extra held acts)
    (hagree : ∀ h, s.arena.contains h = true → ρ' h = ρ h) (hpins : Pinned held acts) :
    acts.map (Activation.rename ρ') = acts.map (Activation.rename ρ) := by
  refine List.map_congr_left fun a ha => ?_
  obtain ⟨frame, callee⟩ := a
  have hframe : ρ' frame = ρ frame := hagree frame (hh.intact.entered _ ha)
  have hcallee : callee.map (Function.rename ρ') = callee.map (Function.rename ρ) := by
    cases callee with
    | none => rfl
    | some f =>
      exact congrArg some (Function.rename_congr (hagree _
        ((hh.intact.supported _ (.held (hpins _ ha f rfl))).contains _ List.mem_cons_self)))
  unfold Activation.rename
  dsimp only
  rw [hframe, hcallee]

theorem Pinned.rename (hpins : Pinned held acts) (ρ : Renaming) :
    Pinned (held.map (Value.rename ρ)) (acts.map (Activation.rename ρ)) := by
  intro a ha f hf
  obtain ⟨b, hb, rfl⟩ := List.mem_map.1 ha
  obtain ⟨g, hg, rfl⟩ := Option.map_eq_some_iff.1 hf
  exact List.mem_map.2 ⟨.function g, hpins b hb g hg, rfl⟩

namespace Twin

theorem extend_of_issued (ht : Twin P ρ s u extra held acts) (e g : Handle) {h : Handle}
    (hi : s.arena.Issued h) : ρ.extend (s.create e).1 g h = ρ h := by
  refine Renaming.extend_of_ne ?_
  rintro rfl
  exact Arena.not_issued_create ht.healthy.accounted.recycles e hi

theorem extend_of_contains (ht : Twin P ρ s u extra held acts) (e g : Handle) :
    ∀ h, s.arena.contains h = true → ρ.extend (s.create e).1 g h = ρ h := by
  intro h hc
  obtain ⟨f, hf⟩ := Arena.contains_iff.1 hc
  exact ht.extend_of_issued e g (Arena.issued_of_frame? hf)

theorem mirror_create (ht : Twin P ρ s u extra held acts) {e : Handle}
    (hlive : s.arena.contains e = true) (hP : P (s.create e).1 (u.create (ρ e)).1) :
    Mirror P (ρ.extend (s.create e).1 (u.create (ρ e)).1) (s.create e).2 (u.create (ρ e)).2 held := by
  have hagree := ht.extend_of_contains e (u.create (ρ e)).1
  have hissued := fun h => ht.extend_of_issued e (u.create (ρ e)).1 (h := h)
  have hself := Renaming.extend_self ρ (s.create e).1 (u.create (ρ e)).1
  generalize ρ.extend (s.create e).1 (u.create (ρ e)).1 = ρ' at hagree hissued hself
  have hcases : ∀ h, (s.create e).2.arena.contains h = true →
      h = (s.create e).1 ∨ s.arena.contains h = true := by
    intro h hc
    obtain ⟨f, hf⟩ := Arena.contains_iff.1 hc
    exact (Arena.frame?_create_cases ht.healthy.accounted.recycles e hf).imp And.left
      fun hf => Arena.contains_iff.2 ⟨f, hf⟩
  have hapart : ∀ h, s.arena.contains h = true → ρ' h ≠ (u.create (ρ e)).1 := by
    intro h hc heq
    rw [hagree h hc] at heq
    exact not_contains_create ht.shadow (ρ e) (heq ▸ ht.mirror.contains hc)
  refine ⟨?_, fun h f hf => ?_, fun a b ha hb hab => ?_, fun h hc => ?_, fun v id p hv hid hp => ?_,
    ht.mirror.size, ht.mirror.nextStamp⟩
  · obtain ⟨f, hf, -⟩ := ht.healthy.intact.globals
    exact (hagree _ (Arena.contains_iff.2 ⟨f, hf⟩)).trans ht.mirror.globals
  · obtain ⟨rfl, rfl⟩ | hf := Arena.frame?_create_cases ht.healthy.accounted.recycles e hf
    · refine ⟨⟨Bindings.empty, some (ρ e), false⟩, ?_, rfl, ?_⟩
      · rw [show ρ' (s.arena.create e).1 = (u.create (ρ e)).1 from hself, frame?_create ht.shadow, if_pos rfl]
      · exact congrArg some (hagree e hlive).symm
    · obtain ⟨g, hg, hbindings, henclosing⟩ := ht.mirror.frames h f hf
      have hc := Arena.contains_iff.2 ⟨f, hf⟩
      refine ⟨g, ?_, hbindings.trans (Bindings.map_congr fun v hv =>
        (ht.healthy.agree hagree (.bound hf hv)).symm), henclosing.trans ?_⟩
      · rw [hagree h hc]
        exact frame?_of_create ht.shadow (ρ e) hg
      · cases he : f.enclosing with
        | none => rfl
        | some e' => exact congrArg some (hagree e' (ht.healthy.intact.live h f e' hf he)).symm
  · obtain rfl | ha := hcases a ha
    · obtain rfl | hb := hcases b hb
      · rfl
      · exact absurd (hab.symm.trans hself) (hapart b hb)
    · obtain rfl | hb := hcases b hb
      · exact absurd (hab.trans hself) (hapart a ha)
      · rw [hagree a ha, hagree b hb] at hab
        exact ht.mirror.apart a b ha hb hab
  · obtain rfl | hc := hcases h hc
    · rw [hself]
      exact hP
    · rw [hagree h hc]
      exact ht.mirror.paired h hc
  · have hacc := hv.of_create ht.healthy
    have hrename : p.rename ρ' = p.rename ρ := by
      refine Payload.rename_congr (fun w hw h hmem => ?_) fun h hmem => ?_
      · exact hagree h ((ht.healthy.intact.supported w (.inside hacc hid hp hw)).contains h hmem)
      · cases p with
        | binding g =>
          cases List.mem_singleton.1 hmem
          exact hissued h (ht.healthy.accounted.issued h (Nat.add_pos_right _ (owners_pos hp)))
        | _ => cases hmem
    rw [hrename]
    exact ht.mirror.objects v id p hacc hid hp

/-- An activation is entered in a new frame on both sides. -/
theorem create (ht : Twin P ρ s u extra held acts) {e : Handle} (callee : Option Function)
    (hpins : Pinned held acts) (hlive : s.arena.contains e = true)
    (hs : s.arena.Captured e ∨ (∃ b ∈ acts, b.frame = e) ∨ ∃ f, callee = some f ∧ f.closure = e)
    (hu : u.arena.Captured (ρ e) ∨ (∃ b ∈ acts.map (Activation.rename ρ), b.frame = ρ e) ∨
      ∃ f, callee = some f ∧ f.closure = e)
    (hcallee : ∀ f, callee = some f → s.arena.contains f.closure = true)
    (hP : P (s.create e).1 (u.create (ρ e)).1) :
    Twin P (ρ.extend (s.create e).1 (u.create (ρ e)).1) (s.create e).2 (u.create (ρ e)).2 extra held
      (⟨(s.create e).1, callee⟩ :: acts) := by
  have hagree := ht.extend_of_contains e (u.create (ρ e)).1
  have hself := Renaming.extend_self ρ (s.create e).1 (u.create (ρ e)).1
  have hmirror := ht.mirror_create hlive hP
  generalize ρ.extend (s.create e).1 (u.create (ρ e)).1 = ρ' at hagree hself hmirror
  refine ⟨ht.healthy.create callee hlive hs, ?_, hmirror,
    (Arena.reclaims_create u.arena (ρ e)).trans ht.keeps⟩
  have hrename : callee.map (Function.rename ρ') = callee.map (Function.rename ρ) := by
    cases callee with
    | none => rfl
    | some f => exact congrArg some (Function.rename_congr (hagree _ (hcallee f rfl)))
  rw [ht.healthy.agree_held hagree, List.map_cons, ht.healthy.agree_acts hagree hpins]
  unfold Activation.rename
  dsimp only
  rw [hself, hrename]
  refine ht.shadow.create _ (ht.mirror.contains hlive) (hu.imp_right (Or.imp_right ?_))
  rintro ⟨f, rfl, rfl⟩
  exact ⟨f.rename ρ, rfl, rfl⟩

theorem capture (ht : Twin P ρ s u extra held acts) (h : Handle) :
    Twin P ρ (s.capture h) (u.capture (ρ h)) extra held acts := by
  refine ⟨ht.healthy.capture h, ht.shadow.capture (ρ h), ht.mirror.congr (fun g f hf => ?_)
    (fun g f hf => ?_) rfl rfl ht.mirror.nextStamp,
    (Arena.reclaims_capture u.arena (ρ h)).trans ht.keeps⟩
  · obtain hg | ⟨f', hf', hg⟩ := Arena.frame?_capture s.arena h g
    · exact ⟨f, hg.symm.trans hf, rfl, rfl⟩
    · have heq := Option.some.inj (hg.symm.trans hf)
      exact ⟨f', hf', heq ▸ rfl, heq ▸ rfl⟩
  · obtain hg | ⟨f', hf', hg⟩ := Arena.frame?_capture u.arena (ρ h) g
    · exact ⟨f, hg.trans hf, rfl, rfl⟩
    · rw [hf] at hf'
      cases hf'
      exact ⟨_, hg, rfl, rfl⟩

/-! ## Freeing -/

theorem release {a : Activation} (ht : Twin P ρ s u extra held (a :: acts))
    (hpins : Pinned held acts) :
    Twin P ρ (s.release a.frame).2 (u.release (ρ a.frame)).2 extra held acts := by
  refine ht.remains (remains_release s _) (remains_release u _) (fun h => ?_) ?_
    (ht.healthy.release hpins) (ht.shadow.release (hpins.rename ρ)) fun w hw => .held hw
  · rw [release_of_not_reclaims ht.keeps]
  · rw [release_of_not_reclaims ht.keeps]

theorem drain (ht : Twin P ρ s u extra held acts) (hpins : Pinned held acts) :
    Twin P ρ s.drain.2 u.drain.2 extra held acts := by
  refine ht.remains (remains_drain s) (remains_drain u) (fun h => ?_) ?_
    (ht.healthy.drain hpins) (ht.shadow.drain (hpins.rename ρ)) fun w hw => .held hw
  · rw [drain_of_not_reclaims ht.keeps]
  · rw [drain_of_not_reclaims ht.keeps]

/-- Either side can be due for a collection without the other. -/
theorem collect_left (ht : Twin P ρ s u extra [] []) (roots : List Handle) :
    Twin P ρ (s.collect roots).2 u extra [] [] :=
  ht.remains (remains_collect s roots) (Remains.refl u) (fun _ => rfl) rfl
    (ht.healthy.collect roots) ht.shadow nofun

theorem collect_right (ht : Twin P ρ s u extra [] []) (roots : List Handle) :
    Twin P ρ s (u.collect roots).2 extra [] [] := by
  refine ht.remains (Remains.refl s) (remains_collect u roots) (fun h => ?_) ?_
    ht.healthy (ht.shadow.collect roots) nofun
  · rw [collect_of_not_reclaims ht.keeps]
    rfl
  · rw [collect_of_not_reclaims ht.keeps]

end Twin
end Store
end Lox
