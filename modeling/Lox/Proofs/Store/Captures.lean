import Lox.Proofs.Store.Ledgers

/-!
# Captured frames stay

Capturing a frame captures all that enclose it, up to the first link that leads nowhere: what encloses
a captured frame is captured, so the walk may stop at the first frame that was captured before. From
then on releasing and draining pass these frames over, and only a collection can free them.
-/
namespace Lox

namespace Arena

variable {a b : Arena} {g h k : Handle} {f : Frame}

/-! ## The frames around a frame -/

theorem ancestor?_zero_iff : a.ancestor? h 0 = some g ↔ a.contains h = true ∧ h = g := by
  rw [ancestor?]
  split
  · next hc => simp [hc]
  · next hc => simp [hc]

theorem ancestor?_succ_iff {d : Nat} : a.ancestor? h (d + 1) = some g ↔
    ∃ f e, a.frame? h = some f ∧ f.enclosing = some e ∧ a.ancestor? e d = some g := by
  rw [ancestor?]
  cases hf : a.frame? h with
  | none => simp
  | some f => cases he : f.enclosing <;> simp [he]

/-- The links lead on from live frames only. -/
theorem contains_of_ancestor? {d : Nat} (hg : a.ancestor? h d = some g) : a.contains h = true := by
  cases d with
  | zero => exact (ancestor?_zero_iff.1 hg).1
  | succ d =>
    obtain ⟨f, -, hf, -⟩ := ancestor?_succ_iff.1 hg
    exact contains_iff.2 ⟨f, hf⟩

/-- Capturing changes no link. -/
theorem ancestor?_capture {d : Nat} (hg : a.ancestor? g d = some k) (h : Handle) :
    (a.capture h).ancestor? g d = some k := by
  induction d generalizing g with
  | zero => rwa [ancestor?_zero_iff, contains_capture, ← ancestor?_zero_iff]
  | succ d ih =>
    obtain ⟨f, e, hf, he, hk⟩ := ancestor?_succ_iff.1 hg
    rw [ancestor?_succ_iff]
    obtain hsame | ⟨f', hf', hset⟩ := frame?_capture a h g
    · exact ⟨f, e, hsame.trans hf, he, ih hk⟩
    · obtain rfl := Option.some.inj (hf'.symm.trans hf)
      exact ⟨_, e, hset, he, ih hk⟩

/-- Around a captured frame all are captured, as far as the links lead to any. -/
theorem WellFormed.captured_ancestor (hw : a.WellFormed) {d : Nat} (hh : a.Captured h)
    (hg : a.ancestor? h d = some g) : a.Captured g := by
  induction d generalizing h with
  | zero =>
    obtain ⟨-, rfl⟩ := ancestor?_zero_iff.1 hg
    exact hh
  | succ d ih =>
    obtain ⟨f, e, hf, he, hg⟩ := ancestor?_succ_iff.1 hg
    obtain ⟨f', hf', hc⟩ := hh
    obtain rfl := Option.some.inj (hf'.symm.trans hf)
    have hlive := contains_of_ancestor? hg
    refine ih ((hw.closed h f' e hf hc he).resolve_left fun hgone => ?_) hg
    rw [hlive] at hgone
    cases hgone

/-! ## Emptying slots -/

/-- A frame may be found where it was after some slots were emptied, and no other is found. -/
theorem Emptied.frame? (he : a.Emptied b) (g : Handle) :
    b.frame? g = a.frame? g ∨ b.frame? g = none := by
  induction he with
  | refl => exact .inl rfl
  | @vacate a b i _ _ ih =>
    rw [frame?_vacate] at ih
    split at ih
    · exact .inr (ih.elim id id)
    · exact ih

end Arena

namespace Store

variable {s : Store} {g h : Handle} {f k : Frame}

section

variable (hg : s.arena.frame? g = some k) (hc : k.captured = true)
include hg hc

theorem frame?_release_of_captured (h : Handle) : (s.release h).2.arena.frame? g = some k := by
  unfold release
  cases hl : s.arena.loose? h with
  | none => exact hg
  | some f => exact frame?_free_of_captured hl hg hc

end

theorem frame?_drainFrom_of_captured {s : Store} (hg : s.arena.frame? g = some k)
    (hc : k.captured = true) (freed : Nat) : (s.drainFrom freed).2.arena.frame? g = some k := by
  cases hn : s.arena.nextLoose? s.queue with
  | none =>
    rw [drainFrom_of_none hn]
    exact hg
  | some next =>
    obtain ⟨h, f, rest⟩ := next
    obtain ⟨hl, -⟩ := nextLoose?_eq_some hn
    have hlt : ({ s with queue := rest }.free h.index f).arena.occupied < s.arena.occupied :=
      Arena.occupied_vacate_lt (Arena.frame?_of_loose? hl)
    rw [drainFrom_of_some hn]
    exact frame?_drainFrom_of_captured (frame?_free_of_captured (s := { s with queue := rest }) hl hg hc)
      hc (freed + 1)
termination_by s.arena.occupied

theorem frame?_define (hg : s.arena.frame? g = some k) (h : Handle) (name : String) (v : Value) :
    (s.define h name v).arena.frame? g =
      some { k with bindings := if h = g then k.bindings.insert name v else k.bindings } := by
  by_cases hhg : h = g
  · subst hhg
    rw [define_of_some hg, if_pos rfl]
    exact (Arena.frame?_put hg _ h).trans (if_pos rfl)
  · rw [frame?_define_of_ne (Ne.symm hhg), if_neg hhg, hg]

theorem frame?_assign (hg : s.arena.frame? g = some k) (h : Handle) (name : String) (v : Value) :
    (s.assign h name v).2.arena.frame? g = some { k with
      bindings := if h = g ∧ k.bindings.contains name then k.bindings.insert name v else k.bindings } := by
  by_cases hhg : h = g
  · subst hhg
    have hfind : s.arena.find? h name = k.bindings.find? name := by
      rw [Arena.find?, hg]
      rfl
    unfold assign Bindings.contains
    rw [hfind]
    cases k.bindings.find? name with
    | none => simpa [arena_discard] using hg
    | some old => simpa using frame?_define hg h name v
  · rw [frame?_assign_of_ne (Ne.symm hhg), if_neg fun hboth => hhg hboth.1, hg]

theorem frame?_assignAt (hg : s.arena.frame? g = some k) (h : Handle) (distance : Nat)
    (name : String) (v : Value) : (s.assignAt h distance name v).2.arena.frame? g = some { k with
      bindings := if s.arena.ancestor? h distance = some g ∧ k.bindings.contains name then
        k.bindings.insert name v else k.bindings } := by
  unfold assignAt
  cases s.arena.ancestor? h distance with
  | none =>
    rw [if_neg fun hboth => Option.some_ne_none _ hboth.1.symm]
    exact (congrArg (Arena.frame? · g) (arena_discard s v)).trans hg
  | some outer =>
    simp only [Option.some.injEq]
    exact frame?_assign hg outer name v

theorem frame?_collect_or (hw : s.arena.WellFormed) (roots : List Handle) (g : Handle) :
    (s.collect roots).2.arena.frame? g = s.arena.frame? g ∨
      (s.collect roots).2.arena.frame? g = none :=
  (emptied_collect hw roots).frame? g

end Store

namespace Ledger

variable {l : Ledger} {g h : Handle} {f : Frame}

/-- What an operation makes of the bindings of the frame `g`. -/
def writes (l : Ledger) (g : Handle) (b : Bindings Value) (op : Operation) : Bindings Value :=
  match op with
  | .define h name v => if h = g then b.insert name v else b
  | .assign h name v => if h = g ∧ b.contains name then b.insert name v else b
  | .assignAt h distance name v =>
    if l.arena.ancestor? h distance = some g ∧ b.contains name then b.insert name v else b
  | _ => b

/-- What a history makes of the bindings of the frame `g`. -/
def written (l : Ledger) (g : Handle) (b : Bindings Value) : List Operation → Bindings Value
  | [] => b
  | op :: rest => (l.perform op).written g (l.writes g b op) rest

/-- An operation changes nothing but the bindings of a captured frame, and these only if it writes to
them. Otherwise it is a collection, and the frame is gone. -/
theorem frame?_perform_of_captured (hs : l.Sound) (hf : l.arena.frame? g = some f)
    (hc : f.captured = true) (op : Operation) :
    (l.perform op).arena.frame? g = some { f with bindings := l.writes g f.bindings op } ∨
      ∃ roots, op = .collect roots ∧ (l.perform op).arena.contains g = false := by
  cases op with
  | create e =>
    left
    by_cases he : e ∈ l.handles
    · rw [show l.perform (.create e) = _ from if_pos he]
      refine (Arena.frame?_create hs.wellFormed.recycles e g).trans ?_
      rw [if_neg]
      · exact hf
      · rintro rfl
        exact Arena.not_issued_create hs.wellFormed.recycles e (Arena.issued_of_frame? hf)
    · rw [show l.perform (.create e) = l from if_neg he]
      exact hf
  | define h name v => exact .inl (Store.frame?_define hf h name v)
  | assign h name v => exact .inl (Store.frame?_assign hf h name v)
  | assignAt h distance name v =>
    exact .inl (Store.frame?_assignAt hf h distance name v)
  | capture h =>
    left
    obtain hg | ⟨f', hf', hg⟩ := Arena.frame?_capture l.arena h g
    · exact hg.trans hf
    · obtain rfl := Option.some.inj (hf'.symm.trans hf)
      refine hg.trans ?_
      rw [← hc]
      rfl
  | release h => exact .inl (Store.frame?_release_of_captured hf hc h)
  | drain => exact .inl (Store.frame?_drainFrom_of_captured hf hc 0)
  | guard _ _ => exact .inl hf
  | unguard _ => exact .inl hf
  | objects _ => exact .inl hf
  | collect roots =>
    obtain hsame | hgone := Store.frame?_collect_or hs.wellFormed roots g
    · exact .inl (hsame.trans hf)
    · exact .inr ⟨roots, rfl, by rw [Arena.contains]; exact congrArg Option.isSome hgone⟩

/-- Whatever happens to a captured frame, it stays where it is with its link, and what it binds follows
from what is written to it; or there is a collection among the operations that has freed it. -/
theorem frame?_run_of_captured (hs : l.Sound) (hf : l.arena.frame? g = some f)
    (hc : f.captured = true) (later : List Operation) :
    (l.run later).arena.frame? g = some { f with bindings := l.written g f.bindings later } ∨
      ∃ before roots after, later = before ++ .collect roots :: after ∧
        (l.run before).arena.frame? g = some { f with bindings := l.written g f.bindings before } ∧
        ((l.run before).perform (.collect roots)).arena.contains g = false := by
  induction later generalizing l f with
  | nil => exact .inl hf
  | cons op rest ih =>
    obtain hkept | ⟨roots, rfl, hgone⟩ := frame?_perform_of_captured hs hf hc op
    · obtain hkept | ⟨before, roots, after, rfl, hkept, hgone⟩ := ih (hs.perform op) hkept hc
      · exact .inl hkept
      · exact .inr ⟨op :: before, roots, after, rfl, hkept, hgone⟩
    · exact .inr ⟨[], roots, rest, rfl, hf, hgone⟩

/-- Once a frame is captured, it and all frames around it, as far as the links lead, stay with their
links whatever is done except that a collection takes place, and what they bind is what definitions
and assignments write to them. If one of them is gone, a collection has freed it, and up to this
collection it has stayed in the same way. -/
theorem captured_run (ops : List Operation) (h g : Handle) (d : Nat) (f : Frame)
    (hg : (start.run ops).arena.ancestor? h d = some g)
    (hf : (start.run ops).arena.frame? g = some f) :
    let l := (start.run ops).perform (.capture h)
    (∀ later, (∀ roots, .collect roots ∉ later) →
      (l.run later).arena.frame? g = some ⟨l.written g f.bindings later, f.enclosing, true⟩) ∧
    ∀ later, (l.run later).arena.contains g = false →
      ∃ before roots after, later = before ++ .collect roots :: after ∧
        (l.run before).arena.frame? g = some ⟨l.written g f.bindings before, f.enclosing, true⟩ ∧
        ((l.run before).perform (.collect roots)).arena.contains g = false := by
  intro l
  have hs := sound_start.run ops
  have hl : l.Sound := hs.perform (.capture h)
  have hcaptured : l.arena.Captured g :=
    hl.wellFormed.captured_ancestor (Arena.captured_capture (Arena.contains_of_ancestor? hg))
      (Arena.ancestor?_capture hg h)
  have hframe : l.arena.frame? g = some { f with captured := true } := by
    obtain ⟨f', hf', hc⟩ := hcaptured
    obtain hsame | ⟨f'', hf'', hset⟩ := Arena.frame?_capture (start.run ops).arena h g
    · obtain rfl := Option.some.inj ((hsame.symm.trans hf').symm.trans hf)
      rw [hf', ← hc]
    · obtain rfl := Option.some.inj (hf''.symm.trans hf)
      exact hset
  refine ⟨fun later hnot => ?_, fun later hgone => ?_⟩
  · obtain hkept | ⟨before, roots, after, rfl, -, -⟩ := frame?_run_of_captured hl hframe rfl later
    · exact hkept
    · exact absurd (List.mem_append_right _ List.mem_cons_self) (hnot roots)
  · obtain hkept | hfreed := frame?_run_of_captured hl hframe rfl later
    · rw [Arena.contains, hkept] at hgone
      cases hgone
    · exact hfreed

/-- The frame around a captured one is released, queued and written to in vain, and then collected. -/
theorem captured_run_outer :
    let l := start.run [.create .globals, .create ⟨1, 0⟩, .capture ⟨2, 0⟩]
    let later := [.release ⟨1, 0⟩, .unguard ⟨1, 0⟩, .define ⟨1, 0⟩ "x" .nil, .drain]
    (l.run later).arena.frame? ⟨1, 0⟩ = some ⟨⟨[("x", .nil)]⟩, some .globals, true⟩ ∧
      ∃ before roots after, [.define ⟨1, 0⟩ "x" .nil, .collect []] = before ++ .collect roots :: after ∧
        (l.run before).arena.contains ⟨1, 0⟩ = true := by
  have hinner : (start.run [.create .globals, .create ⟨1, 0⟩]).arena.ancestor? ⟨2, 0⟩ 1 =
      some ⟨1, 0⟩ := by decide +kernel
  obtain ⟨hkept, hfreed⟩ := captured_run [.create .globals, .create ⟨1, 0⟩] ⟨2, 0⟩ ⟨1, 0⟩ 1
    ⟨Bindings.empty, some .globals, false⟩ hinner rfl
  have hgone : (start.run [.create .globals, .create ⟨1, 0⟩, .capture ⟨2, 0⟩,
      .define ⟨1, 0⟩ "x" .nil, .collect []]).arena.contains ⟨1, 0⟩ = false := by decide +kernel
  refine ⟨hkept [.release ⟨1, 0⟩, .unguard ⟨1, 0⟩, .define ⟨1, 0⟩ "x" .nil, .drain]
    fun roots => by simp, ?_⟩
  obtain ⟨before, roots, after, hlater, hframe, -⟩ := hfreed [.define ⟨1, 0⟩ "x" .nil, .collect []] hgone
  exact ⟨before, roots, after, hlater, Arena.contains_iff.2 ⟨_, hframe⟩⟩

end Ledger
end Lox
