import Lox.Proofs.Bindings
import Lox.Proofs.Store.Freeing
import Lox.Proofs.Store.NewObjects

/-!
# What becomes of frames

Between two states of a store frames are made, freed and captured, and names are bound in them.
Whatever else happens, a frame that is there before and after encloses what it enclosed, and binds all
names that it bound. Which names it has gained is told by a relation.
-/
namespace Lox

namespace Bindings

variable {α : Type}

theorem mem_names_insert {b : Bindings α} {name x : String} {a : α} :
    x ∈ (b.insert name a).names ↔ x = name ∨ x ∈ b.names := by
  obtain ⟨entries⟩ := b
  unfold insert names
  dsimp only
  induction entries with
  | nil => simp [place]
  | cons entry rest ih =>
    obtain ⟨key, old⟩ := entry
    rw [place]
    split
    · next hk =>
      subst hk
      simp
    · rw [List.map_cons, List.map_cons, List.mem_cons, List.mem_cons, ih]
      tauto

theorem mem_names_of_find? {b : Bindings α} {name : String} {a : α} (h : b.find? name = some a) :
    name ∈ b.names := by
  obtain ⟨entries⟩ := b
  unfold find? at h
  unfold names
  dsimp only at h ⊢
  induction entries with
  | nil => cases h
  | cons entry rest ih =>
    obtain ⟨key, old⟩ := entry
    rw [lookup] at h
    split at h
    · next hk =>
      subst hk
      exact List.mem_cons_self
    · exact List.mem_cons_of_mem _ (ih h)

end Bindings

/-- Which names are bound in which frames. -/
abbrev Binds := Handle → String → Prop

namespace Arena

/-- `b` is what has become of `a`, with no names bound but those in `B`. -/
structure Grows (B : Binds) (a b : Arena) : Prop where
  recycles : b.Recycles
  issued : ∀ h, a.Issued h → b.Issued h
  frames : ∀ h g, a.Issued h → b.frame? h = some g → ∃ f, a.frame? h = some f ∧
    g.enclosing = f.enclosing ∧ (∀ x ∈ f.bindings.names, x ∈ g.bindings.names) ∧
    ∀ x ∈ g.bindings.names, x ∈ f.bindings.names ∨ B h x

variable {B B' B'' : Binds} {a b c : Arena} {h : Handle} {f : Frame}

namespace Grows

theorem refl (hr : a.Recycles) : Grows B a a :=
  ⟨hr, fun _ hi => hi, fun _ g _ hg => ⟨g, hg, rfl, fun _ hx => hx, fun _ hx => .inl hx⟩⟩

/-- Only what is bound in frames that there were before counts. -/
theorem trans (hab : Grows B' a b) (hbc : Grows B'' b c)
    (hB : ∀ h x, a.Issued h → B' h x ∨ B'' h x → B h x) : Grows B a c := by
  refine ⟨hbc.recycles, fun h hi => hbc.issued h (hab.issued h hi), fun h g hi hg => ?_⟩
  obtain ⟨f', hf', he', hin', hout'⟩ := hbc.frames h g (hab.issued h hi) hg
  obtain ⟨f, hf, he, hin, hout⟩ := hab.frames h f' hi hf'
  refine ⟨f, hf, he'.trans he, fun x hx => hin' x (hin x hx), fun x hx => ?_⟩
  obtain hx | hx := hout' x hx
  · exact (hout x hx).imp_right fun hx => hB h x hi (.inl hx)
  · exact .inr (hB h x hi (.inr hx))

theorem and (hab : Grows B a b) (hbc : Grows B b c) : Grows B a c :=
  hab.trans hbc fun _ _ _ h => h.elim (fun h => h) fun h => h

theorem names (h : Grows B a b) {g : Handle} (hi : a.Issued g) :
    ∀ x ∈ b.names g, x ∈ a.names g ∨ B g x := by
  intro x hx
  unfold Arena.names at hx ⊢
  cases hb : b.frame? g with
  | none =>
    rw [hb] at hx
    cases hx
  | some f =>
    rw [hb] at hx
    obtain ⟨f', hf', -, -, hout⟩ := h.frames g f hi hb
    rw [hf']
    exact hout x hx

end Grows

theorem grows_vacate (hr : a.Recycles) (i : Nat) : Grows B a (a.vacate i) := by
  refine ⟨recycles_vacate hr i, fun h hi => issued_vacate hi i, fun h g _ hg => ?_⟩
  exact ⟨g, (frame?_of_vacate hg).2, rfl, fun _ hx => hx, fun _ hx => .inl hx⟩

theorem grows_create (hr : a.Recycles) (e : Handle) : Grows B a (a.create e).2 := by
  refine ⟨recycles_create hr e, fun h hi => issued_create hr e (.inr hi), fun h g hi hg => ?_⟩
  obtain ⟨rfl, rfl⟩ | hg := frame?_create_cases hr e hg
  · exact absurd hi (not_issued_create hr e)
  · exact ⟨g, hg, rfl, fun _ hx => hx, fun _ hx => .inl hx⟩

theorem grows_put (hr : a.Recycles) (hf : a.frame? h = some f) {new : Frame}
    (he : new.enclosing = f.enclosing) (hin : ∀ x ∈ f.bindings.names, x ∈ new.bindings.names)
    (hout : ∀ x ∈ new.bindings.names, x ∈ f.bindings.names ∨ B h x) : Grows B a (a.put h new) := by
  refine ⟨recycles_put hf new hr, fun g hi => issued_put hf new hi, fun g f' _ hg => ?_⟩
  obtain ⟨rfl, rfl⟩ | hg := frame?_put_cases hf hg
  · exact ⟨f, hf, he, hin, hout⟩
  · exact ⟨f', hg, rfl, fun _ hx => hx, fun _ hx => .inl hx⟩

theorem grows_capture (hr : a.Recycles) (h : Handle) : Grows B a (a.capture h) := by
  refine ⟨recycles_capture hr h, fun g hi => issued_capture hi h, fun g f' _ hg => ?_⟩
  obtain hsame | ⟨f, hf, hsame⟩ := frame?_capture a h g
  · exact ⟨f', hsame ▸ hg, rfl, fun _ hx => hx, fun _ hx => .inl hx⟩
  · rw [hsame] at hg
    cases hg
    exact ⟨f, hf, rfl, fun _ hx => hx, fun _ hx => .inl hx⟩

end Arena

namespace Store

open Arena (Grows)

variable {B : Binds} {s : Store} (hr : s.arena.Recycles)

include hr

theorem grows_retain (v : Value) : Grows B s.arena (s.retain v).arena := by
  rw [arena_retain]
  exact .refl hr

theorem grows_discard (v : Value) : Grows B s.arena (s.discard v).arena := by
  rw [arena_discard]
  exact .refl hr

theorem grows_define {h : Handle} {name : String} (v : Value) (hB : B h name) :
    Grows B s.arena (s.define h name v).arena := by
  cases hf : s.arena.frame? h with
  | none =>
    rw [define_of_none hf, arena_discard]
    exact .refl hr
  | some f =>
    rw [define_of_some hf]
    refine Arena.grows_put hr hf rfl (fun x hx => Bindings.mem_names_insert.2 (.inr hx)) fun x hx => ?_
    obtain rfl | hx := Bindings.mem_names_insert.1 hx
    · exact .inr hB
    · exact .inl hx

/-- A name is only assigned to where it is bound already. -/
theorem grows_assign (h : Handle) (name : String) (v : Value) :
    Grows B s.arena (s.assign h name v).2.arena := by
  unfold assign
  cases hfind : s.arena.find? h name with
  | none => exact grows_discard hr v
  | some old =>
    obtain ⟨f, hf, hold⟩ := Option.bind_eq_some_iff.1 hfind
    dsimp only
    rw [define_of_some hf]
    refine Arena.grows_put hr hf rfl (fun x hx => Bindings.mem_names_insert.2 (.inr hx)) fun x hx => ?_
    obtain rfl | hx := Bindings.mem_names_insert.1 hx
    · exact .inl (Bindings.mem_names_of_find? hold)
    · exact .inl hx

theorem grows_assignAt (h : Handle) (distance : Nat) (name : String) (v : Value) :
    Grows B s.arena (s.assignAt h distance name v).2.arena := by
  unfold assignAt
  split
  · exact grows_assign hr _ name v
  · exact grows_discard hr v

theorem grows_release (h : Handle) : Grows B s.arena (s.release h).2.arena := by
  unfold release
  split
  · exact Arena.grows_vacate hr h.index
  · exact .refl hr

theorem grows_sweepSlot (marks : Marks) (i : Nat) : Grows B s.arena (sweepSlot marks s i).arena := by
  unfold sweepSlot
  split
  · split
    · exact Arena.grows_vacate hr i
    · exact .refl hr
  · exact .refl hr

omit hr

theorem grows_drainFrom {s : Store} (hr : s.arena.Recycles) (freed : Nat) :
    Grows B s.arena (s.drainFrom freed).2.arena := by
  cases hn : s.arena.nextLoose? s.queue with
  | none =>
    rw [drainFrom_of_none hn]
    exact .refl hr
  | some next =>
    obtain ⟨h, f, rest⟩ := next
    have hlt : ({ s with queue := rest }.free h.index f).arena.occupied < s.arena.occupied :=
      Arena.occupied_vacate_lt (Arena.frame?_of_nextLoose? hn)
    have hone : Grows B s.arena (s.arena.vacate h.index) := Arena.grows_vacate hr h.index
    rw [drainFrom_of_some hn]
    exact hone.and (grows_drainFrom (s := { s with queue := rest }.free h.index f) hone.recycles _)
termination_by s.arena.occupied

theorem grows_drain (hr : s.arena.Recycles) : Grows B s.arena s.drain.2.arena := grows_drainFrom hr 0

theorem grows_sweep {s : Store} (hr : s.arena.Recycles) (marks : Marks) (slots : List Nat) :
    Grows B s.arena (slots.foldl (sweepSlot marks) s).arena := by
  induction slots generalizing s with
  | nil => exact .refl hr
  | cons i rest ih =>
    have hone : Grows B s.arena (sweepSlot marks s i).arena := grows_sweepSlot hr marks i
    exact hone.and (ih hone.recycles)

theorem grows_collect (hr : s.arena.Recycles) (roots : List Handle) :
    Grows B s.arena (s.collect roots).2.arena := by
  have hsweep := grows_sweep (B := B) hr (s.reachable roots) (List.range s.arena.slots.size)
  exact ⟨⟨hsweep.recycles.nodup, hsweep.recycles.vacant⟩, hsweep.issued, hsweep.frames⟩

/-- What a bound method closes over is new, so binding `this` there changes nothing that there was. -/
theorem grows_bind (hr : s.arena.Recycles) (method : Function) (receiver : Value) :
    Grows B s.arena (s.bind method receiver).2.arena := by
  have hcreate : Grows B s.arena (s.create method.closure).2.arena := Arena.grows_create hr _
  have hnew : ¬ s.arena.Issued (s.create method.closure).1 := Arena.not_issued_create hr _
  have hretain := grows_retain (B := B) hcreate.recycles receiver
  have hdefine := grows_define (B := fun h x => h = (s.create method.closure).1 ∧ x = "this")
    hretain.recycles receiver ⟨rfl, rfl⟩
  refine (hcreate.and hretain).trans hdefine fun h x hi hB => hB.elim (fun h => h) fun hthis => ?_
  exact absurd (hthis.1 ▸ hi) hnew

theorem arena_setField (s : Store) (id : ObjectId) (name : String) (v : Value) :
    (s.setField id name v).arena = s.arena := by
  unfold setField
  dsimp only
  split
  · exact arena_discard _ _
  · rfl

theorem arena_setElement (s : Store) (id : ObjectId) (index v : Value) :
    (s.setElement id index v).2.arena = s.arena := by
  unfold setElement
  split
  · exact (arena_discard _ _).trans (arena_retain s v)
  · rfl

end Store
end Lox
