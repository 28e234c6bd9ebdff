import Lox.Proofs.Reclamation.Renaming
import Lox.Proofs.Store.Freeing
import Lox.Proofs.Store.NewObjects

/-!
# The store that frees nothing as a mirror

Every frame of a store has its image in the store that frees nothing, which binds the same names to
the same values up to the renaming, and objects that can be got at are the same in both. The
mirror has frames and objects besides that nothing in the store refers to any more.
-/
namespace Lox.Store

/-- `t` is what is left of `s` when some frames and objects have gone. -/
structure Remains (t s : Store) : Prop where
  frames : ∀ h f, t.arena.frame? h = some f → s.arena.frame? h = some f
  heap : t.heap.Within s.heap

variable {s t u : Store} {ids extra : List ObjectId} {held held' : List Value}
  {acts : List Activation} {v : Value}

namespace Remains

theorem refl (s : Store) : s.Remains s := ⟨fun _ _ h => h, Heap.Within.refl _⟩

theorem trans {r : Store} (hts : t.Remains s) (hsr : s.Remains r) : t.Remains r :=
  ⟨fun h f hf => hsr.frames h f (hts.frames h f hf), hts.heap.trans hsr.heap⟩

theorem accessible (hr : t.Remains s) (hv : t.Accessible held' v)
    (hheld : ∀ w ∈ held', s.Accessible held w) : s.Accessible held v :=
  hv.of_within (fun _ _ hf _ hw => .bound (hr.frames _ _ hf) hw)
    (fun _ _ hp _ hid hv _ hw => .inside hv hid (hr.heap.payload _ _ hp) hw) hheld

end Remains

theorem remains_discardObjects (s : Store) (ids : List ObjectId) : (s.discardObjects ids).Remains s :=
  ⟨fun _ _ h => h, Heap.within_discard _ _ _⟩

theorem remains_discard (s : Store) (v : Value) : (s.discard v).Remains s := by
  rw [← discardAll_singleton]
  exact remains_discardObjects s _

theorem remains_retain (s : Store) (v : Value) : (s.retain v).Remains s := by
  refine ⟨fun h f hf => (arena_retain s v) ▸ hf, ?_⟩
  unfold Store.retain
  split
  · exact Heap.within_retain s.heap _
  · exact Heap.Within.refl _

theorem remains_free {h : Handle} {frame : Frame} (hf : s.arena.frame? h = some frame) :
    (s.free h.index frame).Remains s :=
  ⟨fun _ _ hg => (frame?_of_free hf hg).2, Heap.within_discard s.heap s.queue _⟩

theorem remains_release (s : Store) (h : Handle) : (s.release h).2.Remains s := by
  unfold Store.release
  split
  · next hl => exact remains_free (Arena.frame?_of_loose? hl)
  · exact Remains.refl s

theorem remains_drainFrom (freed : Nat) (s : Store) : (s.drainFrom freed).2.Remains s := by
  cases hn : s.arena.nextLoose? s.queue with
  | none =>
    rw [drainFrom_of_none hn]
    exact ⟨fun _ _ h => h, Heap.Within.refl _⟩
  | some next =>
    obtain ⟨h, frame, rest⟩ := next
    have hf := Arena.frame?_of_nextLoose? hn
    have hlt : ({ s with queue := rest }.free h.index frame).arena.occupied < s.arena.occupied :=
      Arena.occupied_vacate_lt hf
    rw [drainFrom_of_some hn]
    refine (remains_drainFrom (freed + 1) _).trans ?_
    have hfree : ({ s with queue := rest }.free h.index frame).Remains { s with queue := rest } :=
      remains_free hf
    exact ⟨hfree.frames, hfree.heap⟩
termination_by s.arena.occupied

theorem remains_drain (s : Store) : s.drain.2.Remains s := remains_drainFrom 0 s

theorem remains_sweep (marks : Marks) (slots : List Nat) (s : Store) :
    (slots.foldl (sweepSlot marks) s).Remains s := by
  induction slots generalizing s with
  | nil => exact Remains.refl s
  | cons i rest ih =>
    refine (ih (sweepSlot marks s i)).trans ?_
    unfold sweepSlot
    split
    · next generation frame hs _ =>
      split
      · exact remains_free (h := ⟨i, generation⟩) (Arena.frame?_eq_some_iff.2 hs)
      · exact Remains.refl s
    · exact Remains.refl s

theorem remains_collect (s : Store) (roots : List Handle) : (s.collect roots).2.Remains s := by
  have hsweep := remains_sweep (s.reachable roots) (List.range s.arena.slots.size) s
  exact ⟨hsweep.frames, hsweep.heap⟩

/-! ## A store that frees nothing -/

theorem loose?_of_not_reclaims {a : Arena} (hr : a.reclaims = false) (h : Handle) :
    a.loose? h = none := by
  unfold Arena.loose?
  rw [hr, Option.filter_eq_none_iff]
  intro f _
  simp

theorem release_of_not_reclaims (hr : s.arena.reclaims = false) (h : Handle) :
    (s.release h).2 = s := by
  unfold Store.release
  rw [loose?_of_not_reclaims hr]

theorem nextLoose?_of_not_reclaims {a : Arena} (hr : a.reclaims = false) (queue : List Handle) :
    a.nextLoose? queue = none := by
  induction queue with
  | nil => rfl
  | cons h rest ih =>
    rw [Arena.nextLoose?, loose?_of_not_reclaims hr]
    exact ih

theorem drain_of_not_reclaims (hr : s.arena.reclaims = false) : s.drain.2 = { s with queue := [] } := by
  unfold Store.drain
  rw [drainFrom_of_none (nextLoose?_of_not_reclaims hr _)]

/-! ## The mirror -/

/-- `u` is a mirror of `s`. All that is said of pairs of a frame and its image is `P`. -/
structure Mirror (P : Handle → Handle → Prop) (ρ : Renaming) (s u : Store) (held : List Value) :
    Prop where
  globals : ρ .globals = .globals
  frames : ∀ h f, s.arena.frame? h = some f → ∃ g, u.arena.frame? (ρ h) = some g ∧
    g.bindings = f.bindings.map (Value.rename ρ) ∧ g.enclosing = f.enclosing.map ρ
  apart : ∀ h h', s.arena.contains h = true → s.arena.contains h' = true → ρ h = ρ h' → h = h'
  paired : ∀ h, s.arena.contains h = true → P h (ρ h)
  objects : ∀ v id p, s.Accessible held v → v.object? = some id → s.heap.payload? id = some p →
    u.heap.payload? id = some (p.rename ρ)
  size : u.heap.objects.size = s.heap.objects.size
  nextStamp : u.heap.nextStamp = s.heap.nextStamp

namespace Mirror

variable {P : Handle → Handle → Prop} {ρ : Renaming}

theorem contains (hm : Mirror P ρ s u held) {h : Handle} (hc : s.arena.contains h = true) :
    u.arena.contains (ρ h) = true := by
  obtain ⟨f, hf⟩ := Arena.contains_iff.1 hc
  obtain ⟨g, hg, -⟩ := hm.frames h f hf
  exact Arena.contains_iff.2 ⟨g, hg⟩

theorem accessible (hm : Mirror P ρ s u held) (hv : s.Accessible held v) :
    u.Accessible (held.map (Value.rename ρ)) (v.rename ρ) := by
  induction hv with
  | held h => exact .held (List.mem_map_of_mem h)
  | @bound h f v hf hv =>
    obtain ⟨g, hg, hbindings, -⟩ := hm.frames h f hf
    refine .bound hg ?_
    rw [hbindings, Bindings.values_map]
    exact List.mem_map_of_mem hv
  | @inside v id p w hv hid hp hw ih =>
    refine .inside ih ((Value.object?_rename ρ v).trans hid) (hm.objects v id p hv hid hp) ?_
    rw [Payload.values_rename]
    exact List.mem_map_of_mem hw

/-- Frames and objects go from either side, but no frames from the mirror, and no objects from it
that somebody still counts. -/
theorem remains {entered : List Handle} {t w : Store} (hm : Mirror P ρ s u held)
    (hs : t.Remains s) (hu : w.Remains u)
    (hkept : ∀ h f, u.arena.frame? h = some f → w.arena.frame? h = some f)
    (ha : w.Accounted ids entered) (hids : ∀ id ∈ Value.objects held', id ∈ ids)
    (hheld : ∀ v ∈ held', s.Accessible held v) : Mirror P ρ t w held' := by
  have hcontains : ∀ h, t.arena.contains h = true → s.arena.contains h = true := by
    intro h hc
    obtain ⟨f, hf⟩ := Arena.contains_iff.1 hc
    exact Arena.contains_iff.2 ⟨f, hs.frames h f hf⟩
  have hframes : ∀ h f, t.arena.frame? h = some f → ∃ g, w.arena.frame? (ρ h) = some g ∧
      g.bindings = f.bindings.map (Value.rename ρ) ∧ g.enclosing = f.enclosing.map ρ := by
    intro h f hf
    obtain ⟨g, hg, hsame⟩ := hm.frames h f (hs.frames h f hf)
    exact ⟨g, hkept _ _ hg, hsame⟩
  have hids : ∀ id ∈ Value.objects (held'.map (Value.rename ρ)), id ∈ ids := by
    rw [Value.objects_rename]
    exact hids
  -- what can be got at is counted on the other side as well, so it has not gone
  have hobjects : ∀ v, t.Accessible held' v → w.Accessible (held'.map (Value.rename ρ)) (v.rename ρ) ∧
      ∀ id p, v.object? = some id → t.heap.payload? id = some p →
        w.heap.payload? id = some (p.rename ρ) := by
    have hpayload : ∀ v, t.Accessible held' v →
        w.Accessible (held'.map (Value.rename ρ)) (v.rename ρ) →
        ∀ id p, v.object? = some id → t.heap.payload? id = some p →
          w.heap.payload? id = some (p.rename ρ) := by
      intro v hv hw id p hid hp
      obtain ⟨object, ho⟩ := ha.find?_of_accessible hids hw ((Value.object?_rename ρ v).trans hid)
      exact hu.heap.payload_of_find? ho (hm.objects v id p (hs.accessible hv hheld) hid
        (hs.heap.payload id p hp))
    intro v hv
    suffices h : w.Accessible (held'.map (Value.rename ρ)) (v.rename ρ) from ⟨h, hpayload v hv h⟩
    induction hv with
    | held h => exact .held (List.mem_map_of_mem h)
    | @bound h f v hf hv =>
      obtain ⟨g, hg, hbindings, -⟩ := hframes h f hf
      refine .bound hg ?_
      rw [hbindings, Bindings.values_map]
      exact List.mem_map_of_mem hv
    | @inside v id p x hv hid hp hx ih =>
      refine .inside ih ((Value.object?_rename ρ v).trans hid) (hpayload v hv ih id p hid hp) ?_
      rw [Payload.values_rename]
      exact List.mem_map_of_mem hx
  exact ⟨hm.globals, hframes, fun h h' hc hc' => hm.apart h h' (hcontains h hc) (hcontains h' hc'),
    fun h hc => hm.paired h (hcontains h hc), fun v id p hv => (hobjects v hv).2 id p,
    hu.heap.size.trans (hm.size.trans hs.heap.size.symm),
    hu.heap.nextStamp.trans (hm.nextStamp.trans hs.heap.nextStamp.symm)⟩

/-! ## Reading -/

theorem find? (hm : Mirror P ρ s u held) {h : Handle} (hc : s.arena.contains h = true)
    (name : String) : u.arena.find? (ρ h) name = (s.arena.find? h name).map (Value.rename ρ) := by
  obtain ⟨f, hf⟩ := Arena.contains_iff.1 hc
  obtain ⟨g, hg, hbindings, -⟩ := hm.frames h f hf
  unfold Arena.find?
  rw [hf, hg, Option.bind_some, Option.bind_some, hbindings, Bindings.find?_map]

theorem names (hm : Mirror P ρ s u held) {h : Handle} (hc : s.arena.contains h = true) :
    u.arena.names (ρ h) = s.arena.names h := by
  obtain ⟨f, hf⟩ := Arena.contains_iff.1 hc
  obtain ⟨g, hg, hbindings, -⟩ := hm.frames h f hf
  unfold Arena.names
  rw [hf, hg]
  dsimp only
  rw [hbindings, Bindings.names_map]

theorem ancestor? (hm : Mirror P ρ s u held) (hi : s.Intact held acts) {h : Handle}
    (hc : s.arena.contains h = true) (distance : Nat) :
    u.arena.ancestor? (ρ h) distance = (s.arena.ancestor? h distance).map ρ := by
  induction distance generalizing h with
  | zero =>
    unfold Arena.ancestor?
    rw [if_pos hc, if_pos (hm.contains hc)]
    rfl
  | succ distance ih =>
    obtain ⟨f, hf⟩ := Arena.contains_iff.1 hc
    obtain ⟨g, hg, -, henclosing⟩ := hm.frames h f hf
    unfold Arena.ancestor?
    rw [hf, hg]
    dsimp only
    rw [henclosing]
    cases he : f.enclosing with
    | none => rfl
    | some e => exact ih (hi.live h f e hf he)

theorem contains_of_ancestor? {h g : Handle} {distance : Nat}
    (ha : s.arena.ancestor? h distance = some g) : s.arena.contains g = true := by
  induction distance generalizing h with
  | zero =>
    unfold Arena.ancestor? at ha
    split at ha
    · next hc =>
      cases ha
      exact hc
    · cases ha
  | succ distance ih =>
    unfold Arena.ancestor? at ha
    split at ha
    · split at ha
      · exact ih ha
      · cases ha
    · cases ha

theorem findAt? (hm : Mirror P ρ s u held) (hi : s.Intact held acts) {h : Handle}
    (hc : s.arena.contains h = true) (distance : Nat) (name : String) :
    u.arena.findAt? (ρ h) distance name = (s.arena.findAt? h distance name).map (Value.rename ρ) := by
  unfold Arena.findAt?
  rw [hm.ancestor? hi hc]
  cases ha : s.arena.ancestor? h distance with
  | none => rfl
  | some g => exact hm.find? (contains_of_ancestor? ha) name

theorem payload? {entered : List Handle} (hm : Mirror P ρ s u held) (ha : s.Accounted ids entered)
    (hids : ∀ id ∈ Value.objects held, id ∈ ids) (hv : s.Accessible held v) {id : ObjectId}
    (hid : v.object? = some id) : u.heap.payload? id = (s.heap.payload? id).map (Payload.rename ρ) := by
  obtain ⟨object, ho⟩ := ha.find?_of_accessible hids hv hid
  have hp : s.heap.payload? id = some object.payload := congrArg (Option.map Object.payload) ho
  rw [hp, hm.objects v id _ hv hid hp, Option.map_some]

theorem parent? {entered : List Handle} (hm : Mirror P ρ s u held) (ha : s.Accounted ids entered)
    (hids : ∀ id ∈ Value.objects held, id ∈ ids) (hv : s.Accessible held v) {id : ObjectId}
    (hid : v.object? = some id) : u.parent? id = (s.parent? id).map (Class.rename ρ) := by
  unfold Store.parent?
  rw [hm.payload? ha hids hv hid]
  cases s.heap.payload? id with
  | none => rfl
  | some p => cases p <;> rfl

theorem field? {entered : List Handle} (hm : Mirror P ρ s u held) (ha : s.Accounted ids entered)
    (hids : ∀ id ∈ Value.objects held, id ∈ ids) (hv : s.Accessible held v) {id : ObjectId}
    (hid : v.object? = some id) (name : String) :
    u.field? id name = (s.field? id name).map (Value.rename ρ) := by
  unfold Store.field?
  rw [hm.payload? ha hids hv hid]
  cases s.heap.payload? id with
  | none => rfl
  | some p =>
    cases p with
    | «instance» parent fields => exact Bindings.find?_map _ fields name
    | _ => rfl

theorem elements? {entered : List Handle} (hm : Mirror P ρ s u held) (ha : s.Accounted ids entered)
    (hids : ∀ id ∈ Value.objects held, id ∈ ids) (hv : s.Accessible held v) {id : ObjectId}
    (hid : v.object? = some id) :
    u.elements? id = (s.elements? id).map (Array.map (Value.rename ρ)) := by
  unfold Store.elements?
  rw [hm.payload? ha hids hv hid]
  cases s.heap.payload? id with
  | none => rfl
  | some p => cases p <;> rfl

theorem className {entered : List Handle} (hm : Mirror P ρ s u held) (ha : s.Accounted ids entered)
    (hids : ∀ id ∈ Value.objects held, id ∈ ids) (hv : s.Accessible held v) {id : ObjectId}
    (hid : v.object? = some id) : u.className id = s.className id := by
  unfold Store.className
  rw [hm.parent? ha hids hv hid]
  cases s.parent? id with
  | none => rfl
  | some c => exact Class.name_rename ρ c

theorem displayInside {entered : List Handle} (hm : Mirror P ρ s u held)
    (ha : s.Accounted ids entered) (hids : ∀ id ∈ Value.objects held, id ∈ ids) (depth : Nat)
    (path : List ObjectId) (hv : s.Accessible held v) :
    u.displayInside depth path (v.rename ρ) = s.displayInside depth path v := by
  induction depth generalizing path v with
  | zero =>
    cases v with
    | classObject c => exact Class.name_rename ρ c
    | «instance» id => exact congrArg (· ++ " instance") (hm.className ha hids hv rfl)
    | _ => rfl
  | succ depth ih =>
    cases v with
    | classObject c => exact Class.name_rename ρ c
    | «instance» id => exact congrArg (· ++ " instance") (hm.className ha hids hv rfl)
    | array id =>
      have helements : ∀ elements, s.elements? id = some elements →
          (elements.toList.map (Value.rename ρ)).map (u.displayInside depth (id :: path)) =
            elements.toList.map (s.displayInside depth (id :: path)) := by
        intro elements he
        rw [List.map_map]
        exact List.map_congr_left fun w hw =>
          ih (id :: path) (.inside hv rfl (elements?_eq_some_iff.1 he) hw)
      simp only [Value.rename, Store.displayInside, hm.elements? ha hids hv rfl]
      cases he : s.elements? id with
      | none => rfl
      | some elements =>
        rw [Option.map_some, Option.getD_some, Option.getD_some, Array.toList_map, helements elements he]
    | _ => rfl

theorem display {entered : List Handle} (hm : Mirror P ρ s u held) (ha : s.Accounted ids entered)
    (hids : ∀ id ∈ Value.objects held, id ∈ ids) (hv : s.Accessible held v) :
    u.display (v.rename ρ) = s.display v := by
  unfold Store.display
  rw [hm.size]
  exact hm.displayInside ha hids _ _ hv

end Mirror
end Lox.Store
