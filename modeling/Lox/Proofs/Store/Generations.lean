import Lox.Proofs.Store.Freeing
import Lox.Proofs.Store.WellFormed

/-!
# Generations

A slot remembers how often it was freed: its generation grows by one each time and at no other. So
a handle that has gone stale never finds a frame again, however often its slot is used.
-/
namespace Lox

def Slot.generation : Slot → Nat
  | .occupied generation _ | .vacant generation => generation

namespace Arena

variable {a b c : Arena} {i : Nat} {h : Handle} {f : Frame}

/-! ## Generations -/

def generation (a : Arena) (i : Nat) : Nat := (a.slots[i]?).elim 0 Slot.generation

def isOccupied (a : Arena) (i : Nat) : Bool := (a.slots[i]?).any Slot.isOccupied

/-- The slot had a frame in `a` and has none in `b`. -/
def isFreed (a b : Arena) (i : Nat) : Bool := a.isOccupied i && !b.isOccupied i

/-- Generations count how often slots are freed between the one arena and the other. -/
def Counts (a b : Arena) : Prop :=
  ∀ i, b.generation i = a.generation i + if a.isFreed b i then 1 else 0

theorem Counts.of_slots (h : ∀ i, b.generation i = a.generation i)
    (ho : ∀ i, a.isOccupied i = true → b.isOccupied i = true) : a.Counts b := by
  intro i
  have hnot : a.isFreed b i = false := by
    cases hi : a.isOccupied i with
    | false => rw [isFreed, hi]; rfl
    | true => rw [isFreed, ho i hi]; simp
  rw [h, hnot]
  rfl

theorem generation_vacate (a : Arena) (i j : Nat) :
    (a.vacate i).generation j =
      a.generation j + if i = j ∧ a.isOccupied j = true then 1 else 0 := by
  unfold generation isOccupied
  rw [slots_vacate]
  by_cases hij : i = j
  · rcases a.slots[j]? with _ | (_ | _) <;> simp [hij, Slot.vacated, Slot.generation, Slot.isOccupied]
  · simp [hij]

theorem isOccupied_vacate (a : Arena) (i j : Nat) :
    (a.vacate i).isOccupied j = (a.isOccupied j && !decide (i = j)) := by
  unfold isOccupied
  rw [slots_vacate]
  by_cases hij : i = j
  · rcases a.slots[j]? with _ | (_ | _) <;> simp [hij, Slot.vacated, Slot.isOccupied]
  · simp [hij]

/-- A slot that was emptied stays empty, so that its generation has grown by one. -/
theorem Emptied.counts (he : a.Emptied b) :
    a.Counts b ∧ ∀ i, b.isOccupied i = true → a.isOccupied i = true := by
  induction he with
  | refl a => exact ⟨.of_slots (fun _ => rfl) fun _ h => h, fun _ h => h⟩
  | @vacate a b i hi _ ih =>
    obtain ⟨hcounts, hback⟩ := ih
    refine ⟨fun j => ?_, fun j hj => ?_⟩
    · have hj := hback j
      rw [hcounts j, generation_vacate]
      unfold isFreed
      rw [isOccupied_vacate] at hj ⊢
      by_cases hij : i = j
      · cases ha : a.isOccupied j <;> cases hb : b.isOccupied j <;> simp_all
      · simp [hij]
    · have hj := hback j hj
      rw [isOccupied_vacate, Bool.and_eq_true] at hj
      exact hj.1

/-- Nothing is freed and nothing is made. -/
def Steady (a b : Arena) : Prop :=
  ∀ i, b.generation i = a.generation i ∧ b.isOccupied i = a.isOccupied i

theorem Steady.trans (hab : a.Steady b) (hbc : b.Steady c) : a.Steady c := fun i =>
  ⟨(hbc i).1.trans (hab i).1, (hbc i).2.trans (hab i).2⟩

theorem Steady.counts (hs : a.Steady b) : a.Counts b :=
  .of_slots (fun i => (hs i).1) fun i hi => (hs i).2.trans hi

theorem steady_put (hf : a.frame? h = some f) (new : Frame) : a.Steady (a.put h new) := by
  have hs := frame?_eq_some_iff.1 hf
  obtain ⟨hi, -⟩ := Array.getElem?_eq_some_iff.1 hs
  intro j
  unfold generation isOccupied put
  by_cases hij : h.index = j
  · subst hij
    rw [Array.getElem?_setIfInBounds_self_of_lt hi, hs]
    exact ⟨rfl, rfl⟩
  · rw [Array.getElem?_setIfInBounds_ne hij]
    exact ⟨rfl, rfl⟩

theorem steady_capture (a : Arena) (h : Handle) : a.Steady (a.capture h) :=
  capture_induction (P := fun a _ b => a.Steady b) (fun _ _ _ _ => ⟨rfl, rfl⟩)
    (fun _ _ _ _ hf _ _ ih => (steady_put hf _).trans ih) (fun _ _ _ hf _ _ => steady_put hf _) a h

theorem counts_create (ht : a.Tidy) (e : Handle) : a.Counts (a.create e).2 := by
  obtain ⟨i, free, generation, -, hs, hc⟩ | ⟨-, hc⟩ := create_cases ht.recycles e
  · obtain ⟨hi, -⟩ := Array.getElem?_eq_some_iff.1 hs
    rw [hc]
    refine .of_slots (fun j => ?_) fun j hj => ?_
    · unfold Arena.generation
      by_cases hij : i = j
      · subst hij
        rw [Array.getElem?_setIfInBounds_self_of_lt hi, hs]
        rfl
      · rw [Array.getElem?_setIfInBounds_ne hij]
    · unfold isOccupied at hj ⊢
      by_cases hij : i = j
      · subst hij
        rw [Array.getElem?_setIfInBounds_self_of_lt hi]
        rfl
      · rwa [Array.getElem?_setIfInBounds_ne hij]
  · rw [hc]
    refine .of_slots (fun j => ?_) fun j hj => ?_
    · unfold Arena.generation
      rw [Array.getElem?_push]
      split
      · next hj =>
        rw [hj, Array.getElem?_size]
        rfl
      · rfl
    · unfold isOccupied at hj ⊢
      rw [Array.getElem?_push]
      split
      · rfl
      · exact hj

/-! ## What an operation does to the frames that there are -/

/-- Everything that happens to an arena except that a frame is made. -/
inductive Moves (a : Arena) : Arena → Prop where
  | same : Moves a a
  | rebind {h : Handle} {f new : Frame} (hf : a.frame? h = some f) (hc : new.captured = f.captured)
      (he : new.enclosing = f.enclosing) : Moves a (a.put h new)
  | capture (h : Handle) : Moves a (a.capture h)
  | empty {b : Arena} (n : Nat) (he : a.Emptied b) : Moves a { b with nextCollection := n }

theorem Moves.wellFormed (hm : a.Moves b) (hw : a.WellFormed) : b.WellFormed := by
  cases hm with
  | same => exact hw
  | rebind hf hc he => exact wellFormed_put hw hf hc he
  | capture h => exact wellFormed_capture hw h
  | empty n he => exact wellFormed_schedule (he.wellFormed hw) n

theorem Moves.linked (hm : a.Moves b) (hl : a.Linked) : b.Linked := by
  cases hm with
  | same => exact hl
  | rebind hf _ he => exact linked_put hl hf he
  | capture h => exact linked_capture hl h
  | empty n he => exact he.linked hl

theorem Moves.issued (hm : a.Moves b) (hi : a.Issued h) : b.Issued h := by
  cases hm with
  | same => exact hi
  | rebind hf _ _ => exact issued_put hf _ hi
  | capture g => exact issued_capture hi g
  | empty n he => exact he.issued hi

theorem Moves.counts (hm : a.Moves b) : a.Counts b := by
  cases hm with
  | same => exact Steady.counts fun _ => ⟨rfl, rfl⟩
  | rebind hf _ _ => exact (steady_put hf _).counts
  | capture h => exact (steady_capture a h).counts
  | empty n he => exact he.counts.1

/-! ## Stale handles -/

/-- The slot has been freed since the handle was given out. -/
def Outdated (a : Arena) (h : Handle) : Prop := h.generation < a.generation h.index

theorem Issued.le_generation (hi : a.Issued h) : h.generation ≤ a.generation h.index := by
  obtain ⟨slot, hs, hknew⟩ := hi
  unfold generation
  rw [hs]
  cases slot with
  | occupied generation f => exact hknew
  | vacant generation => exact Nat.le_of_lt hknew

/-- A handle that was given out and finds no frame is outdated. -/
theorem Issued.outdated (hi : a.Issued h) (hc : a.contains h = false) : a.Outdated h := by
  obtain ⟨slot, hs, hknew⟩ := hi
  unfold Outdated generation
  rw [hs]
  cases slot with
  | vacant generation => exact hknew
  | occupied generation f =>
    refine Nat.lt_of_le_of_ne hknew fun heq => ?_
    obtain rfl : h.generation = generation := heq
    rw [contains, frame?_eq_some_iff.2 hs] at hc
    cases hc

theorem Outdated.frame? (ho : a.Outdated h) : a.frame? h = none := by
  refine Option.eq_none_iff_forall_ne_some.2 fun f hf => ?_
  unfold Outdated generation at ho
  rw [frame?_eq_some_iff.1 hf] at ho
  exact Nat.lt_irrefl _ ho

end Arena

namespace Heap

/-- What joins the queue stands before all that is in it. -/
theorem discard_append (heap : Heap) (front back : List Handle) (ids : List ObjectId) :
    heap.discard (front ++ back) ids =
      ((heap.discard front ids).1, (heap.discard front ids).2 ++ back) := by
  refine discard_induction (P := fun heap front ids result =>
    heap.discard (front ++ back) ids = (result.1, result.2 ++ back)) ?_ ?_ ?_ ?_ heap front ids
  · intro heap front
    exact discard_nil heap _
  · intro heap front id rest result ho ih
    rw [discard_cons, drop_of_none ho]
    exact ih
  · intro heap front id rest object result ho hr ih
    rw [discard_cons, drop_eq_put ho, if_pos hr]
    exact ih
  · intro heap front id rest object result ho hr ih
    rw [discard_cons, drop_eq_put ho, if_neg (Nat.not_lt.2 hr)]
    dsimp only
    rw [← List.append_assoc]
    exact ih

end Heap

namespace Store

open Arena (Emptied WellFormed)

variable {s : Store} {h : Handle} {f : Frame}

/-! ## What frees frames -/

theorem index_ne_of_loose? (hw : s.arena.WellFormed) (hl : s.arena.loose? h = some f) :
    h.index ≠ 0 := by
  obtain ⟨hf, hloose⟩ := Option.filter_eq_some_iff.1 hl
  obtain ⟨g, hg, hc, -⟩ := hw.globals
  intro hzero
  have hs := Arena.frame?_eq_some_iff.1 hf
  rw [hzero] at hs
  obtain ⟨-, rfl⟩ := Slot.occupied.inj
    (Option.some.inj ((Arena.frame?_eq_some_iff.1 hg).symm.trans hs))
  rw [hc] at hloose
  simp at hloose

theorem emptied_release (hw : s.arena.WellFormed) (h : Handle) :
    s.arena.Emptied (s.release h).2.arena := by
  unfold release
  cases hl : s.arena.loose? h with
  | none => exact .refl _
  | some f => exact .vacate (index_ne_of_loose? hw hl) (.refl _)

theorem emptied_drainFrom {s : Store} (hw : s.arena.WellFormed) (freed : Nat) :
    s.arena.Emptied (s.drainFrom freed).2.arena := by
  cases hn : s.arena.nextLoose? s.queue with
  | none =>
    rw [drainFrom_of_none hn]
    exact .refl _
  | some next =>
    obtain ⟨h, f, rest⟩ := next
    obtain ⟨hl, -⟩ := nextLoose?_eq_some hn
    have hi := index_ne_of_loose? hw hl
    have hlt : ({ s with queue := rest }.free h.index f).arena.occupied < s.arena.occupied :=
      Arena.occupied_vacate_lt (Arena.frame?_of_loose? hl)
    rw [drainFrom_of_some hn]
    exact .vacate hi (emptied_drainFrom (s := { s with queue := rest }.free h.index f)
      (Arena.wellFormed_vacate hw hi) (freed + 1))
termination_by s.arena.occupied

theorem emptied_sweep {marks : Marks} (hmarks : marks.frames[0]? = some true) (slots : List Nat)
    (s : Store) : s.arena.Emptied (slots.foldl (sweepSlot marks) s).arena := by
  induction slots generalizing s with
  | nil => exact .refl _
  | cons i rest ih =>
    have hone : s.arena.Emptied (sweepSlot marks s i).arena := by
      unfold sweepSlot
      split
      · next generation frame _ hm =>
        split
        · refine .vacate (i := i) ?_ (.refl _)
          rintro rfl
          rw [hmarks] at hm
          cases hm
        · exact .refl _
      · exact .refl _
    exact hone.trans (ih _)

/-! ## The operations of the store -/

theorem moves_define (s : Store) (h : Handle) (name : String) (v : Value) :
    s.arena.Moves (s.define h name v).arena := by
  cases hf : s.arena.frame? h with
  | none =>
    rw [define_of_none hf, arena_discard]
    exact .same
  | some f =>
    rw [define_of_some hf]
    exact .rebind hf rfl rfl

theorem moves_assign (s : Store) (h : Handle) (name : String) (v : Value) :
    s.arena.Moves (s.assign h name v).2.arena := by
  unfold assign
  split
  · exact moves_define s h name v
  · rw [arena_discard]
    exact .same

theorem moves_assignAt (s : Store) (h : Handle) (distance : Nat) (name : String) (v : Value) :
    s.arena.Moves (s.assignAt h distance name v).2.arena := by
  unfold assignAt
  split
  · exact moves_assign s _ name v
  · rw [arena_discard]
    exact .same

theorem moves_release (hw : s.arena.WellFormed) (h : Handle) :
    s.arena.Moves (s.release h).2.arena :=
  .empty _ (emptied_release hw h)

theorem moves_drain (hw : s.arena.WellFormed) : s.arena.Moves s.drain.2.arena :=
  .empty _ (emptied_drainFrom hw 0)

/-- A collection only empties slots, and not the first one, since the global frame is marked. -/
theorem emptied_collect (hw : s.arena.WellFormed) (roots : List Handle) :
    s.arena.Emptied
      ((List.range s.arena.slots.size).foldl (sweepSlot (s.reachable roots)) s).arena := by
  obtain ⟨f, hf, -, -⟩ := hw.globals
  have hmarks : (s.reachable roots).frames[0]? = some true :=
    (marked_iff_reaches (h := .globals) (Arena.contains_iff.2 ⟨f, hf⟩)).2 .globals
  exact emptied_sweep hmarks (List.range s.arena.slots.size) s

theorem moves_collect (hw : s.arena.WellFormed) (roots : List Handle) :
    s.arena.Moves (s.collect roots).2.arena :=
  .empty _ (emptied_collect hw roots)

/-! ## Stale handles in the queue -/

theorem nextLoose?_append (a : Arena) (front back : List Handle) :
    a.nextLoose? (front ++ back) =
      ((a.nextLoose? front).map fun (g, f, rest) => (g, f, rest ++ back)).or (a.nextLoose? back) := by
  induction front with
  | nil => rfl
  | cons g front ih =>
    rw [List.cons_append, Arena.nextLoose?, Arena.nextLoose?]
    cases a.loose? g with
    | none => exact ih
    | some f => rfl

/-- A handle that finds no frame makes no difference in the queue. -/
theorem drainFrom_of_stale {s : Store} (hf : s.arena.frame? h = none) (front back : List Handle)
    (freed : Nat) :
    ({ s with queue := front ++ h :: back } : Store).drainFrom freed =
      ({ s with queue := front ++ back } : Store).drainFrom freed := by
  have hskip : s.arena.nextLoose? (h :: back) = s.arena.nextLoose? back := by
    rw [Arena.nextLoose?, Arena.loose?, hf]
    rfl
  have hlong := nextLoose?_append s.arena front (h :: back)
  have hshort := nextLoose?_append s.arena front back
  rw [hskip] at hlong
  cases hn : s.arena.nextLoose? front with
  | none =>
    rw [hn] at hlong hshort
    cases hb : s.arena.nextLoose? back with
    | none =>
      rw [hb] at hlong hshort
      rw [drainFrom_of_none (s := { s with queue := front ++ h :: back }) hlong,
        drainFrom_of_none (s := { s with queue := front ++ back }) hshort]
    | some next =>
      rw [hb] at hlong hshort
      rw [drainFrom_of_some (s := { s with queue := front ++ h :: back }) hlong,
        drainFrom_of_some (s := { s with queue := front ++ back }) hshort]
  | some next =>
    obtain ⟨g, f, rest⟩ := next
    rw [hn] at hlong hshort
    have hlt : (s.arena.vacate g.index).occupied < s.arena.occupied :=
      Arena.occupied_vacate_lt (Arena.frame?_of_nextLoose? hn)
    have hfree : ∀ queue, ({ s with queue := rest ++ queue } : Store).free g.index f =
        { ({ s with queue := rest } : Store).free g.index f with
          queue := (({ s with queue := rest } : Store).free g.index f).queue ++ queue } := by
      intro queue
      unfold free discardAll discardObjects
      dsimp only
      rw [Heap.discard_append]
    have hgone : (({ s with queue := rest } : Store).free g.index f).arena.frame? h = none := by
      rw [arena_free, Arena.frame?_vacate, hf, ite_self]
    rw [drainFrom_of_some (s := { s with queue := front ++ h :: back }) hlong,
      drainFrom_of_some (s := { s with queue := front ++ back }) hshort]
    change (({ s with queue := rest ++ h :: back } : Store).free g.index f).drainFrom (freed + 1) =
      (({ s with queue := rest ++ back } : Store).free g.index f).drainFrom (freed + 1)
    rw [hfree, hfree]
    exact drainFrom_of_stale hgone _ back (freed + 1)
termination_by s.arena.occupied

/-- Nothing can be done through the handle, now that its frame is gone. A value that was to be bound
is dropped, and a guard of the frame frees nothing wherever it stands in the queue. -/
structure Stale (s : Store) (h : Handle) : Prop where
  contains : s.arena.contains h = false
  find? : ∀ name, s.arena.find? h name = none
  ancestor? : ∀ distance, s.arena.ancestor? h distance = none
  findAt? : ∀ distance name, s.arena.findAt? h distance name = none
  define : ∀ name v, s.define h name v = s.discard v
  assign : ∀ name v, s.assign h name v = (false, s.discard v)
  assignAt : ∀ distance name v, s.assignAt h distance name v = (false, s.discard v)
  capture : s.capture h = s
  release : s.release h = (false, s)
  drain : ∀ front back, ({ s with queue := front ++ h :: back } : Store).drain =
    ({ s with queue := front ++ back } : Store).drain

theorem stale_of_frame? (hf : s.arena.frame? h = none) : s.Stale h := by
  have hfind : ∀ name, s.arena.find? h name = none := fun name => by
    rw [Arena.find?, hf]
    rfl
  have hancestor : ∀ distance, s.arena.ancestor? h distance = none := fun distance => by
    cases distance with
    | zero => rw [Arena.ancestor?, Arena.contains, hf]; rfl
    | succ distance => rw [Arena.ancestor?, hf]
  refine ⟨by rw [Arena.contains, hf]; rfl, hfind, hancestor, fun distance name => ?_,
    fun name v => define_of_none hf, fun name v => ?_, fun distance name v => ?_, ?_, ?_,
    fun front back => drainFrom_of_stale hf front back 0⟩
  · rw [Arena.findAt?, hancestor]
    rfl
  · rw [Store.assign, hfind]
  · rw [Store.assignAt, hancestor]
  · rw [Store.capture, Arena.capture_of_captured fun f h => by rw [hf] at h; cases h]
  · rw [Store.release, Arena.loose?, hf]
    rfl

end Store
end Lox
