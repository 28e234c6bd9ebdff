import Lox.Proofs.Ownership.Upkeep
import Lox.Proofs.Store.Freeing

/-!
# Who sees to frames

A frame that no closure refers to has somebody who sees to it that it is freed: it is still to be
left, or it is in the queue, or a bound method owns it. Beside this it is followed what has become of
frames since an earlier state of the store. Only the creation of functions captures.
-/
namespace Lox

namespace Arena

variable {a : Arena} {g h : Handle} {f : Frame}

theorem captured_of_loose? (hr : a.reclaims = true) (hf : a.frame? h = some f) (hl : a.loose? h = none) :
    f.captured = true := by
  unfold loose? at hl
  rw [hf, hr] at hl
  simpa using hl

theorem captured_vacate {i : Nat} (hc : (a.vacate i).Captured g) : a.Captured g := by
  obtain ⟨f, hf, hcaptured⟩ := hc
  exact ⟨f, (frame?_of_vacate hf).2, hcaptured⟩

theorem captured_put {new : Frame} (hf : a.frame? h = some f) (hnew : new.captured = f.captured)
    (hc : (a.put h new).Captured g) : a.Captured g := by
  obtain ⟨f', hf', hcaptured⟩ := hc
  obtain ⟨rfl, rfl⟩ | hf' := frame?_put_cases hf hf'
  · exact ⟨f, hf, hnew.symm.trans hcaptured⟩
  · exact ⟨f', hf', hcaptured⟩

end Arena

theorem Heap.owners_modify (heap : Heap) (id : ObjectId) {f : Payload → Payload}
    (hf : ∀ p, (f p).owned = p.owned) (h : Handle) : (heap.modify id f).owners h = heap.owners h := by
  cases ho : heap.find? id with
  | none => rw [modify_of_none ho]
  | some object =>
    have hput := total_put ho (fun p => p.owned.count h) (some { object with payload := f object.payload })
    simp only [weigh, hf] at hput
    rw [modify_eq_put ho]
    unfold owners
    omega

namespace Store

/-- How many see to a frame. -/
def keepers (entered : List Handle) (s : Store) (h : Handle) : Nat :=
  entered.count h + s.queue.count h + s.heap.owners h

/-- What holds of a store since it was `before`. -/
structure Tended (before : Store) (entered : List Handle) (s : Store) : Prop where
  recycles : s.arena.Recycles
  reclaims : s.arena.reclaims = true
  kept : ∀ h f, s.arena.frame? h = some f → f.captured = true ∨ 0 < keepers entered s h
  issued : ∀ h, before.arena.Issued h → s.arena.Issued h
  live : ∀ h, before.arena.Issued h → s.arena.contains h = true → before.arena.contains h = true
  stamps : before.heap.nextStamp ≤ s.heap.nextStamp
  captured : s.heap.nextStamp = before.heap.nextStamp →
    ∀ h, s.arena.Captured h → before.arena.Captured h

namespace Tended

variable {before s t : Store} {l l' : List Handle} {h : Handle} {f : Frame}

/-- Nothing happens to frames. -/
theorem steady (hs : Tended before l s) (harena : t.arena = s.arena)
    (hstamps : s.heap.nextStamp ≤ t.heap.nextStamp) (hkeepers : ∀ h, keepers l s h ≤ keepers l' t h) :
    Tended before l' t := by
  obtain ⟨recycles, reclaims, kept, issued, live, stamps, captured⟩ := hs
  rw [← harena] at recycles reclaims kept issued live captured
  exact ⟨recycles, reclaims, fun h f hf => (kept h f hf).imp_right fun hpos => hpos.trans_le (hkeepers h),
    issued, live, stamps.trans hstamps, fun heq => captured (by omega)⟩

theorem discardObjects (hs : Tended before l s) (ids : List ObjectId) :
    Tended before l (s.discardObjects ids) := by
  refine hs.steady rfl (Heap.within_discard s.heap s.queue ids).nextStamp.ge fun h => ?_
  have howners := Heap.owners_discard s.heap s.queue ids h
  unfold keepers
  change _ ≤ l.count h + (s.heap.discard s.queue ids).2.count h + (s.heap.discard s.queue ids).1.owners h
  omega

theorem retain (hs : Tended before l s) (v : Value) : Tended before l (s.retain v) := by
  unfold Store.retain
  split
  · next id _ =>
    refine hs.steady rfl (Heap.within_retain s.heap id).nextStamp.ge fun h => ?_
    have howners := Heap.total_retain (fun p => p.owned.count h) s.heap id
    unfold keepers Heap.owners
    dsimp only
    omega
  · exact hs

theorem allocate {p : Payload} (hs : Tended before (p.owned ++ l) s) : Tended before l (s.allocate p).2 := by
  refine hs.steady rfl le_rfl fun h => ?_
  have howners := Heap.total_allocate (fun p => p.owned.count h) s.heap p
  unfold keepers Heap.owners
  rw [List.count_append]
  change _ ≤ l.count h + s.queue.count h + (s.heap.allocate p).2.total _
  omega

theorem modify {id : ObjectId} {f : Payload → Payload} (hf : ∀ p : Payload, (f p).owned = p.owned)
    (hs : Tended before l s) : Tended before l { s with heap := s.heap.modify id f } := by
  refine hs.steady rfl le_rfl fun h => ?_
  unfold keepers
  dsimp only
  rw [Heap.owners_modify s.heap id hf]

/-- A frame gets other bindings. -/
theorem put (hs : Tended before l s) (hf : s.arena.frame? h = some f) {new : Frame}
    (hnew : new.captured = f.captured) : Tended before l { s with arena := s.arena.put h new } where
  recycles := Arena.recycles_put hf new hs.recycles
  reclaims := hs.reclaims
  kept g f' hf' := by
    dsimp only at hf'
    obtain ⟨rfl, rfl⟩ | hf' := Arena.frame?_put_cases hf hf'
    · rw [hnew]
      exact hs.kept g f hf
    · exact hs.kept g f' hf'
  issued g hg := Arena.issued_put hf new (hs.issued g hg)
  live g hg hcontains := by
    refine hs.live g hg ?_
    obtain ⟨f', hf'⟩ := Arena.contains_iff.1 hcontains
    dsimp only at hf'
    obtain ⟨rfl, -⟩ | hf' := Arena.frame?_put_cases hf hf'
    · exact Arena.contains_iff.2 ⟨f, hf⟩
    · exact Arena.contains_iff.2 ⟨f', hf'⟩
  stamps := hs.stamps
  captured heq g hc := hs.captured heq g (Arena.captured_put hf hnew hc)

theorem define (hs : Tended before l s) (h : Handle) (name : String) (v : Value) :
    Tended before l (s.define h name v) := by
  cases hf : s.arena.frame? h with
  | none =>
    rw [define_of_none hf]
    unfold Store.discard
    split
    · exact hs.discardObjects _
    · exact hs
  | some f =>
    have hput : Tended before l
        { s with arena := s.arena.put h { f with bindings := f.bindings.insert name v } } := hs.put hf rfl
    rw [define_of_some hf]
    exact hput.discardObjects _

theorem create (hs : Tended before l s) (enclosing : Handle) :
    Tended before ((s.create enclosing).1 :: l) (s.create enclosing).2 := by
  have hnew := Arena.not_issued_create hs.recycles enclosing
  refine ⟨Arena.recycles_create hs.recycles enclosing,
    (Arena.reclaims_create s.arena enclosing).trans hs.reclaims, fun h f hf => ?_,
    fun h hi => Arena.issued_create hs.recycles enclosing (.inr (hs.issued h hi)), fun h hi hc => ?_,
    hs.stamps, ?_⟩
  · unfold keepers
    rw [show (s.create enclosing).1 = (s.arena.create enclosing).1 from rfl, List.count_cons]
    obtain ⟨rfl, -⟩ | hf := Arena.frame?_create_cases hs.recycles enclosing hf
    · rw [if_pos (beq_self_eq_true _)]
      exact .inr (by omega)
    · refine (hs.kept h f hf).imp_right fun hpos => ?_
      unfold keepers at hpos
      change 0 < _ + _ + s.queue.count h + s.heap.owners h
      omega
  · obtain ⟨f, hf⟩ := Arena.contains_iff.1 hc
    obtain ⟨rfl, -⟩ | hf := Arena.frame?_create_cases hs.recycles enclosing hf
    · exact absurd (hs.issued _ hi) hnew
    · exact hs.live h hi (Arena.contains_iff.2 ⟨f, hf⟩)
  · rintro heq h ⟨f, hf, hcaptured⟩
    obtain ⟨-, rfl⟩ | hf := Arena.frame?_create_cases hs.recycles enclosing hf
    · cases hcaptured
    · exact hs.captured heq h ⟨f, hf, hcaptured⟩

/-- A frame is freed. Nobody has to see to it any more. -/
theorem free (hs : Tended before (h :: l) s) : Tended before l (s.free h.index f) := by
  have hvacate : Tended before l { s with arena := s.arena.vacate h.index } := by
    refine ⟨Arena.recycles_vacate hs.recycles _, (Arena.reclaims_vacate _ _).trans hs.reclaims,
      fun g f' hf' => ?_, fun g hg => Arena.issued_vacate (hs.issued g hg) _, fun g hg hc => ?_, hs.stamps,
      fun heq g hc => hs.captured heq g (Arena.captured_vacate hc)⟩
    · obtain ⟨hindex, hf'⟩ := Arena.frame?_of_vacate hf'
      have hne : (h == g) = false := beq_eq_false_iff_ne.2 fun heq => hindex (congrArg Handle.index heq)
      refine (hs.kept g f' hf').imp_right fun hpos => ?_
      unfold keepers at hpos ⊢
      rw [List.count_cons, hne] at hpos
      exact hpos
    · obtain ⟨f', hf'⟩ := Arena.contains_iff.1 hc
      exact hs.live g hg (Arena.contains_iff.2 ⟨f', (Arena.frame?_of_vacate hf').2⟩)
  exact hvacate.discardObjects _

/-- Nobody has to see to a captured frame. -/
theorem leave (hs : Tended before (h :: l) s)
    (hkept : ∀ f, s.arena.frame? h = some f → f.captured = true) : Tended before l s := by
  refine ⟨hs.recycles, hs.reclaims, fun g f hf => ?_, hs.issued, hs.live, hs.stamps, hs.captured⟩
  cases heq : h == g with
  | true => exact .inl (hkept f (eq_of_beq heq ▸ hf))
  | false =>
    refine (hs.kept g f hf).imp_right fun hpos => ?_
    unfold keepers at hpos ⊢
    rw [List.count_cons, heq] at hpos
    exact hpos

theorem release (hs : Tended before (h :: l) s) : Tended before l (s.release h).2 := by
  unfold Store.release
  cases hl : s.arena.loose? h with
  | some f => exact hs.free
  | none => exact hs.leave fun f hf => Arena.captured_of_loose? hs.reclaims hf hl

/-- What is taken from the queue is captured or freed next. -/
theorem dequeue {queue : List Handle} (hs : Tended before l s) (l' : List Handle)
    (hqueue : ∀ g ∈ s.queue, s.arena.loose? g = none ∨ g ∈ l' ++ queue) :
    Tended before (l' ++ l) { s with queue := queue } := by
  refine ⟨hs.recycles, hs.reclaims, fun g f hf => ?_, hs.issued, hs.live, hs.stamps, hs.captured⟩
  obtain hc | hpos := hs.kept g f hf
  · exact .inl hc
  by_cases hmem : g ∈ s.queue
  · refine (hqueue g hmem).imp (Arena.captured_of_loose? hs.reclaims hf) fun hmem => ?_
    have hcount := List.count_pos_iff.2 hmem
    rw [List.count_append] at hcount
    unfold keepers
    rw [List.count_append]
    dsimp only
    omega
  · refine .inr ?_
    unfold keepers at hpos ⊢
    rw [List.count_eq_zero.2 hmem] at hpos
    rw [List.count_append]
    dsimp only
    omega

theorem drainFrom {s : Store} (hs : Tended before l s) (freed : Nat) :
    Tended before l (s.drainFrom freed).2 := by
  cases hn : s.arena.nextLoose? s.queue with
  | none =>
    rw [drainFrom_of_none hn]
    exact hs.dequeue [] fun g hg => .inl (Arena.loose?_of_nextLoose? hn hg)
  | some next =>
    obtain ⟨h, f, rest⟩ := next
    have hlt : ({ s with queue := rest }.free h.index f).arena.occupied < s.arena.occupied :=
      Arena.occupied_vacate_lt (Arena.frame?_of_nextLoose? hn)
    have hrest := hs.dequeue [h] fun g hg => Arena.mem_of_nextLoose? hn hg
    rw [drainFrom_of_some hn]
    exact drainFrom hrest.free (freed + 1)
termination_by s.arena.occupied

theorem sweepSlot (hs : Tended before l s) (marks : Marks) (i : Nat) :
    Tended before l (Store.sweepSlot marks s i) := by
  unfold Store.sweepSlot
  split
  · next generation f _ _ =>
    split
    · refine free (h := ⟨i, generation⟩) (hs.steady rfl le_rfl fun g => ?_)
      unfold keepers
      rw [List.count_cons]
      omega
    · exact hs
  · exact hs

theorem collect (hs : Tended before l s) (roots : List Handle) : Tended before l (s.collect roots).2 := by
  have hsweep : ∀ (slots : List Nat) {t : Store}, Tended before l t →
      Tended before l (slots.foldl (Store.sweepSlot (s.reachable roots)) t) := by
    intro slots
    induction slots with
    | nil => exact fun ht => ht
    | cons i rest ih => exact fun ht => ih (ht.sweepSlot _ i)
  obtain ⟨recycles, reclaims, kept, issued, live, stamps, captured⟩ :=
    hsweep (List.range s.arena.slots.size) hs
  exact ⟨⟨recycles.nodup, recycles.vacant⟩, reclaims, kept, issued, live, stamps, captured⟩

/-- A function or a class is made. From here on, captured frames need not be old. -/
theorem stamp (hs : Tended before l s) : Tended before l { s with heap := s.heap.stamp.2 } :=
  hs.steady rfl (Nat.le_succ _) fun _ => le_rfl

theorem closeOver (hs : Tended before l s) (decl : FunctionDecl) (h : Handle) (isInitializer : Bool) :
    Tended before l ((s.capture h).closeOver decl h isInitializer).2 where
  recycles := Arena.recycles_capture hs.recycles h
  reclaims := (Arena.reclaims_capture s.arena h).trans hs.reclaims
  kept g f hf := by
    change (s.arena.capture h).frame? g = some f at hf
    obtain heq | ⟨f', -, heq⟩ := Arena.frame?_capture s.arena h g
    · exact hs.kept g f (heq.symm.trans hf)
    · rw [heq] at hf
      cases hf
      exact .inl rfl
  issued g hg := Arena.issued_capture (hs.issued g hg) h
  live g hg hc := hs.live g hg ((Arena.contains_capture s.arena h g).symm.trans hc)
  stamps := hs.stamps.trans (Nat.le_succ _)
  captured heq := by
    have hstamps := hs.stamps
    change s.heap.nextStamp + 1 = _ at heq
    omega

end Tended

/-- Whatever is done to a store, frames are seen to. -/
theorem upkeep_tended (before : Store) : Upkeep (Tended before) where
  retain hs := hs.retain
  discardObjects hs := hs.discardObjects
  define hs := hs.define
  create hs := hs.create
  release hs := hs.release
  drain hs := hs.drainFrom 0
  collect hs := hs.collect
  closeOver hs := hs.closeOver
  makeClass hs _ _ _ := hs.stamp
  allocate howned hs := Tended.allocate (by rw [howned]; exact hs)
  guard hs _ := Tended.allocate (p := .binding _) hs
  modify hf hs := hs.modify hf

end Store
end Lox
