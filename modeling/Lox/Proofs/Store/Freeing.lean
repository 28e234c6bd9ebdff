import Lox.Proofs.Store.Operations
import Lox.Proofs.Store.Tracing

/-!
# Freeing frames safely

A frame whose owner has given it up and that is not captured is not used by anything: no function
that can be got at closes over it, and no live frame is inside of it. So a healthy store stays
healthy when it is freed at once.
-/
namespace Lox.Arena

variable {a : Arena} {g h : Handle} {frame : Frame} {queue rest : List Handle}

theorem loose?_of_nextLoose? (hn : a.nextLoose? queue = none) (hg : g ∈ queue) : a.loose? g = none := by
  induction queue with
  | nil => cases hg
  | cons first queue ih =>
    rw [nextLoose?] at hn
    split at hn
    · cases hn
    · next hl =>
      obtain rfl | hg := List.mem_cons.1 hg
      · exact hl
      · exact ih hn hg

/-- What comes before the first frame that can be freed cannot be freed. -/
theorem mem_of_nextLoose? (hn : a.nextLoose? queue = some (h, frame, rest)) (hg : g ∈ queue) :
    a.loose? g = none ∨ g ∈ h :: rest := by
  induction queue with
  | nil => cases hg
  | cons first queue ih =>
    rw [nextLoose?] at hn
    split at hn
    · cases hn
      exact .inr hg
    · next hl =>
      obtain rfl | hg := List.mem_cons.1 hg
      · exact .inl hl
      · exact ih hn hg

theorem reclaims_of_loose? (hl : a.loose? h = some frame) : a.reclaims = true := by
  obtain ⟨-, hloose⟩ := Option.filter_eq_some_iff.1 hl
  exact (Bool.and_eq_true_iff.1 hloose).1

theorem ne_of_loose? {kept : Frame} (hl : a.loose? h = some frame) (hg : a.frame? g = some kept)
    (hc : kept.captured = true) : g ≠ h := by
  rintro rfl
  obtain ⟨hf, hloose⟩ := Option.filter_eq_some_iff.1 hl
  obtain rfl := Option.some.inj (hf.symm.trans hg)
  rw [hc] at hloose
  simp at hloose

theorem not_captured_of_loose? (hl : a.loose? h = some frame) : ¬ a.Captured h :=
  fun ⟨_, hf, hc⟩ => ne_of_loose? hl hf hc rfl

end Lox.Arena

namespace Lox.Store

variable {s : Store} {extra : List ObjectId} {held : List Value} {acts : List Activation}

/-- The functions that run are held by whoever waits for them. -/
def Pinned (held : List Value) (acts : List Activation) : Prop :=
  ∀ a ∈ acts, ∀ f, a.callee = some f → .function f ∈ held

theorem owners_pos {id : ObjectId} {h : Handle} (hp : s.heap.payload? id = some (.binding h)) :
    0 < s.heap.owners h := by
  have hle := Heap.le_total (fun p => p.owned.count h) hp
  simp only [Payload.owned, List.count_singleton_self] at hle
  exact hle

/-- No function that can be got at closes over a frame that is not captured and has no binding
for its owner. -/
theorem closure_ne_of_unowned {h : Handle} {f : Function} (hf : s.Supports (.function f))
    (hloose : ¬ s.arena.Captured h) (howner : s.heap.owners h = 0) : f.closure ≠ h := by
  rintro rfl
  obtain ⟨stamp, decl, closure, isInitializer, binding⟩ := f
  cases binding with
  | none => exact hloose hf
  | some id =>
    have hpos : 0 < s.heap.owners closure := owners_pos hf.1
    change s.heap.owners closure = 0 at howner
    omega

/-! ## One frame less -/

variable {l : List Activation} {g h : Handle} {frame kept : Frame}

section

variable (hf : s.arena.frame? h = some frame)
include hf

theorem frame?_free (g : Handle) :
    (s.free h.index frame).arena.frame? g = if g = h then none else s.arena.frame? g :=
  Arena.frame?_vacate_of_frame? hf g

theorem frame?_of_free (hg : (s.free h.index frame).arena.frame? g = some kept) :
    g ≠ h ∧ s.arena.frame? g = some kept := by
  rw [frame?_free hf] at hg
  split at hg
  · cases hg
  · next hne => exact ⟨hne, hg⟩

theorem contains_free (hne : g ≠ h) (hc : s.arena.contains g = true) :
    (s.free h.index frame).arena.contains g = true := by
  obtain ⟨kept, hg⟩ := Arena.contains_iff.1 hc
  exact Arena.contains_iff.2 ⟨kept, (frame?_free hf g).trans ((if_neg hne).trans hg)⟩

end

section

variable (hl : s.arena.loose? h = some frame)
include hl

theorem frame?_free_of_captured (hg : s.arena.frame? g = some kept) (hc : kept.captured = true) :
    (s.free h.index frame).arena.frame? g = some kept := by
  rw [frame?_free (Arena.frame?_of_loose? hl), if_neg (Arena.ne_of_loose? hl hg hc), hg]

theorem captured_free (hc : s.arena.Captured g) : (s.free h.index frame).arena.Captured g := by
  obtain ⟨kept, hg, hc⟩ := hc
  exact ⟨kept, frame?_free_of_captured hl hg hc, hc⟩

/-- No other frame is inside of `h`: it would be run in, and then either `h` would be, too, or a
function would close over it. -/
theorem Intact.enclosing_ne (hi : s.Intact held (l ++ acts)) (hleft : ∀ a ∈ l, a.frame = h)
    (hacts : ∀ a ∈ acts, a.frame ≠ h) (howner : s.heap.owners h = 0) (hpins : Pinned held acts)
    (hg : s.arena.frame? g = some kept) (hne : g ≠ h) : kept.enclosing ≠ some h := by
  have hnot := Arena.not_captured_of_loose? hl
  intro he
  obtain hc | ⟨a, ha, rfl⟩ := hi.active g kept h (Arena.reclaims_of_loose? hl) hg he
  · exact hnot hc
  · have ha : a ∈ acts := (List.mem_append.1 ha).resolve_left fun ha => hne (hleft a ha)
    obtain ⟨before, after, hsplit⟩ := List.append_of_mem ha
    have hsuffix : (a :: after) <:+ l ++ acts := by
      rw [hsplit, ← List.append_assoc]
      exact List.suffix_append _ _
    obtain hc | ⟨b, hb, rfl⟩ | ⟨c, hcallee, hclosure⟩ := hi.nested a after hsuffix kept h hg he
    · exact hnot hc
    · refine hacts b ?_ rfl
      rw [hsplit]
      exact List.mem_append_right _ (List.mem_cons_of_mem _ hb)
    · exact closure_ne_of_unowned (hi.supported _ (.held (hpins a ha c hcallee))) hnot howner hclosure

/-- `l` are activations that have come to an end, whose frame is freed. -/
theorem Healthy.free (hh : s.Healthy extra held (l ++ acts)) (hleft : ∀ a ∈ l, a.frame = h)
    (hacts : ∀ a ∈ acts, a.frame ≠ h) (howner : s.heap.owners h = 0) (hpins : Pinned held acts) :
    (s.free h.index frame).Healthy extra held acts := by
  have hf := Arena.frame?_of_loose? hl
  have ha : (s.free h.index frame).Accounted (extra ++ Value.objects held)
      (acts.map Activation.frame) := by
    refine (hh.accounted.mono (fun _ => Nat.le_refl _) fun g => ?_).free hf
    rw [List.map_append, List.count_append]
    omega
  have hwithin : (s.free h.index frame).heap.Within s.heap :=
    Heap.within_discard s.heap s.queue _
  refine ⟨ha, ?_, fun g f e hg he => ?_, fun g f e hg hc he => ?_, fun g f e _ hg he => ?_,
    fun a ha => ?_, fun a outer hs f e hg he => ?_, fun w hw => ?_⟩
  · obtain ⟨f, hg, hc, he⟩ := hh.intact.globals
    exact ⟨f, frame?_free_of_captured hl hg hc, hc, he⟩
  · obtain ⟨hne, hg⟩ := frame?_of_free hf hg
    have houter := hh.intact.enclosing_ne hl hleft hacts howner hpins hg hne
    exact contains_free hf (fun heq => houter (heq ▸ he)) (hh.intact.live g f e hg he)
  · exact captured_free hl (hh.intact.closed g f e (frame?_of_free hf hg).2 hc he)
  · obtain ⟨hne, hg⟩ := frame?_of_free hf hg
    obtain hc | ⟨a, ha, rfl⟩ := hh.intact.active g f e (Arena.reclaims_of_loose? hl) hg he
    · exact .inl (captured_free hl hc)
    · exact .inr ⟨a, (List.mem_append.1 ha).resolve_left fun ha => hne (hleft a ha), rfl⟩
  · exact contains_free hf (hacts a ha) (hh.intact.entered a (List.mem_append_right l ha))
  · have hnested := hh.intact.nested a outer (hs.trans (List.suffix_append _ _)) f e
      (frame?_of_free hf hg).2 he
    exact hnested.imp_left (captured_free hl)
  · have hacc : s.Accessible held w := by
      refine hw.of_within (fun g f hg w hw => .bound (frame?_of_free hf hg).2 hw)
        (fun id p hp v hid hv w hw => .inside hv hid (hwithin.payload id p hp) hw)
        fun w hw => .held hw
    refine (hh.intact.supported w hacc).mono (fun _ => captured_free hl) fun id g hid hp hc => ?_
    obtain ⟨object, ho⟩ := ha.find?_of_accessible (fun _ h => List.mem_append_right _ h) hw hid
    refine ⟨hwithin.payload_of_find? ho hp, contains_free hf ?_ hc⟩
    rintro rfl
    have hpos := owners_pos hp
    omega

end

/-- An activation comes to an end, and its frame is freed if nothing has captured it. -/
theorem Healthy.release {a : Activation} (hh : s.Healthy extra held (a :: acts))
    (hpins : Pinned held acts) : (s.release a.frame).2.Healthy extra held acts := by
  have howned := hh.accounted.owned a.frame
  rw [List.map_cons, List.count_cons_self] at howned
  unfold Store.release
  cases hl : s.arena.loose? a.frame with
  | some frame =>
    refine Healthy.free (l := [a]) hl hh (by simp) (fun b hb hba => ?_) (by omega) hpins
    have hpos := List.count_pos_iff.2 (List.mem_map_of_mem (f := Activation.frame) hb)
    rw [hba] at hpos
    omega
  | none =>
    refine ⟨hh.accounted.mono (fun _ => Nat.le_refl _) fun g => ?_, hh.intact.globals,
      hh.intact.live, hh.intact.closed, fun h f e hr hf he => ?_,
      fun b hb => hh.intact.entered b (List.mem_cons_of_mem _ hb),
      fun b outer hs => hh.intact.nested b outer (hs.trans (List.suffix_cons _ _)),
      hh.intact.supported⟩
    · rw [List.map_cons, List.count_cons]
      omega
    · obtain hc | ⟨b, hb, rfl⟩ := hh.intact.active h f e hr hf he
      · exact .inl hc
      · obtain rfl | hb := List.mem_cons.1 hb
        · -- it was not freed, so it is captured, and then what encloses it is
          refine .inl (hh.intact.closed _ f e hf ?_ he)
          unfold Arena.loose? at hl
          rw [hf, hr] at hl
          simpa using hl
        · exact .inr ⟨b, hb, rfl⟩

/-! ## Draining the queue -/

theorem Healthy.dequeue (hh : s.Healthy extra held acts) {queue : List Handle}
    (hqueue : ∀ h, queue.count h ≤ s.queue.count h) :
    ({ s with queue := queue } : Store).Healthy extra held acts := by
  refine ⟨hh.accounted.dequeue hqueue, hh.intact.of_alike (Arena.Alike.refl _) fun w hw => ?_⟩
  have hacc : s.Accessible held w := hw.of_within (fun h f hf w hw => .bound hf hw)
    (fun id p hp v hid hv w hw => .inside hv hid hp hw) fun w hw => .held hw
  exact (hh.intact.supported w hacc).of_alike (Arena.Alike.refl _) fun _ _ _ hp => hp

theorem nextLoose?_eq_some {a : Arena} {queue rest : List Handle} {h : Handle} {frame : Frame}
    (hn : a.nextLoose? queue = some (h, frame, rest)) :
    a.loose? h = some frame ∧ (h :: rest) <:+ queue := by
  induction queue with
  | nil => cases hn
  | cons first queue ih =>
    rw [Arena.nextLoose?] at hn
    cases hl : a.loose? first with
    | none =>
      rw [hl] at hn
      exact ⟨(ih hn).1, (ih hn).2.trans (List.suffix_cons _ _)⟩
    | some found =>
      rw [hl] at hn
      cases hn
      exact ⟨hl, List.suffix_refl _⟩

theorem drainFrom_of_some {freed : Nat} {h : Handle} {frame : Frame} {rest : List Handle}
    (hn : s.arena.nextLoose? s.queue = some (h, frame, rest)) :
    s.drainFrom freed = ({ s with queue := rest }.free h.index frame).drainFrom (freed + 1) := by
  rw [drainFrom]
  split
  · next hn' =>
    rw [hn] at hn'
    cases hn'
    rfl
  · next hn' =>
    rw [hn] at hn'
    cases hn'

theorem drainFrom_of_none {freed : Nat} (hn : s.arena.nextLoose? s.queue = none) :
    s.drainFrom freed = (freed, { s with queue := [] }) := by
  rw [drainFrom]
  split
  · next hn' =>
    rw [hn] at hn'
    cases hn'
  · rfl

theorem Healthy.drainFrom {s : Store} (hh : s.Healthy extra held acts) (hpins : Pinned held acts)
    (freed : Nat) : (s.drainFrom freed).2.Healthy extra held acts := by
  cases hn : s.arena.nextLoose? s.queue with
  | none =>
    rw [drainFrom_of_none hn]
    exact hh.dequeue fun h => by simp
  | some next =>
    obtain ⟨h, frame, rest⟩ := next
    obtain ⟨hl, hsuffix⟩ := nextLoose?_eq_some hn
    have hcount := fun g => hsuffix.sublist.count_le g
    have hmem := hcount h
    have howned := hh.accounted.owned h
    rw [List.count_cons_self] at hmem
    have hlt : ({ s with queue := rest }.free h.index frame).arena.occupied < s.arena.occupied :=
      Arena.occupied_vacate_lt (Arena.frame?_of_loose? hl)
    have hrest : ({ s with queue := rest } : Store).Healthy extra held acts := by
      refine hh.dequeue fun g => ?_
      have hle := hcount g
      rw [List.count_cons] at hle
      omega
    rw [drainFrom_of_some hn]
    refine Healthy.drainFrom (Healthy.free (s := { s with queue := rest }) (l := []) hl hrest
      (by simp) (fun a ha hah => ?_) ?_ hpins) hpins (freed + 1)
    · have hpos := List.count_pos_iff.2 (List.mem_map_of_mem (f := Activation.frame) ha)
      rw [hah] at hpos
      omega
    · dsimp only
      omega
termination_by s.arena.occupied

theorem Healthy.drain (hh : s.Healthy extra held acts) (hpins : Pinned held acts) :
    s.drain.2.Healthy extra held acts :=
  hh.drainFrom hpins 0

/-! ## Collecting -/

theorem accounted_sweepSlot {entered : List Handle} {ids : List ObjectId} (marks : Marks)
    (ha : s.Accounted ids entered) (i : Nat) : (sweepSlot marks s i).Accounted ids entered := by
  unfold sweepSlot
  split
  · next generation frame hs _ =>
    split
    · exact ha.free (h := ⟨i, generation⟩) (Arena.frame?_eq_some_iff.2 hs)
    · exact ha
  · exact ha

theorem within_sweepSlot (marks : Marks) (s : Store) (i : Nat) :
    (sweepSlot marks s i).heap.Within s.heap := by
  unfold sweepSlot
  split
  · split
    · exact Heap.within_discard _ _ _
    · exact Heap.Within.refl _
  · exact Heap.Within.refl _

theorem accounted_sweep {entered : List Handle} {ids : List ObjectId} (marks : Marks)
    (slots : List Nat) (ha : s.Accounted ids entered) :
    (slots.foldl (sweepSlot marks) s).Accounted ids entered := by
  induction slots generalizing s with
  | nil => exact ha
  | cons i rest ih => exact ih (accounted_sweepSlot marks ha i)

theorem within_sweep (marks : Marks) (slots : List Nat) (s : Store) :
    (slots.foldl (sweepSlot marks) s).heap.Within s.heap := by
  induction slots generalizing s with
  | nil => exact Heap.Within.refl _
  | cons i rest ih => exact (ih (sweepSlot marks s i)).trans (within_sweepSlot marks s i)

theorem accounted_collect {entered : List Handle} {ids : List ObjectId} (roots : List Handle)
    (ha : s.Accounted ids entered) : (s.collect roots).2.Accounted ids entered := by
  have hsweep := accounted_sweep (s.reachable roots) (List.range s.arena.slots.size) ha
  exact ⟨hsweep.counted, hsweep.owned, hsweep.issued, hsweep.recycles.nodup, hsweep.recycles.vacant⟩

theorem within_collect (s : Store) (roots : List Handle) :
    (s.collect roots).2.heap.Within s.heap :=
  within_sweep _ _ _

/-- Without anything held, what can be got at after a collection is what was reached. -/
theorem reaches_of_accessible {roots : List Handle} (hh : s.Healthy extra [] [])
    (hr : s.arena.reclaims = true) {v : Value} (hv : (s.collect roots).2.Accessible [] v) :
    s.Accessible [] v ∧ s.Reaches roots (.value v) := by
  have hkept : ∀ h f, (s.collect roots).2.arena.frame? h = some f →
      s.arena.frame? h = some f ∧ s.Reaches roots (.frame h) := by
    intro h f hf
    by_cases hreach : s.Reaches roots (.frame h)
    · exact ⟨((frame?_collect hr h).1 hreach).symm.trans hf, hreach⟩
    · rw [(frame?_collect hr h).2 hreach] at hf
      cases hf
  induction hv with
  | held h => cases h
  | bound hf hv =>
    obtain ⟨hf, hreach⟩ := hkept _ _ hf
    exact ⟨.bound hf hv, .binding hreach hf hv⟩
  | @inside v id p w _ hid hp hw ih =>
    have hp := (within_collect s roots).payload id p hp
    refine ⟨.inside ih.1 hid hp hw, ?_⟩
    have hobject : s.Reaches roots (.object id) := by
      cases v with
      | function f =>
        -- the binding of a method has nothing inside
        obtain ⟨stamp, decl, closure, isInitializer, binding⟩ := f
        cases hid
        have hsupported := (hh.intact.supported _ ih.1).1
        rw [hp] at hsupported
        cases hsupported
        cases hw
      | «instance» _ | array _ | arrayMethod _ _ => exact .shared ih.2 hid
      | _ => cases hid
    cases p with
    | «instance» parent fields =>
      obtain rfl | hw := List.mem_cons.1 hw
      · exact .parent hobject hp
      · exact .field hobject hp hw
    | array elements => exact .element hobject hp (Array.mem_toList_iff.1 hw)
    | binding h => cases hw

theorem Healthy.collect_of_reclaims (hh : s.Healthy extra [] []) (hr : s.arena.reclaims = true)
    (roots : List Handle) : (s.collect roots).2.Healthy extra [] [] := by
  have ha := accounted_collect roots hh.accounted
  have hstays : ∀ h, s.Reaches roots (.frame h) →
      (s.collect roots).2.arena.frame? h = s.arena.frame? h :=
    fun h => (frame?_collect hr h).1
  have hkept : ∀ h f, (s.collect roots).2.arena.frame? h = some f →
      s.arena.frame? h = some f ∧ s.Reaches roots (.frame h) := by
    intro h f hf
    by_cases hreach : s.Reaches roots (.frame h)
    · exact ⟨(hstays h hreach).symm.trans hf, hreach⟩
    · rw [(frame?_collect hr h).2 hreach] at hf
      cases hf
  have hcontains : ∀ h, s.Reaches roots (.frame h) → s.arena.contains h = true →
      (s.collect roots).2.arena.contains h = true := by
    intro h hreach hc
    rw [Arena.contains, hstays h hreach]
    exact hc
  have hcaptured : ∀ h, s.Reaches roots (.frame h) → s.arena.Captured h →
      (s.collect roots).2.arena.Captured h := by
    intro h hreach hc
    obtain ⟨f, hf, hc⟩ := hc
    exact ⟨f, (hstays h hreach).trans hf, hc⟩
  refine ⟨ha, ?_, fun h f e hf he => ?_, fun h f e hf hc he => ?_, fun h f e _ hf he => ?_,
    List.forall_mem_nil _, fun a outer hs => ?_, fun v hv => ?_⟩
  · obtain ⟨f, hf, hc, he⟩ := hh.intact.globals
    exact ⟨f, (hstays _ .globals).trans hf, hc, he⟩
  · obtain ⟨hf, hreach⟩ := hkept h f hf
    exact hcontains e (.enclosing hreach hf he) (hh.intact.live h f e hf he)
  · obtain ⟨hf, hreach⟩ := hkept h f hf
    exact hcaptured e (.enclosing hreach hf he) (hh.intact.closed h f e hf hc he)
  · obtain ⟨hf, hreach⟩ := hkept h f hf
    obtain hc | ⟨a, ha, -⟩ := hh.intact.active h f e hr hf he
    · exact .inl (hcaptured e (.enclosing hreach hf he) hc)
    · cases ha
  · have hnil := hs.length_le
    simp at hnil
  · obtain ⟨hacc, hreach⟩ := reaches_of_accessible hh hr hv
    have hsupported := hh.intact.supported v hacc
    cases v with
    | function f =>
      obtain ⟨stamp, decl, closure, isInitializer, binding⟩ := f
      have hclosure : s.Reaches roots (.frame closure) := .closure hreach
      cases binding with
      | none => exact hcaptured closure hclosure hsupported
      | some id =>
        obtain ⟨object, ho⟩ := ha.find?_of_accessible (fun _ h => List.mem_append_right _ h) hv rfl
        exact ⟨(within_collect s roots).payload_of_find? ho hsupported.1,
          hcontains closure hclosure hsupported.2⟩
    | classObject c =>
      exact fun h hh => hcaptured h (Reaches.of_mem_closures hh hreach) (hsupported h hh)
    | _ => trivial

theorem sweepSlot_of_not_reclaims (marks : Marks) (hr : s.arena.reclaims = false) (i : Nat) :
    sweepSlot marks s i = s := by
  unfold sweepSlot
  rw [hr]
  split <;> rfl

theorem sweep_of_not_reclaims (marks : Marks) (hr : s.arena.reclaims = false) (slots : List Nat) :
    slots.foldl (sweepSlot marks) s = s := by
  induction slots with
  | nil => rfl
  | cons i rest ih => rw [List.foldl_cons, sweepSlot_of_not_reclaims marks hr, ih]

/-- A store that frees nothing just sets the size of the next collection. -/
theorem collect_of_not_reclaims (hr : s.arena.reclaims = false) (roots : List Handle) :
    (s.collect roots).2 =
      { s with arena := { s.arena with nextCollection := max (s.live * 2) leastCollection } } := by
  unfold collect
  rw [sweep_of_not_reclaims _ hr]

theorem Healthy.collect (hh : s.Healthy extra [] []) (roots : List Handle) :
    (s.collect roots).2.Healthy extra [] [] := by
  cases hr : s.arena.reclaims with
  | true => exact hh.collect_of_reclaims hr roots
  | false =>
    have ha := accounted_collect roots hh.accounted
    rw [collect_of_not_reclaims hr] at ha ⊢
    refine ⟨ha, hh.intact.of_alike ⟨rfl, fun _ => rfl⟩ fun w hw => ?_⟩
    have hacc : s.Accessible [] w := hw.of_within (fun h f hf w hw => .bound hf hw)
      (fun id p hp v hid hv w hw => .inside hv hid hp hw) fun w hw => .held hw
    exact (hh.intact.supported w hacc).of_alike ⟨rfl, fun _ => rfl⟩ fun _ _ _ hp => hp

end Lox.Store
