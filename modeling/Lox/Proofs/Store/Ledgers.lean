import Lox.Proofs.Store.Operations
import Lox.Proofs.Store.Generations

/-!
# Everything that can be done to an arena

A ledger is a store with the handles that it has given out. Operations come in any order and take any
handles, fresh or stale; only the frame that encloses a new one must have been given out before,
since handles cannot be made up. What happens to objects in between is left open.

All handles are those of one arena: nothing tells a handle of another arena apart from one of its own,
and what such a handle finds is out of scope. Slots and generations are numbered without a bound. In
words of 32 bits the numbers are the same as long as there are fewer than `2 ^ 32` slots and none of
them has been freed `2 ^ 32` times.
-/
namespace Lox

inductive Operation where
  | create (enclosing : Handle)
  | define (h : Handle) (name : String) (v : Value)
  | assign (h : Handle) (name : String) (v : Value)
  | assignAt (h : Handle) (distance : Nat) (name : String) (v : Value)
  | capture (h : Handle)
  | release (h : Handle)
  | guard (f : Function) (frame : Handle)
  /-- The guard of a frame is dropped. -/
  | unguard (frame : Handle)
  | drain
  | collect (roots : List Handle)
  /-- Objects are made, changed and dropped in any way. Guards that go with them are dropped by
  `unguard`. -/
  | objects (heap : Heap)

/-- A store and the handles of its arena. -/
structure Ledger where
  store : Store
  /-- The handles that the arena has given out, the newest first. -/
  handles : List Handle

namespace Ledger

/-- Only the global frame has been made. -/
def start : Ledger := ⟨Store.empty, [.globals]⟩

def arena (l : Ledger) : Arena := l.store.arena

def perform (l : Ledger) (op : Operation) : Ledger :=
  match op with
  | .create e =>
    if e ∈ l.handles then
      let (h, store) := l.store.create e
      ⟨store, h :: l.handles⟩
    else l
  | .define h name v => { l with store := l.store.define h name v }
  | .assign h name v => { l with store := (l.store.assign h name v).2 }
  | .assignAt h distance name v => { l with store := (l.store.assignAt h distance name v).2 }
  | .capture h => { l with store := l.store.capture h }
  | .release h => { l with store := (l.store.release h).2 }
  | .guard f frame => { l with store := (l.store.guard f frame).2 }
  | .unguard frame => { l with store := l.store.enqueue frame }
  | .drain => { l with store := l.store.drain.2 }
  | .collect roots => { l with store := (l.store.collect roots).2 }
  | .objects heap => { l with store := { l.store with heap := heap } }

def run (l : Ledger) (ops : List Operation) : Ledger := ops.foldl perform l

/-- How often a slot had a frame before an operation and none after it. -/
def timesFreed (l : Ledger) (ops : List Operation) (i : Nat) : Nat :=
  match ops with
  | [] => 0
  | op :: rest =>
    (if l.arena.isFreed (l.perform op).arena i then 1 else 0) + (l.perform op).timesFreed rest i

/-! ## What one operation does -/

/-- What every operation keeps. -/
structure Sound (l : Ledger) : Prop where
  wellFormed : l.arena.WellFormed
  linked : l.arena.Linked
  issued : ∀ h ∈ l.handles, l.arena.Issued h
  nodup : l.handles.Nodup

variable {l : Ledger} {b : Arena} {h : Handle}

theorem sound_start : start.Sound := by
  refine ⟨Arena.wellFormed_new, Arena.linked_new, fun h hh => ?_, List.pairwise_singleton _ _⟩
  obtain ⟨f, hf, -⟩ := Arena.wellFormed_new.globals
  rw [List.mem_singleton.1 hh]
  exact Arena.issued_of_frame? hf

/-- A frame is made inside of one that was made before, or no handle is given out. -/
theorem perform_cases (hs : l.Sound) (op : Operation) :
    (∃ e ∈ l.handles, op = .create e ∧
      l.perform op = ⟨(l.store.create e).2, (l.store.create e).1 :: l.handles⟩) ∨
    (l.perform op).handles = l.handles ∧ l.arena.Moves (l.perform op).arena := by
  cases op with
  | create e =>
    by_cases he : e ∈ l.handles
    · exact .inl ⟨e, he, rfl, if_pos he⟩
    · rw [show l.perform (.create e) = l from if_neg he]
      exact .inr ⟨rfl, .same⟩
  | define h name v => exact .inr ⟨rfl, Store.moves_define l.store h name v⟩
  | assign h name v => exact .inr ⟨rfl, Store.moves_assign l.store h name v⟩
  | assignAt h distance name v => exact .inr ⟨rfl, Store.moves_assignAt l.store h distance name v⟩
  | capture h => exact .inr ⟨rfl, .capture h⟩
  | release h => exact .inr ⟨rfl, Store.moves_release hs.wellFormed h⟩
  | guard f frame => exact .inr ⟨rfl, .same⟩
  | unguard frame => exact .inr ⟨rfl, .same⟩
  | drain => exact .inr ⟨rfl, Store.moves_drain hs.wellFormed⟩
  | collect roots => exact .inr ⟨rfl, Store.moves_collect hs.wellFormed roots⟩
  | objects heap => exact .inr ⟨rfl, .same⟩

theorem Sound.perform (hs : l.Sound) (op : Operation) : (l.perform op).Sound := by
  obtain ⟨e, he, -, hp⟩ | ⟨hh, hm⟩ := perform_cases hs op
  · have hr := hs.wellFormed.recycles
    have hnew := Arena.not_issued_create hr e
    rw [hp]
    refine ⟨Arena.wellFormed_create hs.wellFormed hs.linked e,
      Arena.linked_create hs.wellFormed.toTidy hs.linked (hs.issued e he), fun h hh => ?_, ?_⟩
    · exact Arena.issued_create hr e ((List.mem_cons.1 hh).imp_right (hs.issued h))
    · exact List.nodup_cons.2 ⟨fun hmem => hnew (hs.issued _ hmem), hs.nodup⟩
  · refine ⟨hm.wellFormed hs.wellFormed, hm.linked hs.linked, fun h hmem => ?_, hh ▸ hs.nodup⟩
    rw [hh] at hmem
    exact hm.issued (hs.issued h hmem)

theorem counts_perform (hs : l.Sound) (op : Operation) : l.arena.Counts (l.perform op).arena := by
  obtain ⟨e, -, -, hp⟩ | ⟨-, hm⟩ := perform_cases hs op
  · rw [hp]
    exact Arena.counts_create hs.wellFormed.toTidy e
  · exact hm.counts

/-! ## What a history does -/

theorem Sound.run (hs : l.Sound) (ops : List Operation) : (l.run ops).Sound := by
  induction ops generalizing l with
  | nil => exact hs
  | cons op rest ih => exact ih (hs.perform op)

theorem generation_run (hs : l.Sound) (ops : List Operation) (i : Nat) :
    (l.run ops).arena.generation i = l.arena.generation i + l.timesFreed ops i := by
  induction ops generalizing l with
  | nil => rfl
  | cons op rest ih =>
    have hone := counts_perform hs op i
    have hrest := ih (hs.perform op)
    unfold timesFreed
    change ((l.perform op).run rest).arena.generation i = _
    omega

theorem outdated_run (hs : l.Sound) (ho : l.arena.Outdated h) (ops : List Operation) :
    (l.run ops).arena.Outdated h := by
  have hgrow := generation_run hs ops h.index
  unfold Arena.Outdated at ho ⊢
  omega

/-- After any history the free list names the vacant slots, each once; the live frames are counted
and are never none; the first slot holds the global frame; and what encloses a captured frame is gone
or captured. A generation is the number of times the slot was freed, so 32 bits hold it until
a slot is freed `2 ^ 32` times. -/
theorem wellFormed_run (ops : List Operation) :
    (start.run ops).arena.WellFormed ∧ 1 ≤ (start.run ops).arena.live ∧
      ∀ i, (start.run ops).arena.generation i = start.timesFreed ops i := by
  have hs := sound_start.run ops
  refine ⟨hs.wellFormed, hs.wellFormed.one_le_live, fun i => ?_⟩
  have hzero : start.arena.generation i = 0 := by
    cases i <;> rfl
  rw [generation_run sound_start, hzero, Nat.zero_add]

/-- No handle is given out twice, whatever the history, and once a handle that was given out finds
no frame, nothing that happens later makes it find one again. The generation in a handle is at most
the number of times its slot was freed. -/
theorem stale_run (ops : List Operation) :
    (start.run ops).handles.Nodup ∧
      ∀ h ∈ (start.run ops).handles, h.generation ≤ start.timesFreed ops h.index ∧
        ((start.run ops).arena.contains h = false →
          ∀ later, ((start.run ops).run later).store.Stale h) := by
  have hs := sound_start.run ops
  refine ⟨hs.nodup, fun h hh => ⟨?_, fun hc later => ?_⟩⟩
  · have hzero : start.arena.generation h.index = 0 := by
      cases h.index <;> rfl
    have hcount := generation_run sound_start ops h.index
    have hle := (hs.issued h hh).le_generation
    omega
  · exact Store.stale_of_frame? (outdated_run hs ((hs.issued h hh).outdated hc) later).frame?

/-- The slot of the freed frame is used again, and the old handle stays stale. -/
theorem stale_run_reused :
    let freed := start.run [.create .globals, .release ⟨1, 0⟩]
    let reused := freed.run [.create .globals]
    ⟨1, 0⟩ ∈ freed.handles ∧ freed.arena.contains ⟨1, 0⟩ = false ∧
      reused.arena.contains ⟨1, 1⟩ = true ∧ reused.store.Stale ⟨1, 0⟩ := by
  have hgiven : (⟨1, 0⟩ : Handle) ∈ (start.run [.create .globals, .release ⟨1, 0⟩]).handles := by
    decide +kernel
  have hfreed : (start.run [.create .globals, .release ⟨1, 0⟩]).arena.contains ⟨1, 0⟩ = false := by
    decide +kernel
  have hstale := ((stale_run [.create .globals, .release ⟨1, 0⟩]).2 ⟨1, 0⟩ hgiven).2 hfreed
  exact ⟨hgiven, hfreed, by decide +kernel, hstale [.create .globals]⟩

end Ledger
end Lox
