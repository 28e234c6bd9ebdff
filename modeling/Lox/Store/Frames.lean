import Lox.Value

/-!
# Frames

Scopes at run time are frames in numbered slots. A handle names a slot and the generation of its
occupant; it goes stale when the frame is freed, and reading through a stale handle finds nothing.
Handles own nothing: cycles of frames and closures keep no memory alive by themselves.
-/
namespace Lox

structure Frame where
  bindings : Bindings Value
  enclosing : Option Handle
  /-- Set once a closure, or a frame below one, refers to the frame. -/
  captured : Bool

inductive Slot where
  | occupied (generation : Nat) (frame : Frame)
  | vacant (generation : Nat)

def Slot.isOccupied : Slot → Bool
  | occupied .. => true
  | vacant _ => false

/-- Is there a frame in the slot that no closure refers to? -/
def Slot.isLoose : Slot → Bool
  | occupied _ frame => !frame.captured
  | vacant _ => false

/-- With fewer frames than this tracing is never worthwhile. -/
def leastCollection : Nat := 1024

/-- Frames are freed only if `reclaims` is set; without it the arena just grows. -/
structure Arena where
  slots : Array Slot
  free : List Nat
  live : Nat
  nextCollection : Nat
  reclaims : Bool

theorem countP_setIfInBounds_lt {α : Type} {p : α → Bool} {items : Array α} {i : Nat} {old new : α}
    (h : items[i]? = some old) (hold : p old = true) (hnew : p new = false) :
    (items.setIfInBounds i new).countP p < items.countP p := by
  obtain ⟨hi, rfl⟩ := Array.getElem?_eq_some_iff.1 h
  have hpos : 0 < items.countP p :=
    Array.countP_pos_iff.2 ⟨items[i], Array.getElem_mem hi, hold⟩
  rw [Array.setIfInBounds_def, dif_pos hi, Array.countP_set]
  simp only [hold, hnew, if_true, Bool.false_eq_true, if_false]
  omega

namespace Arena

/-- The global frame alone. -/
def new : Arena where
  slots := #[.occupied 0 ⟨Bindings.empty, none, true⟩]
  free := []
  live := 1
  nextCollection := leastCollection
  reclaims := true

def frame? (a : Arena) (h : Handle) : Option Frame :=
  match a.slots[h.index]? with
  | some (.occupied generation frame) => if generation = h.generation then some frame else none
  | _ => none

def contains (a : Arena) (h : Handle) : Bool := (a.frame? h).isSome

/-- The frame, if it may be freed as soon as nothing runs in it. -/
def loose? (a : Arena) (h : Handle) : Option Frame :=
  (a.frame? h).filter fun frame => a.reclaims && !frame.captured

/-- The first of some handles that can be freed, with its frame, and the handles after it. -/
def nextLoose? (a : Arena) : List Handle → Option (Handle × Frame × List Handle)
  | [] => none
  | h :: rest =>
    match a.loose? h with
    | some frame => some (h, frame, rest)
    | none => nextLoose? a rest

/-- Changes the frame in a slot, whatever its generation. -/
def modifySlot (a : Arena) (index : Nat) (f : Frame → Frame) : Arena :=
  { a with slots := a.slots.modify index fun
      | .occupied generation frame => .occupied generation (f frame)
      | slot => slot }

/-- Adds an empty frame inside `enclosing`, in the slot that was freed last if there is one. -/
def create (a : Arena) (enclosing : Handle) : Handle × Arena :=
  let frame : Frame := ⟨Bindings.empty, some enclosing, false⟩
  match a.free with
  | index :: free =>
    let generation := match a.slots[index]? with
      | some (.vacant generation) => generation
      | some (.occupied generation _) => generation + 1
      | none => 0
    (⟨index, generation⟩, { a with
      slots := a.slots.setIfInBounds index (.occupied generation frame)
      free := free
      live := a.live + 1 })
  | [] =>
    (⟨a.slots.size, 0⟩, { a with
      slots := a.slots.push (.occupied 0 frame)
      live := a.live + 1 })

/-- Empties a slot. -/
def vacate (a : Arena) (index : Nat) : Arena :=
  match a.slots[index]? with
  | some (.occupied generation _) => { a with
      slots := a.slots.setIfInBounds index (.vacant (generation + 1))
      free := index :: a.free
      live := a.live - 1 }
  | _ => a

/-- The frame that lies `distance` links outside of `h`. -/
def ancestor? (a : Arena) (h : Handle) : Nat → Option Handle
  | 0 => if a.contains h then some h else none
  | distance + 1 =>
    match a.frame? h with
    | some frame =>
      match frame.enclosing with
      | some outer => a.ancestor? outer distance
      | none => none
    | none => none

def find? (a : Arena) (h : Handle) (name : String) : Option Value :=
  (a.frame? h).bind fun frame => frame.bindings.find? name

def findAt? (a : Arena) (h : Handle) (distance : Nat) (name : String) : Option Value :=
  (a.ancestor? h distance).bind fun outer => a.find? outer name

/-- The names bound in a frame, none for a stale handle. -/
def names (a : Arena) (h : Handle) : List String :=
  match a.frame? h with
  | some frame => frame.bindings.names
  | none => []

def occupied (a : Arena) : Nat := a.slots.countP Slot.isOccupied

def loose (a : Arena) : Nat := a.slots.countP Slot.isLoose

theorem occupied_vacate_lt {a : Arena} {h : Handle} {frame : Frame} (hf : a.frame? h = some frame) :
    (a.vacate h.index).occupied < a.occupied := by
  unfold frame? at hf
  split at hf
  · next generation f hs =>
    simp only [vacate, hs]
    exact countP_setIfInBounds_lt hs rfl rfl
  · cases hf

theorem frame?_of_loose? {a : Arena} {h : Handle} {frame : Frame}
    (hl : a.loose? h = some frame) : a.frame? h = some frame :=
  (Option.filter_eq_some_iff.1 hl).1

theorem frame?_of_nextLoose? {a : Arena} {queue rest : List Handle} {h : Handle} {frame : Frame}
    (hn : a.nextLoose? queue = some (h, frame, rest)) : a.frame? h = some frame := by
  induction queue with
  | nil => cases hn
  | cons first queue ih =>
    rw [nextLoose?] at hn
    cases hl : a.loose? first with
    | none => rw [hl] at hn; exact ih hn
    | some found =>
      rw [hl] at hn
      cases hn
      exact frame?_of_loose? hl

/-- A closure refers to `h`: the frame and all that enclose it outlive the block that made them.
Frames around a captured frame are captured already. -/
def capture (a : Arena) (h : Handle) : Arena :=
  match hs : a.slots[h.index]? with
  | some (.occupied generation frame) =>
    if hc : generation = h.generation ∧ frame.captured = false then
      let marked := Slot.occupied generation { frame with captured := true }
      have : (a.slots.setIfInBounds h.index marked).countP Slot.isLoose < a.loose :=
        countP_setIfInBounds_lt hs (by simp [Slot.isLoose, hc.2]) rfl
      match frame.enclosing with
      | some outer => capture { a with slots := a.slots.setIfInBounds h.index marked } outer
      | none => { a with slots := a.slots.setIfInBounds h.index marked }
    else a
  | _ => a
termination_by a.loose

/-- Has the number of frames grown enough to make tracing worthwhile? -/
def shouldCollect (a : Arena) : Bool := a.nextCollection ≤ a.live

end Arena
end Lox
