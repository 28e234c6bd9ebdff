import Lox.Store

/-!
# Tracing collection

Marks every frame that can be reached from the global frame and the given roots and frees the
rest. Cycles of closures and instances are only ever freed here.
-/
namespace Lox

/-- What tracing walks over. -/
inductive Node where
  | frame (h : Handle)
  | object (id : ObjectId)
  deriving DecidableEq, Repr

/-- The nodes that a value refers to. -/
def Value.nodes : Value → List Node
  | .function f => [.frame f.closure]
  | .classObject c => c.closures.map .frame
  | .instance id | .array id | .arrayMethod id _ => [.object id]
  | _ => []

def Frame.nodes (f : Frame) : List Node :=
  (f.enclosing.map Node.frame).toList ++ f.bindings.values.flatMap Value.nodes

def Payload.nodes : Payload → List Node
  | .instance parent fields =>
    parent.closures.map .frame ++ fields.values.flatMap Value.nodes
  | .array elements => elements.foldr (fun v nodes => v.nodes ++ nodes) []
  | .binding _ => []

/-- Which slots and which objects have been visited. -/
structure Marks where
  frames : Array Bool
  objects : Array Bool

def Marks.unvisited (m : Marks) : Nat := m.frames.countP (!·) + m.objects.countP (!·)

namespace Store

/-- Marks a node that has not been visited and gives the nodes that it refers to. -/
def visit? (s : Store) (m : Marks) : Node → Option (Marks × List Node)
  | .frame h =>
    match s.arena.frame? h, m.frames[h.index]? with
    | some frame, some false =>
      some ({ m with frames := m.frames.setIfInBounds h.index true }, frame.nodes)
    | _, _ => none
  | .object id =>
    match s.heap.payload? id, m.objects[id]? with
    | some payload, some false =>
      some ({ m with objects := m.objects.setIfInBounds id true }, payload.nodes)
    | _, _ => none

/-- Visits the first node on the list that has not been visited, and puts those that it refers to
in its place. -/
def visitNext? (s : Store) (m : Marks) : List Node → Option (Marks × List Node)
  | [] => none
  | node :: rest =>
    match s.visit? m node with
    | some (m, found) => some (m, found ++ rest)
    | none => s.visitNext? m rest

theorem unvisited_visit?_lt {s : Store} {m after : Marks} {node : Node} {found : List Node}
    (h : s.visit? m node = some (after, found)) : after.unvisited < m.unvisited := by
  unfold visit? at h
  split at h
  · split at h
    · next hm =>
      cases h
      exact Nat.add_lt_add_right (countP_setIfInBounds_lt hm rfl rfl) _
    · cases h
  · split at h
    · next hm =>
      cases h
      exact Nat.add_lt_add_left (countP_setIfInBounds_lt hm rfl rfl) _
    · cases h

theorem unvisited_visitNext?_lt {s : Store} {m after : Marks} {nodes found : List Node}
    (h : s.visitNext? m nodes = some (after, found)) : after.unvisited < m.unvisited := by
  induction nodes with
  | nil => cases h
  | cons node rest ih =>
    rw [visitNext?] at h
    cases hv : s.visit? m node with
    | none => rw [hv] at h; exact ih h
    | some visited =>
      rw [hv] at h
      cases h
      exact unvisited_visit?_lt hv

/-- Visits the nodes on the list and all that they lead to. -/
def trace (s : Store) (m : Marks) (nodes : List Node) : Marks :=
  match h : s.visitNext? m nodes with
  | some (after, found) =>
    have := unvisited_visitNext?_lt h
    s.trace after found
  | none => m
termination_by m.unvisited

/-- Everything that can be reached from the global frame and the roots. -/
def reachable (s : Store) (roots : List Handle) : Marks :=
  let unmarked : Marks :=
    ⟨Array.replicate s.arena.slots.size false, Array.replicate s.heap.objects.size false⟩
  s.trace unmarked ((Handle.globals :: roots).map .frame)

/-- Frees the frame in a slot, captured or not, unless it is marked. -/
def sweepSlot (marks : Marks) (s : Store) (index : Nat) : Store :=
  match s.arena.slots[index]?, marks.frames[index]? with
  | some (.occupied _ frame), some false => if s.arena.reclaims then s.free index frame else s
  | _, _ => s

/-- Frees every frame that cannot be reached and says how many these were. The next collection is
due when the number of frames has doubled. -/
def collect (s : Store) (roots : List Handle) : Nat × Store :=
  let swept := (List.range s.arena.slots.size).foldl (sweepSlot (s.reachable roots)) s
  let next := max (swept.live * 2) leastCollection
  (s.live - swept.live, { swept with arena := { swept.arena with nextCollection := next } })

end Store
end Lox
