import Lox.Store.Objects

/-!
# The store

Frames and objects together, with the queue of frames whose owners are gone. Whoever holds a value
holds one reference to its object: `retain` is called when a value is copied and `discard` when a
copy is dropped.
-/
namespace Lox

structure Store where
  arena : Arena
  heap : Heap
  /-- Frames to be released at the next drain. -/
  queue : List Handle

namespace Store

def empty : Store := ⟨Arena.new, Heap.empty, []⟩

def live (s : Store) : Nat := s.arena.live

/-! ## References -/

def retain (s : Store) (v : Value) : Store :=
  match v.object? with
  | some id => { s with heap := s.heap.retain id }
  | none => s

def discardObjects (s : Store) (ids : List ObjectId) : Store :=
  let (heap, queue) := s.heap.discard s.queue ids
  { s with heap := heap, queue := queue }

def discard (s : Store) (v : Value) : Store :=
  match v.object? with
  | some id => s.discardObjects [id]
  | none => s

def discardAll (s : Store) (values : List Value) : Store := s.discardObjects (Value.objects values)

/-- Gives up the guard of a frame: it is freed at the next drain if nothing has captured it. -/
def enqueue (s : Store) (h : Handle) : Store := { s with queue := h :: s.queue }

/-! ## Frames -/

def create (s : Store) (enclosing : Handle) : Handle × Store :=
  let (h, arena) := s.arena.create enclosing
  (h, { s with arena := arena })

def capture (s : Store) (h : Handle) : Store := { s with arena := s.arena.capture h }

/-- Binds a name in a frame, which takes the value over. A stale handle binds nothing. -/
def define (s : Store) (h : Handle) (name : String) (v : Value) : Store :=
  match s.arena.frame? h with
  | none => s.discard v
  | some frame =>
    let arena := s.arena.modifySlot h.index fun f => { f with bindings := f.bindings.insert name v }
    let s := { s with arena := arena }
    match frame.bindings.find? name with
    | some old => s.discard old
    | none => s

/-- Overwrites a binding if the frame has it. The value is taken over either way. -/
def assign (s : Store) (h : Handle) (name : String) (v : Value) : Bool × Store :=
  match s.arena.find? h name with
  | some _ => (true, s.define h name v)
  | none => (false, s.discard v)

def assignAt (s : Store) (h : Handle) (distance : Nat) (name : String) (v : Value) :
    Bool × Store :=
  match s.arena.ancestor? h distance with
  | some outer => s.assign outer name v
  | none => (false, s.discard v)

/-- Frees the frame in a slot and drops what it binds. -/
def free (s : Store) (index : Nat) (frame : Frame) : Store :=
  { s with arena := s.arena.vacate index }.discardAll frame.bindings.values

theorem arena_free (s : Store) (index : Nat) (frame : Frame) :
    (s.free index frame).arena = s.arena.vacate index := rfl

/-- Frees a frame that no closure refers to, and says whether it did. -/
def release (s : Store) (h : Handle) : Bool × Store :=
  match s.arena.loose? h with
  | some frame => (true, s.free h.index frame)
  | none => (false, s)

/-- Releases queued frames until the queue stays empty; freeing a frame can queue others. Adds the
number of frames freed to `freed`. -/
def drainFrom (freed : Nat) (s : Store) : Nat × Store :=
  match h : s.arena.nextLoose? s.queue with
  | some (next, frame, rest) =>
    have : ({ s with queue := rest }.free next.index frame).arena.occupied < s.arena.occupied :=
      Arena.occupied_vacate_lt (Arena.frame?_of_nextLoose? h)
    drainFrom (freed + 1) ({ s with queue := rest }.free next.index frame)
  | none => (freed, { s with queue := [] })
termination_by s.arena.occupied

def drain (s : Store) : Nat × Store := s.drainFrom 0

/-! ## Functions, classes and objects -/

/-- A function that closes over `closure`. -/
def closeOver (s : Store) (decl : FunctionDecl) (closure : Handle) (isInitializer : Bool) :
    Function × Store :=
  let (stamp, heap) := s.heap.stamp
  (⟨stamp, decl, closure, isInitializer, none⟩, { s with heap := heap })

def makeClass (s : Store) (name : String) (superclass : Option Class)
    (methods : Bindings Function) : Class × Store :=
  let (stamp, heap) := s.heap.stamp
  (⟨stamp, name, superclass, methods⟩, { s with heap := heap })

def allocate (s : Store) (payload : Payload) : ObjectId × Store :=
  let (id, heap) := s.heap.allocate payload
  (id, { s with heap := heap })

/-- A copy of `f` that closes over `frame` and owns it. -/
def guard (s : Store) (f : Function) (frame : Handle) : Function × Store :=
  let (id, s) := s.allocate (.binding frame)
  ({ f with closure := frame, binding := some id }, s)

/-- `method` bound to an instance: `this` is bound in a new frame, which the result owns. -/
def bind (s : Store) (method : Function) (receiver : Value) : Function × Store :=
  let (frame, s) := s.create method.closure
  let s := (s.retain receiver).define frame "this" receiver
  s.guard method frame

def parent? (s : Store) (id : ObjectId) : Option Class :=
  match s.heap.payload? id with
  | some (.instance parent _) => some parent
  | _ => none

def field? (s : Store) (id : ObjectId) (name : String) : Option Value :=
  match s.heap.payload? id with
  | some (.instance _ fields) => fields.find? name
  | _ => none

/-- Sets a field of an instance, which takes the value over. -/
def setField (s : Store) (id : ObjectId) (name : String) (v : Value) : Store :=
  let old := s.field? id name
  let heap := s.heap.modify id fun
    | .instance parent fields => .instance parent (fields.insert name v)
    | payload => payload
  let s := { s with heap := heap }
  match old with
  | some old => s.discard old
  | none => s

/-! ## Arrays -/

def elements? (s : Store) (id : ObjectId) : Option (Array Value) :=
  match s.heap.payload? id with
  | some (.array elements) => some elements
  | _ => none

def length (s : Store) (id : ObjectId) : Nat :=
  match s.elements? id with
  | some elements => elements.size
  | none => 0

/-- The element that an index names. Only a whole number from zero up to the length names one. -/
def slot? (s : Store) (id : ObjectId) (index : Value) : Option Nat :=
  match index with
  | .number x => (Number.toNat? x).filter (· < s.length id)
  | _ => none

/-- What stands at an index, `nil` if the index names no element. -/
def element (s : Store) (id : ObjectId) (index : Value) : Value :=
  match s.slot? id index with
  | some i => ((s.elements? id).bind (·[i]?)).getD .nil
  | none => .nil

/-- Stores a value at an index and gives it back. An index that names no element stores
nothing and gives `nil`. The array has a reference of its own to what it stores. -/
def setElement (s : Store) (id : ObjectId) (index v : Value) : Value × Store :=
  match s.slot? id index with
  | some i =>
    let old := ((s.elements? id).bind (·[i]?)).getD .nil
    let s := s.retain v
    let heap := s.heap.modify id fun
      | .array elements => .array (elements.setIfInBounds i v)
      | payload => payload
    (v, { s with heap := heap }.discard old)
  | none => (.nil, s)

end Store
end Lox
