import Lox.Proofs.Relabeling.Objects
import Lox.Proofs.Store.Freeing
import Lox.Store.Display

/-!
# Relabeling stores

Every operation on a store does the same to a relabeled store. In particular frames are freed at the
same points, and values have the same text.
-/
namespace Lox

variable (ψ φ : Labels)

def Store.relabel (s : Store) : Store :=
  { s with arena := s.arena.relabel φ, heap := s.heap.relabel φ }

namespace Store

variable (s : Store) (v : Value) (h : Handle) (name : String)

theorem relabel_comp : (s.relabel φ).relabel ψ = s.relabel (ψ.comp φ) := by
  unfold relabel
  rw [Arena.relabel_comp, Heap.relabel_comp]

theorem relabel_identity : s.relabel .identity = s := by
  unfold relabel
  rw [Arena.relabel_identity, Heap.relabel_identity]

/-! ## References -/

theorem retain_relabel : (s.relabel φ).retain (v.relabel φ) = (s.retain v).relabel φ := by
  unfold retain
  rw [Value.object?_relabel]
  cases v.object? with
  | none => rfl
  | some id => exact congrArg (Store.mk _ · _) (Heap.retain_relabel φ s.heap id)

theorem discardObjects_relabel (ids : List ObjectId) :
    (s.relabel φ).discardObjects ids = (s.discardObjects ids).relabel φ :=
  congrArg (fun p : Heap × List Handle => Store.mk (s.arena.relabel φ) p.1 p.2)
    (Heap.discard_relabel φ s.heap s.queue ids)

theorem discard_relabel : (s.relabel φ).discard (v.relabel φ) = (s.discard v).relabel φ := by
  unfold discard
  rw [Value.object?_relabel]
  cases v.object? with
  | none => rfl
  | some id => exact discardObjects_relabel φ s [id]

theorem discardAll_relabel (values : List Value) :
    (s.relabel φ).discardAll (values.map (Value.relabel φ)) = (s.discardAll values).relabel φ := by
  unfold discardAll
  rw [Value.objects_relabel]
  exact discardObjects_relabel φ s _

/-! ## Frames -/

theorem create_relabel (enclosing : Handle) : (s.relabel φ).create enclosing =
    ((s.create enclosing).1, (s.create enclosing).2.relabel φ) :=
  congrArg (fun p : Handle × Arena => (p.1, Store.mk p.2 (s.heap.relabel φ) s.queue))
    (Arena.create_relabel φ s.arena enclosing)

theorem capture_relabel : (s.relabel φ).capture h = (s.capture h).relabel φ :=
  congrArg (Store.mk · _ _) (Arena.capture_relabel φ s.arena h)

theorem define_relabel :
    (s.relabel φ).define h name (v.relabel φ) = (s.define h name v).relabel φ := by
  have hframe : (s.relabel φ).arena.frame? h = (s.arena.frame? h).map (Frame.relabel φ) :=
    Arena.frame?_relabel φ s.arena h
  unfold define
  rw [hframe]
  cases s.arena.frame? h with
  | none => exact discard_relabel φ s v
  | some frame =>
    have hslot : (s.relabel φ).arena.modifySlot h.index
          (fun f => { f with bindings := f.bindings.insert name (v.relabel φ) }) =
        (s.arena.modifySlot h.index fun f =>
          { f with bindings := f.bindings.insert name v }).relabel φ :=
      Arena.modifySlot_relabel φ s.arena h.index fun f =>
        congrArg (Frame.mk · _ _) (Bindings.map_insert _ f.bindings name v)
    have hold : (frame.relabel φ).bindings.find? name =
        (frame.bindings.find? name).map (Value.relabel φ) := Bindings.find?_map _ _ _
    dsimp only [Option.map_some]
    rw [hslot, hold]
    cases frame.bindings.find? name with
    | none => rfl
    | some old => exact discard_relabel φ { s with arena := _ } old

theorem assign_relabel : (s.relabel φ).assign h name (v.relabel φ) =
    ((s.assign h name v).1, (s.assign h name v).2.relabel φ) := by
  have hfind : (s.relabel φ).arena.find? h name = (s.arena.find? h name).map (Value.relabel φ) :=
    Arena.find?_relabel φ s.arena h name
  unfold assign
  rw [hfind]
  cases s.arena.find? h name with
  | none => exact congrArg (Prod.mk false) (discard_relabel φ s v)
  | some old => exact congrArg (Prod.mk true) (define_relabel φ s v h name)

theorem assignAt_relabel (distance : Nat) : (s.relabel φ).assignAt h distance name (v.relabel φ) =
    ((s.assignAt h distance name v).1, (s.assignAt h distance name v).2.relabel φ) := by
  have hancestor : (s.relabel φ).arena.ancestor? h distance = s.arena.ancestor? h distance :=
    Arena.ancestor?_relabel φ s.arena h distance
  unfold assignAt
  rw [hancestor]
  cases s.arena.ancestor? h distance with
  | none => exact congrArg (Prod.mk false) (discard_relabel φ s v)
  | some outer => exact assign_relabel φ s v outer name

theorem free_relabel (index : Nat) (frame : Frame) :
    (s.relabel φ).free index (frame.relabel φ) = (s.free index frame).relabel φ := by
  have hvalues : (frame.relabel φ).bindings.values = frame.bindings.values.map (Value.relabel φ) :=
    Bindings.values_map _ _
  have hvacate : (s.relabel φ).arena.vacate index = (s.arena.vacate index).relabel φ :=
    Arena.vacate_relabel φ s.arena index
  unfold free
  rw [hvalues, hvacate]
  exact discardAll_relabel φ { s with arena := s.arena.vacate index } _

theorem release_relabel :
    (s.relabel φ).release h = ((s.release h).1, (s.release h).2.relabel φ) := by
  have hloose : (s.relabel φ).arena.loose? h = (s.arena.loose? h).map (Frame.relabel φ) :=
    Arena.loose?_relabel φ s.arena h
  unfold release
  rw [hloose]
  cases s.arena.loose? h with
  | none => rfl
  | some frame => exact congrArg (Prod.mk true) (free_relabel φ s h.index frame)

theorem drainFrom_relabel (freed : Nat) (s : Store) :
    (s.relabel φ).drainFrom freed = ((s.drainFrom freed).1, (s.drainFrom freed).2.relabel φ) := by
  have hnext := Arena.nextLoose?_relabel φ s.arena s.queue
  cases hn : s.arena.nextLoose? s.queue with
  | none =>
    rw [hn] at hnext
    rw [drainFrom_of_none hn, drainFrom_of_none hnext]
    rfl
  | some next =>
    obtain ⟨h, frame, rest⟩ := next
    have hlt : ({ s with queue := rest }.free h.index frame).arena.occupied < s.arena.occupied :=
      Arena.occupied_vacate_lt (Arena.frame?_of_nextLoose? hn)
    rw [hn] at hnext
    rw [drainFrom_of_some hn, drainFrom_of_some hnext, ← drainFrom_relabel (freed + 1)]
    exact congrArg (drainFrom (freed + 1)) (free_relabel φ { s with queue := rest } h.index frame)
termination_by s.arena.occupied

theorem drain_relabel : (s.relabel φ).drain = (s.drain.1, s.drain.2.relabel φ) :=
  drainFrom_relabel φ 0 s

/-! ## Functions, classes and objects -/

theorem makeClass_relabel (superclass : Option Class) (methods : Bindings Function) :
    (s.relabel φ).makeClass name (superclass.map (Class.relabel φ))
        (methods.map (Function.relabel φ)) =
      ((s.makeClass name superclass methods).1.relabel φ,
        (s.makeClass name superclass methods).2.relabel φ) := by
  cases superclass <;> rfl

theorem allocate_relabel (p : Payload) : (s.relabel φ).allocate (p.relabel φ) =
    ((s.allocate p).1, (s.allocate p).2.relabel φ) :=
  congrArg (fun q : ObjectId × Heap => (q.1, Store.mk (s.arena.relabel φ) q.2 s.queue))
    (Heap.allocate_relabel φ s.heap p)

theorem guard_relabel (f : Function) : (s.relabel φ).guard (f.relabel φ) h =
    ((s.guard f h).1.relabel φ, (s.guard f h).2.relabel φ) :=
  congrArg (fun q : ObjectId × Store =>
    ({ f.relabel φ with closure := h, binding := some q.1 }, q.2)) (allocate_relabel φ s (.binding h))

theorem bind_relabel (method : Function) : (s.relabel φ).bind (method.relabel φ) (v.relabel φ) =
    ((s.bind method v).1.relabel φ, (s.bind method v).2.relabel φ) := by
  have hcreate : (s.relabel φ).create (method.relabel φ).closure =
      ((s.create method.closure).1, (s.create method.closure).2.relabel φ) :=
    create_relabel φ s method.closure
  unfold bind
  rw [hcreate]
  dsimp only
  rw [retain_relabel, define_relabel, guard_relabel]

theorem payload?_relabel (id : ObjectId) :
    (s.relabel φ).heap.payload? id = (s.heap.payload? id).map (Payload.relabel φ) :=
  Heap.payload?_relabel φ s.heap id

theorem parent?_relabel (id : ObjectId) :
    (s.relabel φ).parent? id = (s.parent? id).map (Class.relabel φ) := by
  unfold parent?
  rw [payload?_relabel]
  cases s.heap.payload? id with
  | none => rfl
  | some p => cases p <;> rfl

theorem field?_relabel (id : ObjectId) :
    (s.relabel φ).field? id name = (s.field? id name).map (Value.relabel φ) := by
  unfold field?
  rw [payload?_relabel]
  cases s.heap.payload? id with
  | none => rfl
  | some p =>
    cases p with
    | «instance» parent fields => exact Bindings.find?_map _ fields name
    | _ => rfl

theorem setField_relabel (id : ObjectId) :
    (s.relabel φ).setField id name (v.relabel φ) = (s.setField id name v).relabel φ := by
  have hmodify : (s.heap.relabel φ).modify id (Payload.setField name (v.relabel φ)) =
      (s.heap.modify id (Payload.setField name v)).relabel φ := by
    refine Heap.modify_relabel φ s.heap id fun p => ?_
    cases p with
    | «instance» parent fields =>
      exact congrArg (Payload.instance _) (Bindings.map_insert _ fields name v)
    | _ => rfl
  unfold setField
  rw [field?_relabel]
  cases s.field? id name with
  | none => exact congrArg (Store.mk _ · _) hmodify
  | some old =>
    refine Eq.trans ?_ (discard_relabel φ { s with heap := _ } old)
    exact congrArg (fun heap => discard (Store.mk _ heap _) _) hmodify

/-! ## Arrays -/

theorem elements?_relabel (id : ObjectId) :
    (s.relabel φ).elements? id = (s.elements? id).map (Array.map (Value.relabel φ)) := by
  unfold elements?
  rw [payload?_relabel]
  cases s.heap.payload? id with
  | none => rfl
  | some p => cases p <;> rfl

@[simp] theorem length_relabel (id : ObjectId) : (s.relabel φ).length id = s.length id := by
  unfold length
  rw [elements?_relabel]
  cases s.elements? id with
  | none => rfl
  | some elements => exact Array.size_map

@[simp] theorem slot?_relabel (id : ObjectId) (index : Value) :
    (s.relabel φ).slot? id (index.relabel φ) = s.slot? id index := by
  cases index with
  | number x =>
    change (Number.toNat? x).filter (· < (s.relabel φ).length id) = _
    rw [length_relabel]
    rfl
  | _ => rfl

theorem getElem?_elements?_relabel (id : ObjectId) (i : Nat) :
    (((s.relabel φ).elements? id).bind (·[i]?)).getD .nil =
      (((s.elements? id).bind (·[i]?)).getD .nil).relabel φ := by
  rw [elements?_relabel]
  cases s.elements? id with
  | none => rfl
  | some elements =>
    rw [Option.map_some, Option.bind_some, Option.bind_some, Array.getElem?_map]
    cases elements[i]? <;> rfl

theorem element_relabel (id : ObjectId) (index : Value) :
    (s.relabel φ).element id (index.relabel φ) = (s.element id index).relabel φ := by
  unfold element
  rw [slot?_relabel]
  cases s.slot? id index with
  | none => rfl
  | some i => exact getElem?_elements?_relabel φ s id i

theorem setElement_relabel (id : ObjectId) (index : Value) :
    (s.relabel φ).setElement id (index.relabel φ) (v.relabel φ) =
      ((s.setElement id index v).1.relabel φ, (s.setElement id index v).2.relabel φ) := by
  unfold setElement
  rw [slot?_relabel]
  cases s.slot? id index with
  | none => rfl
  | some i =>
    dsimp only
    rw [getElem?_elements?_relabel, retain_relabel]
    have hmodify : ((s.retain v).heap.relabel φ).modify id (Payload.setElement i (v.relabel φ)) =
        ((s.retain v).heap.modify id (Payload.setElement i v)).relabel φ := by
      refine Heap.modify_relabel φ (s.retain v).heap id fun p => ?_
      cases p with
      | array elements => exact congrArg Payload.array Array.map_setIfInBounds
      | _ => rfl
    refine congrArg (Prod.mk _) (Eq.trans ?_ (discard_relabel φ { s.retain v with heap := _ } _))
    exact congrArg (fun heap => discard (Store.mk _ heap _) _) hmodify

/-! ## Tracing -/

theorem visit?_relabel (m : Marks) (node : Node) : (s.relabel φ).visit? m node = s.visit? m node := by
  cases node with
  | frame h =>
    have hframe : (s.relabel φ).arena.frame? h = (s.arena.frame? h).map (Frame.relabel φ) :=
      Arena.frame?_relabel φ s.arena h
    unfold visit?
    dsimp only
    rw [hframe]
    cases s.arena.frame? h with
    | none => rfl
    | some frame =>
      cases m.frames[h.index]? with
      | none => rfl
      | some visited => cases visited <;> simp only [Option.map_some, Frame.nodes_relabel]
  | object id =>
    unfold visit?
    dsimp only
    rw [payload?_relabel]
    cases s.heap.payload? id with
    | none => rfl
    | some p =>
      cases m.objects[id]? with
      | none => rfl
      | some visited => cases visited <;> simp only [Option.map_some, Payload.nodes_relabel]

theorem visitNext?_relabel (m : Marks) (nodes : List Node) :
    (s.relabel φ).visitNext? m nodes = s.visitNext? m nodes := by
  induction nodes with
  | nil => rfl
  | cons node rest ih => rw [visitNext?, visitNext?, visit?_relabel, ih]

theorem trace_relabel (m : Marks) (nodes : List Node) :
    (s.relabel φ).trace m nodes = s.trace m nodes := by
  fun_induction trace s m nodes with
  | case1 m nodes after found h hlt ih =>
    rw [trace]
    split
    · next after' found' h' =>
      rw [visitNext?_relabel, h] at h'
      cases h'
      exact ih
    · next h' =>
      rw [visitNext?_relabel, h] at h'
      cases h'
  | case2 m nodes h =>
    rw [trace]
    split
    · next after' found' h' =>
      rw [visitNext?_relabel, h] at h'
      cases h'
    · rfl

@[simp] theorem reachable_relabel (roots : List Handle) :
    (s.relabel φ).reachable roots = s.reachable roots := by
  have hslots : (s.relabel φ).arena.slots.size = s.arena.slots.size := Array.size_map
  have hobjects : (s.relabel φ).heap.objects.size = s.heap.objects.size := Array.size_map
  unfold reachable
  rw [hslots, hobjects]
  exact trace_relabel φ s _ _

theorem sweepSlot_relabel (marks : Marks) (index : Nat) :
    sweepSlot marks (s.relabel φ) index = (sweepSlot marks s index).relabel φ := by
  have hslot : (s.relabel φ).arena.slots[index]? = s.arena.slots[index]?.map (Slot.relabel φ) :=
    Arena.getElem?_relabel φ s.arena index
  have hreclaims : (s.relabel φ).arena.reclaims = s.arena.reclaims := rfl
  unfold sweepSlot
  rw [hslot, hreclaims]
  cases s.arena.slots[index]? with
  | none => rfl
  | some slot =>
    cases slot with
    | vacant generation => rfl
    | occupied generation frame =>
      cases marks.frames[index]? with
      | none => rfl
      | some marked =>
        cases marked with
        | true => rfl
        | false =>
          cases s.arena.reclaims with
          | false => rfl
          | true => exact free_relabel φ s index frame

theorem sweep_relabel (marks : Marks) (slots : List Nat) :
    slots.foldl (sweepSlot marks) (s.relabel φ) = (slots.foldl (sweepSlot marks) s).relabel φ := by
  induction slots generalizing s with
  | nil => rfl
  | cons index rest ih =>
    rw [List.foldl_cons, List.foldl_cons, sweepSlot_relabel]
    exact ih _

theorem collect_relabel (roots : List Handle) :
    (s.relabel φ).collect roots = ((s.collect roots).1, (s.collect roots).2.relabel φ) := by
  have hslots : (s.relabel φ).arena.slots.size = s.arena.slots.size := Array.size_map
  unfold collect
  rw [reachable_relabel, hslots, sweep_relabel]
  rfl

/-! ## Texts -/

@[simp] theorem className_relabel (id : ObjectId) : (s.relabel φ).className id = s.className id := by
  unfold className
  rw [parent?_relabel]
  cases s.parent? id with
  | none => rfl
  | some c => exact Class.name_relabel φ c

theorem displayInside_relabel (depth : Nat) (path : List ObjectId) :
    (s.relabel φ).displayInside depth path (v.relabel φ) = s.displayInside depth path v := by
  induction depth generalizing path v with
  | zero =>
    cases v with
    | classObject c => exact Class.name_relabel φ c
    | function f => exact congrArg ("<fn " ++ · ++ ">") (Function.name_relabel φ f)
    | «instance» id => exact congrArg (· ++ " instance") (className_relabel φ s id)
    | _ => rfl
  | succ depth ih =>
    cases v with
    | classObject c => exact Class.name_relabel φ c
    | function f => exact congrArg ("<fn " ++ · ++ ">") (Function.name_relabel φ f)
    | «instance» id => exact congrArg (· ++ " instance") (className_relabel φ s id)
    | array id =>
      have helements : (((s.relabel φ).elements? id).getD #[]).toList =
          ((s.elements? id).getD #[]).toList.map (Value.relabel φ) := by
        rw [elements?_relabel]
        cases s.elements? id with
        | none => rfl
        | some elements => exact Array.toList_map
      change (s.relabel φ).displayInside (depth + 1) path (.array id) = _
      rw [displayInside, displayInside, helements]
      simp only [List.map_map, Function.comp_def, ih]
    | _ => rfl

@[simp] theorem display_relabel : (s.relabel φ).display (v.relabel φ) = s.display v := by
  have hsize : (s.relabel φ).heap.objects.size = s.heap.objects.size := Heap.size_relabel φ s.heap
  unfold display
  rw [hsize]
  exact displayInside_relabel φ s v _ _

end Store
end Lox
