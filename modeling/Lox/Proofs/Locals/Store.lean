import Lox.Proofs.Locals.Objects
import Lox.Proofs.Store.Freeing
import Lox.Store.Display

/-!
# Stores under other names

Every operation on a store does the like to a store with other names. In particular frames are freed at the
same points, and values have the same text.
-/
namespace Lox

structure Store.Exchanged (ξ : Exchange) (μ : Marking) (s u : Store) : Prop where
  arena : s.arena.Exchanged ξ μ u.arena
  heap : s.heap.Exchanged ξ μ u.heap
  queue : u.queue = s.queue
  covers : μ.Covers s.arena

namespace Store.Exchanged

variable {ξ : Exchange} {μ : Marking} {s u : Store} {v w : Value} {values values' : List Value}

section

variable (h : s.Exchanged ξ μ u)

include h

theorem of_heap {heap heap' : Heap} (hheap : heap.Exchanged ξ μ heap') :
    Store.Exchanged ξ μ { s with heap := heap } { u with heap := heap' } := ⟨h.arena, hheap, h.queue, h.covers⟩

/-! ## References -/

theorem retain (hv : v.Exchanged ξ μ w) : (s.retain v).Exchanged ξ μ (u.retain w) := by
  unfold Store.retain
  rw [hv.object?]
  cases v.object? with
  | none => exact h
  | some id => exact h.of_heap (h.heap.retain id)

theorem discardObjects (ids : List ObjectId) : (s.discardObjects ids).Exchanged ξ μ (u.discardObjects ids) := by
  obtain ⟨hheap, hqueue⟩ := h.heap.discard s.queue ids
  unfold Store.discardObjects
  rw [h.queue]
  exact ⟨h.arena, hheap, hqueue, h.covers⟩

theorem discard (hv : v.Exchanged ξ μ w) : (s.discard v).Exchanged ξ μ (u.discard w) := by
  unfold Store.discard
  rw [hv.object?]
  cases v.object? with
  | none => exact h
  | some id => exact h.discardObjects [id]

theorem discardAll (hvalues : List.Forall₂ (Value.Exchanged ξ μ) values values') :
    (s.discardAll values).Exchanged ξ μ (u.discardAll values') := by
  unfold Store.discardAll
  rw [Value.Exchanged.objects hvalues]
  exact h.discardObjects _

/-! ## Frames -/

/-- The scope of a new frame may be marked or not. -/
theorem create {e : Handle} {marks : List Bool} (he : μ e = some marks) (mark : Bool) :
    ∃ μ', μ.Extends μ' ∧ μ' (s.create e).1 = some (mark :: marks) ∧ (u.create e).1 = (s.create e).1 ∧
      (s.create e).2.Exchanged ξ μ' (u.create e).2 := by
  have hμ := h.covers.extends_create e (mark :: marks)
  obtain ⟨hhandle, harena⟩ := h.arena.create h.covers e (mark :: marks)
  exact ⟨_, hμ, Function.update_self .., hhandle, harena, h.heap.mono hμ, h.queue, h.covers.create he mark⟩

theorem capture (g : Handle) : (s.capture g).Exchanged ξ μ (u.capture g) :=
  ⟨h.arena.capture g, h.heap, h.queue, h.covers.capture g⟩

theorem define (g : Handle) (name : String) (hv : v.Exchanged ξ μ w) :
    (s.define g name v).Exchanged ξ μ (u.define g (ξ.text (μ.mark g) name) w) := by
  obtain ⟨hs, hu⟩ | ⟨f, f', hs, hu, hf⟩ := rel_cases (h.arena.frame? g)
  · rw [define_of_none hs, define_of_none hu]
    exact h.discard hv
  · have hinsert := hf.bindings.insert (ξ.text_injective _) name hv
    have hput := h.arena.put (f := { f with bindings := f.bindings.insert name v })
      (g := { f' with bindings := f'.bindings.insert (ξ.text (μ.mark g) name) w }) g
      ⟨hinsert, hf.enclosing, hf.captured⟩
    have hstore : Store.Exchanged ξ μ { s with arena := s.arena.put g { f with bindings := _ } }
        { u with arena := u.arena.put g { f' with bindings := _ } } :=
      ⟨hput, h.heap, h.queue, h.covers.put hs rfl⟩
    rw [define_of_some hs, define_of_some hu]
    obtain ⟨hold, hold'⟩ | ⟨old, old', hold, hold', hsame⟩ :=
      rel_cases (hf.bindings.find? (ξ.text_injective _) name)
    · rw [hold, hold']
      exact hstore.discardAll .nil
    · rw [hold, hold']
      exact hstore.discardAll (.cons hsame .nil)

theorem assign (g : Handle) (name : String) (hv : v.Exchanged ξ μ w) :
    (u.assign g (ξ.text (μ.mark g) name) w).1 = (s.assign g name v).1 ∧
      (s.assign g name v).2.Exchanged ξ μ (u.assign g (ξ.text (μ.mark g) name) w).2 := by
  unfold Store.assign
  obtain ⟨hs, hu⟩ | ⟨old, old', hs, hu, -⟩ := rel_cases (h.arena.find? g name)
  · rw [hs, hu]
    exact ⟨rfl, h.discard hv⟩
  · rw [hs, hu]
    exact ⟨rfl, h.define g name hv⟩

/-- The name is assigned to under what it is called in the scope that lies so many scopes outside. -/
theorem assignAt {g : Handle} {marks : List Bool} (hm : μ g = some marks) (distance : Nat) (name : String)
    (hv : v.Exchanged ξ μ w) :
    (u.assignAt g distance (ξ.text (isMarked marks distance) name) w).1 = (s.assignAt g distance name v).1 ∧
      (s.assignAt g distance name v).2.Exchanged ξ μ
        (u.assignAt g distance (ξ.text (isMarked marks distance) name) w).2 := by
  unfold Store.assignAt
  rw [h.arena.ancestor?]
  cases ha : s.arena.ancestor? g distance with
  | none => exact ⟨rfl, h.discard hv⟩
  | some outer =>
    have hassign := h.assign outer name hv
    rwa [Marking.mark_of_some (h.covers.ancestor hm ha), marked_drop] at hassign

theorem free (i : Nat) {mark : Bool} {f g : Frame} (hf : f.Exchanged ξ μ mark g) :
    (s.free i f).Exchanged ξ μ (u.free i g) := by
  have hvacate : Store.Exchanged ξ μ { s with arena := s.arena.vacate i } { u with arena := u.arena.vacate i } :=
    ⟨h.arena.vacate i, h.heap, h.queue, h.covers.vacate i⟩
  exact hvacate.discardAll hf.bindings.values

theorem release (g : Handle) : (s.release g).2.Exchanged ξ μ (u.release g).2 := by
  unfold Store.release
  obtain ⟨hs, hu⟩ | ⟨f, f', hs, hu, hf⟩ := rel_cases (h.arena.loose? g)
  · rw [hs, hu]
    exact h
  · rw [hs, hu]
    exact h.free g.index hf

omit h

theorem drainFrom {s u : Store} (h : s.Exchanged ξ μ u) (freed : Nat) :
    (s.drainFrom freed).2.Exchanged ξ μ (u.drainFrom freed).2 := by
  have hnext := h.arena.nextLoose? s.queue
  obtain ⟨hs, hu⟩ | ⟨g, f, f', rest, hs, hu, hf⟩ := hnext
  · rw [← h.queue] at hu
    rw [drainFrom_of_none hs, drainFrom_of_none hu]
    exact ⟨h.arena, h.heap, rfl, h.covers⟩
  · rw [← h.queue] at hu
    have hrest : Store.Exchanged ξ μ { s with queue := rest } { u with queue := rest } :=
      ⟨h.arena, h.heap, rfl, h.covers⟩
    have hlt : ({ s with queue := rest }.free g.index f).arena.occupied < s.arena.occupied :=
      Arena.occupied_vacate_lt (Arena.frame?_of_nextLoose? hs)
    rw [drainFrom_of_some hs, drainFrom_of_some hu]
    exact drainFrom (hrest.free g.index hf) (freed + 1)
termination_by s.arena.occupied

theorem drain (h : s.Exchanged ξ μ u) : s.drain.2.Exchanged ξ μ u.drain.2 := h.drainFrom 0

include h

/-! ## Functions, classes and objects -/

theorem closeOver {decl decl' : FunctionDecl} {closure : Handle} {inner marks : List Bool}
    (hm : μ closure = some marks) (hdecl : decl.Exchanged ξ (inner ++ marks) decl') (isInitializer : Bool) :
    (s.closeOver decl closure isInitializer).1.Exchanged ξ μ inner (u.closeOver decl' closure isInitializer).1 ∧
      (s.closeOver decl closure isInitializer).2.Exchanged ξ μ (u.closeOver decl' closure isInitializer).2 :=
  ⟨⟨h.heap.nextStamp, rfl, rfl, rfl, marks, hm, hdecl⟩, h.arena,
    ⟨h.heap.objects, congrArg (· + 1) h.heap.nextStamp⟩, h.queue, h.covers⟩

theorem makeClass (name : String) {superclass superclass' : Option Class} {methods methods' : Bindings Function}
    (hsuperclass : Option.Rel (Class.Exchanged ξ μ) superclass superclass')
    (hmethods : methods.Matched id (Function.Exchanged ξ μ [false]) methods') :
    (s.makeClass name superclass methods).1.Exchanged ξ μ (u.makeClass name superclass' methods').1 ∧
      (s.makeClass name superclass methods).2.Exchanged ξ μ (u.makeClass name superclass' methods').2 := by
  refine ⟨?_, h.arena, ⟨h.heap.objects, congrArg (· + 1) h.heap.nextStamp⟩, h.queue, h.covers⟩
  have hclosures : methods'.values.map Function.closure = methods.values.map Function.closure := by
    have hvalues := hmethods.values
    generalize methods.values = fs at hvalues ⊢
    generalize methods'.values = gs at hvalues ⊢
    induction hvalues with
    | nil => rfl
    | cons hf _ ih => rw [List.map_cons, List.map_cons, hf.closure, ih]
  refine ⟨h.heap.nextStamp, rfl, ?_, fun method => ?_⟩
  · cases hsuperclass with
    | none => exact hclosures
    | some hparent =>
      change methods'.values.map Function.closure ++ _ = methods.values.map Function.closure ++ _
      rw [hclosures, hparent.closures]
  · have hfind := hmethods.find? Function.injective_id method
    cases hsuperclass with
    | none => exact hfind
    | some hparent =>
      change Option.Rel _ (Class.findMethod? ⟨_, _, some _, methods⟩ method)
        (Class.findMethod? ⟨_, _, some _, methods'⟩ method)
      rw [Class.findMethod?, Class.findMethod?]
      obtain ⟨hs, hu⟩ | ⟨f, g, hs, hu, hf⟩ := rel_cases hfind
      · rw [hs, show methods'.find? method = none from hu]
        exact hparent.methods method
      · rw [hs, show methods'.find? method = some g from hu]
        exact .some hf

theorem allocate {p q : Payload} (hp : p.Exchanged ξ μ q) :
    (u.allocate q).1 = (s.allocate p).1 ∧ (s.allocate p).2.Exchanged ξ μ (u.allocate q).2 := by
  obtain ⟨hid, hheap⟩ := h.heap.allocate hp
  exact ⟨hid, h.of_heap hheap⟩

/-- A bound method closes over the frame of `this`, whose scope is not marked. -/
theorem bind {f g : Function} (hf : f.Exchanged ξ μ [false] g) (hv : v.Exchanged ξ μ w) :
    ∃ μ', μ.Extends μ' ∧ (s.bind f v).1.Exchanged ξ μ' [] (u.bind g w).1 ∧
      (s.bind f v).2.Exchanged ξ μ' (u.bind g w).2 := by
  obtain ⟨marks, hmarks, hcode⟩ := hf.code
  obtain ⟨μ', hμ, hnew, hhandle, hcreate⟩ := h.create hmarks false
  have hv' := hv.mono hμ
  have hdefine := (hcreate.retain hv').define (s.create f.closure).1 "this" hv'
  rw [Marking.mark_of_some hnew, marked_cons_zero, Exchange.text_false] at hdefine
  obtain ⟨hid, hallocate⟩ := hdefine.allocate (.binding (s.create f.closure).1)
  have hbind : u.bind g w = (((u.create g.closure).2.retain w).define (u.create g.closure).1 "this" w).guard g
      (u.create g.closure).1 := rfl
  rw [hbind, hf.closure, hhandle]
  exact ⟨μ', hμ, ⟨hf.stamp, rfl, hf.isInitializer, congrArg some hid, _, hnew, hcode⟩, hallocate⟩

theorem parent? (id : ObjectId) : Option.Rel (Class.Exchanged ξ μ) (s.parent? id) (u.parent? id) := by
  unfold Store.parent?
  obtain ⟨hs, hu⟩ | ⟨p, q, hs, hu, hp⟩ := rel_cases (h.heap.payload? id)
  · rw [hs, hu]
    exact .none
  · rw [hs, hu]
    cases hp with
    | «instance» hc _ => exact .some hc
    | array => exact .none
    | binding => exact .none

theorem field? (id : ObjectId) (name : String) :
    Option.Rel (Value.Exchanged ξ μ) (s.field? id name) (u.field? id name) := by
  unfold Store.field?
  obtain ⟨hs, hu⟩ | ⟨p, q, hs, hu, hp⟩ := rel_cases (h.heap.payload? id)
  · rw [hs, hu]
    exact .none
  · rw [hs, hu]
    cases hp with
    | «instance» _ hfields => exact hfields.find? Function.injective_id name
    | array => exact .none
    | binding => exact .none

theorem setField (id : ObjectId) (name : String) (hv : v.Exchanged ξ μ w) :
    (s.setField id name v).Exchanged ξ μ (u.setField id name w) := by
  have hmodify : (s.heap.modify id (Payload.setField name v)).Exchanged ξ μ
      (u.heap.modify id (Payload.setField name w)) := by
    refine h.heap.modify id fun p q hp => ?_
    cases hp with
    | «instance» hc hfields => exact .instance hc (hfields.insert Function.injective_id name hv)
    | array helements => exact .array helements
    | binding frame => exact .binding frame
  have hstore := h.of_heap hmodify
  unfold Store.setField
  obtain ⟨hs, hu⟩ | ⟨old, old', hs, hu, hold⟩ := rel_cases (h.field? id name)
  · rw [hs, hu]
    exact hstore
  · rw [hs, hu]
    exact hstore.discard hold

/-! ## Arrays -/

theorem elements? (id : ObjectId) :
    Option.Rel (fun elements elements' => ∀ i : Nat, Option.Rel (Value.Exchanged ξ μ) elements[i]? elements'[i]?)
      (s.elements? id) (u.elements? id) := by
  unfold Store.elements?
  obtain ⟨hs, hu⟩ | ⟨p, q, hs, hu, hp⟩ := rel_cases (h.heap.payload? id)
  · rw [hs, hu]
    exact .none
  · rw [hs, hu]
    cases hp with
    | «instance» => exact .none
    | array helements => exact .some helements
    | binding => exact .none

theorem length (id : ObjectId) : u.length id = s.length id := by
  unfold Store.length
  obtain ⟨hs, hu⟩ | ⟨elements, elements', hs, hu, helements⟩ := rel_cases (h.elements? id)
  · rw [hs, hu]
  · rw [hs, hu]
    exact size_eq_of_rel helements

theorem slot? (id : ObjectId) (hv : v.Exchanged ξ μ w) : u.slot? id w = s.slot? id v := by
  cases v with
  | number x =>
    cases hv
    unfold Store.slot?
    dsimp only
    rw [h.length]
  | function f =>
    obtain ⟨g, rfl, -⟩ := hv
    rfl
  | classObject c =>
    obtain ⟨d, rfl, -⟩ := hv
    rfl
  | _ =>
    cases hv
    rfl

theorem getElem_elements? (id : ObjectId) (i : Nat) :
    (((s.elements? id).bind (·[i]?)).getD .nil).Exchanged ξ μ (((u.elements? id).bind (·[i]?)).getD .nil) := by
  obtain ⟨hs, hu⟩ | ⟨elements, elements', hs, hu, helements⟩ := rel_cases (h.elements? id)
  · rw [hs, hu]
    exact rfl
  · rw [hs, hu, Option.bind_some, Option.bind_some]
    obtain ⟨hx, hy⟩ | ⟨x, y, hx, hy, hxy⟩ := rel_cases (helements i)
    · rw [hx, hy]
      exact rfl
    · rw [hx, hy]
      exact hxy

theorem element (id : ObjectId) (hv : v.Exchanged ξ μ w) :
    (s.element id v).Exchanged ξ μ (u.element id w) := by
  unfold Store.element
  rw [h.slot? id hv]
  cases s.slot? id v with
  | none => exact rfl
  | some i => exact h.getElem_elements? id i

theorem setElement (id : ObjectId) {index index' : Value} (hindex : index.Exchanged ξ μ index')
    (hv : v.Exchanged ξ μ w) :
    (s.setElement id index v).1.Exchanged ξ μ (u.setElement id index' w).1 ∧
      (s.setElement id index v).2.Exchanged ξ μ (u.setElement id index' w).2 := by
  unfold Store.setElement
  rw [h.slot? id hindex]
  cases s.slot? id index with
  | none => exact ⟨rfl, h⟩
  | some i =>
    have hold := h.getElem_elements? id i
    have hretain := h.retain hv
    have hmodify : ((s.retain v).heap.modify id (Payload.setElement i v)).Exchanged ξ μ
        ((u.retain w).heap.modify id (Payload.setElement i w)) := by
      refine hretain.heap.modify id fun p q hp => ?_
      cases hp with
      | «instance» hc hfields => exact .instance hc hfields
      | array helements => exact .array (rel_setIfInBounds (R := fun _ => Value.Exchanged ξ μ) helements hv)
      | binding frame => exact .binding frame
    exact ⟨hv, (hretain.of_heap hmodify).discard hold⟩

/-! ## Tracing -/

theorem visit? (m : Marks) (node : Node) : u.visit? m node = s.visit? m node := by
  cases node with
  | frame g =>
    unfold Store.visit?
    dsimp only
    obtain ⟨hs, hu⟩ | ⟨f, f', hs, hu, hf⟩ := rel_cases (h.arena.frame? g)
    · rw [hs, hu]
    · rw [hs, hu]
      cases m.frames[g.index]? with
      | none => rfl
      | some visited => cases visited <;> simp only [hf.nodes]
  | object id =>
    unfold Store.visit?
    dsimp only
    obtain ⟨hs, hu⟩ | ⟨p, q, hs, hu, hp⟩ := rel_cases (h.heap.payload? id)
    · rw [hs, hu]
    · rw [hs, hu]
      cases m.objects[id]? with
      | none => rfl
      | some visited => cases visited <;> simp only [hp.nodes]

theorem visitNext? (m : Marks) (nodes : List Node) : u.visitNext? m nodes = s.visitNext? m nodes := by
  induction nodes with
  | nil => rfl
  | cons node rest ih => rw [Store.visitNext?, Store.visitNext?, h.visit?, ih]

theorem trace (m : Marks) (nodes : List Node) : u.trace m nodes = s.trace m nodes := by
  fun_induction Store.trace s m nodes with
  | case1 m nodes after found hvisit hlt ih =>
    rw [Store.trace]
    split
    · next after' found' hvisit' =>
      rw [h.visitNext?, hvisit] at hvisit'
      cases hvisit'
      exact ih
    · next hvisit' =>
      rw [h.visitNext?, hvisit] at hvisit'
      cases hvisit'
  | case2 m nodes hvisit =>
    rw [Store.trace]
    split
    · next after' found' hvisit' =>
      rw [h.visitNext?, hvisit] at hvisit'
      cases hvisit'
    · rfl

theorem reachable (roots : List Handle) : u.reachable roots = s.reachable roots := by
  unfold Store.reachable
  rw [size_eq_of_rel h.arena.slots, h.heap.size]
  exact h.trace _ _

theorem sweepSlot (marks : Marks) (i : Nat) : (sweepSlot marks s i).Exchanged ξ μ (sweepSlot marks u i) := by
  unfold Store.sweepSlot
  obtain ⟨hs, hu⟩ | ⟨slot, slot', hs, hu, hslot⟩ := rel_cases (h.arena.slots i)
  · rw [hs, hu]
    exact h
  · rw [hs, hu]
    cases hslot with
    | vacant => exact h
    | occupied hf =>
      cases marks.frames[i]? with
      | none => exact h
      | some visited =>
        cases visited with
        | true => exact h
        | false =>
          dsimp only
          rw [h.arena.reclaims]
          split
          · exact h.free i hf
          · exact h

omit h

theorem sweep {s u : Store} (h : s.Exchanged ξ μ u) (marks : Marks) (slots : List Nat) :
    (slots.foldl (Store.sweepSlot marks) s).Exchanged ξ μ (slots.foldl (Store.sweepSlot marks) u) := by
  induction slots generalizing s u with
  | nil => exact h
  | cons i rest ih => exact ih (h.sweepSlot marks i)

theorem collect (h : s.Exchanged ξ μ u) (roots : List Handle) :
    (s.collect roots).2.Exchanged ξ μ (u.collect roots).2 := by
  have hsweep := h.sweep (s.reachable roots) (List.range s.arena.slots.size)
  unfold Store.collect
  rw [h.reachable, size_eq_of_rel h.arena.slots]
  have hlive := hsweep.arena.live
  unfold Store.live
  dsimp only
  rw [hlive]
  exact ⟨⟨hsweep.arena.slots, hsweep.arena.free, rfl, rfl, hsweep.arena.reclaims⟩, hsweep.heap, hsweep.queue,
    ⟨hsweep.covers.frames, hsweep.covers.issued, hsweep.covers.globals, hsweep.covers.recycles.nodup,
      hsweep.covers.recycles.vacant⟩⟩

/-! ## The text of values -/

include h

theorem className (id : ObjectId) : u.className id = s.className id := by
  unfold Store.className
  obtain ⟨hs, hu⟩ | ⟨c, d, hs, hu, hc⟩ := rel_cases (h.parent? id)
  · rw [hs, hu]
  · rw [hs, hu]
    exact hc.name

theorem displayInside (depth : Nat) (path : List ObjectId) (hv : v.Exchanged ξ μ w) :
    u.displayInside depth path w = s.displayInside depth path v := by
  induction depth generalizing path v w with
  | zero =>
    cases v with
    | function f =>
      obtain ⟨g, rfl, hf⟩ := hv
      exact congrArg (fun name => "<fn " ++ name ++ ">") hf.name
    | classObject c =>
      obtain ⟨d, rfl, hc⟩ := hv
      exact hc.name
    | «instance» id =>
      cases hv
      exact congrArg (· ++ " instance") (h.className id)
    | _ =>
      cases hv
      rfl
  | succ depth ih =>
    cases v with
    | function f =>
      obtain ⟨g, rfl, hf⟩ := hv
      exact congrArg (fun name => "<fn " ++ name ++ ">") hf.name
    | classObject c =>
      obtain ⟨d, rfl, hc⟩ := hv
      exact hc.name
    | «instance» id =>
      cases hv
      exact congrArg (· ++ " instance") (h.className id)
    | array id =>
      cases hv
      unfold Store.displayInside
      dsimp only
      split
      · rfl
      · refine congrArg (fun texts => "[" ++ ", ".intercalate texts ++ "]") ?_
        obtain ⟨hs, hu⟩ | ⟨elements, elements', hs, hu, helements⟩ := rel_cases (h.elements? id)
        · rw [hs, hu]
          rfl
        · rw [hs, hu, Option.getD_some, Option.getD_some]
          have hall := forall₂_of_rel helements
          generalize elements.toList = xs at hall ⊢
          generalize elements'.toList = ys at hall ⊢
          induction hall with
          | nil => rfl
          | cons hx _ ihAll => rw [List.map_cons, List.map_cons, ih (id :: path) hx, ihAll]
    | _ =>
      cases hv
      rfl

theorem display (hv : v.Exchanged ξ μ w) : u.display w = s.display v := by
  unfold Store.display
  rw [h.heap.size]
  exact h.displayInside _ [] hv

end

end Store.Exchanged

end Lox
