import Mathlib.Data.List.Nodup
import Lox.Proofs.Reclamation.Sessions
import Lox.Proofs.Scoping.Operations

/-!
# New frames

The frames that a step makes have handles which have not been given out before, and which are not given
out again. So all frames of a history have different ones.
-/
namespace Lox

open Arena (Grows)

variable {a b c : Arena} {made made' : Record} {i : Interpreter} {stack : List Cont}

/-- From `a` to `b` frames have been made, all with new handles. -/
structure Made (a b : Arena) (made : Record) : Prop where
  nodup : (made.map Prod.fst).Nodup
  new : ∀ h ∈ made.map Prod.fst, ¬ a.Issued h
  issued : ∀ h ∈ made.map Prod.fst, b.Issued h

namespace Made

theorem nil : Made a b [] := ⟨List.nodup_nil, nofun, nofun⟩

theorem append (h : Made a b made) (h' : Made b c made') (hab : ∀ h, a.Issued h → b.Issued h)
    (hbc : ∀ h, b.Issued h → c.Issued h) : Made a c (made ++ made') := by
  refine ⟨?_, ?_, ?_⟩
  · rw [List.map_append]
    exact h.nodup.append h'.nodup fun g hg hg' => h'.new g hg' (h.issued g hg)
  · rw [List.map_append]
    exact List.forall_mem_append.2 ⟨h.new, fun g hg hissued => h'.new g hg (hab g hissued)⟩
  · rw [List.map_append]
    exact List.forall_mem_append.2 ⟨fun g hg => hbc g (h.issued g hg), h'.issued⟩

theorem single {h : Handle} {region : Region} (hnew : ¬ a.Issued h) (hissued : b.Issued h) :
    Made a b [(h, region)] :=
  ⟨List.nodup_singleton _, fun _ hg => List.mem_singleton.1 hg ▸ hnew,
    fun _ hg => List.mem_singleton.1 hg ▸ hissued⟩

end Made

/-! ## One operation -/

theorem Store.issued_bind {s : Store} (hr : s.arena.Recycles) (method : Function) (receiver : Value) :
    (s.bind method receiver).2.arena.Issued (s.bind method receiver).1.closure := by
  have hcreate : (s.create method.closure).2.arena.Issued (s.create method.closure).1 :=
    Arena.issued_create hr _ (.inl rfl)
  have hrecycles : (s.create method.closure).2.arena.Recycles := Arena.recycles_create hr method.closure
  have hretain := grows_retain (B := fun _ _ => True) hrecycles receiver
  have hdefine : Grows (fun _ _ => True) (s.create method.closure).2.arena (s.bind method receiver).2.arena :=
    hretain.and (grows_define hretain.recycles receiver trivial)
  exact hdefine.issued _ hcreate

theorem Store.made_bind {s : Store} (hr : s.arena.Recycles) (method : Function) (receiver : Value) :
    Made s.arena (s.bind method receiver).2.arena
      [((s.bind method receiver).1.closure, .receiver method.decl)] :=
  .single (Arena.not_issued_create hr method.closure) (issued_bind hr method receiver)

namespace Interpreter

variable (hr : i.store.arena.Recycles)

include hr

theorem made_property (object : Value) (name : String) :
    Made i.store.arena (i.property object name).2.store.arena (i.createdByProperty object name) := by
  unfold createdByProperty property
  cases object with
  | «instance» id =>
    dsimp only
    cases i.store.field? id name with
    | some v => exact .nil
    | none =>
      cases (i.store.parent? id).bind (·.findMethod? name) with
      | none => exact .nil
      | some method => exact Store.made_bind hr method (.instance id)
  | _ => exact .nil

theorem made_superMethod (ref : Reference) (name : String) :
    Made i.store.arena (i.superMethod ref name).2.store.arena (i.createdBySuper ref name) := by
  unfold createdBySuper
  obtain ⟨-, cause, heq⟩ | ⟨method, id, -, heq⟩ := i.superMethod_cases ref name
  · rw [heq]
    exact .nil
  · rw [heq]
    exact Store.made_bind hr method (.instance id)

theorem made_heritage (name : String) (parent : Class) (methods : List FunctionDecl) :
    Made i.store.arena (i.declareClass name (some parent) methods).store.arena
      [(((i.define name .nil).enter i.active).active, .heritage methods)] := by
  have hnil : Grows (fun _ _ => True) i.store.arena (i.define name .nil).store.arena :=
    grows_define hr .nil trivial
  have henter : ((i.define name .nil).enter i.active).store.arena.Recycles :=
    Arena.recycles_create hnil.recycles i.active
  have hissued : ((i.define name .nil).enter i.active).store.arena.Issued
      ((i.define name .nil).enter i.active).active := Arena.issued_create hnil.recycles _ (.inl rfl)
  have hsuper : Grows (fun _ _ => True) ((i.define name .nil).enter i.active).store.arena
      (((i.define name .nil).enter i.active).define "super" (.classObject parent)).store.arena :=
    grows_define henter _ trivial
  have hlast := (hsuper.and (grows_heritage hr name parent methods)).issued _ hissued
  exact .single (fun h => Arena.not_issued_create hnil.recycles i.active (hnil.issued _ h)) hlast

end Interpreter

/-! ## One step -/

namespace Machine

variable (hr : i.store.arena.Recycles)

include hr

theorem made_callFunction (line : Nat) (f : Function) (arguments : List Value) :
    Made i.store.arena (callFunction line f arguments stack i).state.store.arena
      (createdByCallFunction f i) := by
  unfold createdByCallFunction callFunction
  split
  · have henter : (i.enter f.closure).store.arena.Recycles := Arena.recycles_create hr f.closure
    have hissued : (i.enter f.closure).store.arena.Issued (i.enter f.closure).active :=
      Arena.issued_create hr _ (.inl rfl)
    have hgrows := Interpreter.grows_foldl_define (B := fun _ _ => True) henter
      (f.decl.params.zip arguments) fun _ => trivial
    exact .single (Arena.not_issued_create hr f.closure) (hgrows.issued _ hissued)
  · exact .nil

theorem made_instantiate (line : Nat) (c : Class) (arguments : List Value) :
    Made i.store.arena (instantiate line c arguments stack i).state.store.arena
      (createdByInstantiate c i) := by
  unfold createdByInstantiate instantiate
  dsimp only
  cases c.findMethod? initializerName with
  | none => exact .nil
  | some method =>
    let allocated := (i.store.allocate (.instance c Bindings.empty)).2
    let receiver := (i.store.allocate (.instance c Bindings.empty)).1
    have hbind : Grows (fun _ _ => True) i.store.arena (allocated.bind method (.instance receiver)).2.arena :=
      Store.grows_bind (s := allocated) hr method (.instance receiver)
    have hmade := Store.made_bind (s := allocated) hr method (.instance receiver)
    refine hmade.append (made_callFunction (i := { i with store := _ }) hbind.recycles line _ arguments)
      hbind.issued ?_
    exact (grows_callFunction (B := fun _ _ => True) (i := { i with store := _ }) hbind.recycles line _
      arguments).issued

theorem made_call (line : Nat) (callee : Value) (arguments : List Value) :
    Made i.store.arena (call line callee arguments stack i).state.store.arena
      (createdByCall callee arguments i) := by
  unfold createdByCall call
  cases harity : callee.arity? with
  | none => exact .nil
  | some arity =>
    dsimp only
    by_cases hlength : arguments.length = arity
    · rw [if_pos (congrArg some hlength.symm), if_pos hlength]
      cases callee with
      | function f => exact made_callFunction hr line f arguments
      | classObject c => exact made_instantiate hr line c arguments
      | _ => exact .nil
    · rw [if_neg fun h => hlength (Option.some.inj h).symm]
      exact .nil

omit hr

/-- What a step makes is new. -/
theorem made_step (m : Machine) (hr : m.state.store.arena.Recycles) :
    Made m.state.store.arena m.step.state.store.arena m.created := by
  unfold created
  split
  · next ref method stack i =>
    change Made _ (evalStep (.super ref method) stack i).state.store.arena _
    rw [store_super]
    exact Interpreter.made_superMethod hr ref method.text
  · next body stack i =>
    exact .single (Arena.not_issued_create hr i.active) (Arena.issued_create hr _ (.inl rfl))
  · next v line stack i => exact made_call hr line v []
  · next v line callee ready stack i => exact made_call hr line callee (ready ++ [v])
  · next v name stack i =>
    change Made _ ((i.property v name.text).2.store.discard v).arena _
    rw [Store.arena_discard]
    exact Interpreter.made_property hr v name.text
  · next c name parent methods stack i => exact Interpreter.made_heritage hr name.text c methods
  · exact .nil

end Machine
end Lox
