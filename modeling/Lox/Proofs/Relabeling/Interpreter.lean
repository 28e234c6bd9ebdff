import Lox.Proofs.Relabeling.Store

/-!
# Relabeling interpreters

A relabeled interpreter has a distance table of its own, in which references are looked up by their
new identities. As long as they are found at the same distances, it does what the interpreter does.
-/
namespace Lox

variable (ψ φ : Labels) (D : Distances)

/-- A failure is reported for another line. -/
def Failure.relabel : Failure → Failure
  | runtime line cause => runtime (φ.line line) cause
  | output cause => output cause

namespace Interpreter

def relabel (i : Interpreter) : Interpreter :=
  { i with store := i.store.relabel φ, distances := D }

/-- References are found in `D` by their new identities at the distances at which `i` finds them. -/
def Finds (i : Interpreter) : Prop := ∀ id : Nat, D[φ.id id]? = i.distances[id]?

variable {φ D} (i : Interpreter) (v : Value) (name : String)

theorem globalNames_relabel : (i.relabel φ D).globalNames = i.globalNames :=
  Arena.names_relabel φ i.store.arena .globals

theorem retain_relabel : (i.relabel φ D).retain (v.relabel φ) = (i.retain v).relabel φ D :=
  congrArg (Interpreter.mk · _ _ _ _) (Store.retain_relabel φ i.store v)

theorem discard_relabel : (i.relabel φ D).discard (v.relabel φ) = (i.discard v).relabel φ D :=
  congrArg (Interpreter.mk · _ _ _ _) (Store.discard_relabel φ i.store v)

theorem discardAll_relabel (values : List Value) :
    (i.relabel φ D).discardAll (values.map (Value.relabel φ)) = (i.discardAll values).relabel φ D :=
  congrArg (Interpreter.mk · _ _ _ _) (Store.discardAll_relabel φ i.store values)

theorem drain_relabel : (i.relabel φ D).drain = i.drain.relabel φ D :=
  congrArg (fun p : Nat × Store => Interpreter.mk p.2 _ _ _ _) (Store.drain_relabel φ i.store)

/-! ## Variables -/

theorem lookup?_relabel (hD : i.Finds φ D) (ref : Reference) :
    (i.relabel φ D).lookup? (ref.relabel φ) = (i.lookup? ref).map (Value.relabel φ) := by
  have hid : (i.relabel φ D).distances[(ref.relabel φ).id]? = i.distances[ref.id]? := hD ref.id
  unfold lookup?
  rw [hid]
  cases i.distances[ref.id]? with
  | none => exact Arena.find?_relabel φ i.store.arena .globals ref.name.text
  | some distance => exact Arena.findAt?_relabel φ i.store.arena i.active distance ref.name.text

theorem assign_relabel (hD : i.Finds φ D) (ref : Reference) :
    (i.relabel φ D).assign (ref.relabel φ) (v.relabel φ) =
      ((i.assign ref v).1, (i.assign ref v).2.relabel φ D) := by
  have hid : (i.relabel φ D).distances[(ref.relabel φ).id]? = i.distances[ref.id]? := hD ref.id
  unfold assign
  rw [hid]
  cases i.distances[ref.id]? with
  | none =>
    exact congrArg (fun p : Bool × Store => (p.1, { i with store := p.2, distances := D }))
      (Store.assign_relabel φ i.store v .globals ref.name.text)
  | some distance =>
    exact congrArg (fun p : Bool × Store => (p.1, { i with store := p.2, distances := D }))
      (Store.assignAt_relabel φ i.store v i.active ref.name.text distance)

theorem define_relabel :
    (i.relabel φ D).define name (v.relabel φ) = (i.define name v).relabel φ D :=
  congrArg (Interpreter.mk · _ _ _ _) (Store.define_relabel φ i.store v i.active name)

theorem enter_relabel (enclosing : Handle) :
    (i.relabel φ D).enter enclosing = (i.enter enclosing).relabel φ D :=
  congrArg (fun p : Handle × Store => Interpreter.mk p.2 p.1 _ _ _)
    (Store.create_relabel φ i.store enclosing)

theorem leave_relabel (previous frame : Handle) :
    (i.relabel φ D).leave previous frame = (i.leave previous frame).relabel φ D := by
  have hstore : (((i.store.relabel φ).release frame).2).drain.2 =
      ((i.store.release frame).2.drain.2).relabel φ := by
    rw [Store.release_relabel, Store.drain_relabel]
  exact congrArg (Interpreter.mk · _ _ _ _) hstore

/-! ## Functions and classes -/

theorem closeOver_relabel (decl : FunctionDecl) (isInitializer : Bool) :
    (i.relabel φ D).closeOver (decl.relabel φ) isInitializer =
      ((i.closeOver decl isInitializer).1.relabel φ,
        (i.closeOver decl isInitializer).2.relabel φ D) := by
  unfold closeOver
  have hstore : (i.relabel φ D).store.capture (i.relabel φ D).active =
      (i.store.capture i.active).relabel φ := Store.capture_relabel φ i.store i.active
  rw [hstore]
  rfl

theorem declareFunction_relabel (decl : FunctionDecl) :
    (i.relabel φ D).declareFunction (decl.relabel φ) = (i.declareFunction decl).relabel φ D := by
  unfold declareFunction
  rw [closeOver_relabel, FunctionDecl.name_relabel]
  exact define_relabel _ (.function _) _

theorem closeOverMethods_relabel (table : Bindings Function) (methods : List FunctionDecl) :
    (i.relabel φ D).closeOverMethods (table.map (Function.relabel φ))
        (methods.map (FunctionDecl.relabel φ)) =
      ((i.closeOverMethods table methods).1.map (Function.relabel φ),
        (i.closeOverMethods table methods).2.relabel φ D) := by
  induction methods generalizing i table with
  | nil => rfl
  | cons decl rest ih =>
    rw [List.map_cons, closeOverMethods, closeOverMethods, FunctionDecl.name_relabel,
      closeOver_relabel]
    dsimp only [Ident.relabel]
    rw [← Bindings.map_insert]
    exact ih _ _

theorem closeOverDerived_relabel (parent : Class) (methods : List FunctionDecl) :
    (i.relabel φ D).closeOverDerived (parent.relabel φ) (methods.map (FunctionDecl.relabel φ)) =
      ((i.closeOverDerived parent methods).1.map (Function.relabel φ),
        (i.closeOverDerived parent methods).2.relabel φ D) := by
  have hinner : ((i.relabel φ D).enter (i.relabel φ D).active).define "super"
        (.classObject (parent.relabel φ)) =
      ((i.enter i.active).define "super" (.classObject parent)).relabel φ D := by
    rw [← define_relabel, ← enter_relabel]
    rfl
  unfold closeOverDerived
  dsimp only
  rw [hinner]
  have hmethods := closeOverMethods_relabel (φ := φ) (D := D)
    ((i.enter i.active).define "super" (.classObject parent)) Bindings.empty methods
  rw [Bindings.map_empty] at hmethods
  rw [hmethods]
  refine congrArg (Prod.mk _) ?_
  exact congrArg (fun p : Bool × Store => Interpreter.mk p.2 _ _ _ _)
    (Store.release_relabel φ _ _)

theorem bindClass_relabel (superclass : Option Class) (table : Bindings Function) :
    { i.relabel φ D with store := ((i.store.relabel φ).makeClass name
          (superclass.map (Class.relabel φ)) (table.map (Function.relabel φ))).2 }.define name
        (.classObject ((i.store.relabel φ).makeClass name (superclass.map (Class.relabel φ))
          (table.map (Function.relabel φ))).1) =
      ({ i with store := (i.store.makeClass name superclass table).2 }.define name
        (.classObject (i.store.makeClass name superclass table).1)).relabel φ D := by
  rw [Store.makeClass_relabel]
  exact define_relabel { i with store := _ } (.classObject _) name

theorem declareClass_relabel (superclass : Option Class) (methods : List FunctionDecl) :
    (i.relabel φ D).declareClass name (superclass.map (Class.relabel φ))
        (methods.map (FunctionDecl.relabel φ)) =
      (i.declareClass name superclass methods).relabel φ D := by
  have hdefine : (i.relabel φ D).define name .nil = (i.define name .nil).relabel φ D :=
    define_relabel i .nil name
  unfold declareClass
  rw [hdefine]
  cases superclass with
  | none =>
    have hmethods := closeOverMethods_relabel (φ := φ) (D := D) (i.define name .nil) Bindings.empty
      methods
    rw [Bindings.map_empty] at hmethods
    dsimp only [Option.map_none]
    rw [hmethods]
    exact bindClass_relabel _ name none _
  | some parent =>
    dsimp only [Option.map_some]
    rw [closeOverDerived_relabel]
    exact bindClass_relabel _ name (some parent) _

/-! ## Properties -/

theorem property_relabel (object : Value) :
    (i.relabel φ D).property (object.relabel φ) name =
      ((i.property object name).1.map (Value.relabel φ), (i.property object name).2.relabel φ D) := by
  cases object with
  | «instance» id =>
    have hfield : (i.relabel φ D).store.field? id name =
        (i.store.field? id name).map (Value.relabel φ) := Store.field?_relabel φ i.store name id
    have hparent : (i.relabel φ D).store.parent? id = (i.store.parent? id).map (Class.relabel φ) :=
      Store.parent?_relabel φ i.store id
    change (i.relabel φ D).property (.instance id) name = _
    unfold property
    dsimp only
    rw [hfield, hparent]
    cases i.store.field? id name with
    | some v => exact congrArg (Prod.mk _) (retain_relabel i v)
    | none =>
      cases i.store.parent? id with
      | none => rfl
      | some c =>
        rw [Option.map_some, Option.bind_some, Option.bind_some, Class.findMethod?_relabel]
        cases c.findMethod? name with
        | none => rfl
        | some method =>
          exact congrArg (fun p : Function × Store => (Except.ok (Value.function p.1),
              Interpreter.mk p.2 i.active D i.sink i.clock))
            (Store.bind_relabel φ i.store (.instance id) method)
  | array id =>
    change (i.relabel φ D).property (.array id) name = _
    unfold property
    dsimp only
    split
    · exact congrArg (Prod.mk _) (retain_relabel i (.array id))
    · exact congrArg (Prod.mk _) (retain_relabel i (.array id))
    · exact congrArg (fun n => (Except.ok (Value.number (Float.ofNat n)), i.relabel φ D))
        (Store.length_relabel φ i.store id)
    · rfl
  | _ => rfl

theorem superMethod_relabel (hD : i.Finds φ D) (ref : Reference) :
    (i.relabel φ D).superMethod (ref.relabel φ) name =
      ((i.superMethod ref name).1.map (Value.relabel φ), (i.superMethod ref name).2.relabel φ D) := by
  have hid : (i.relabel φ D).distances[(ref.relabel φ).id]? = i.distances[ref.id]? := hD ref.id
  have hfind : ∀ distance name, (i.relabel φ D).store.arena.findAt? (i.relabel φ D).active distance name =
      (i.store.arena.findAt? i.active distance name).map (Value.relabel φ) :=
    Arena.findAt?_relabel φ i.store.arena i.active
  unfold superMethod
  rw [hid]
  cases i.distances[ref.id]? with
  | none => rfl
  | some distance =>
    dsimp only
    rw [hfind]
    cases i.store.arena.findAt? i.active distance "super" with
    | none => rfl
    | some parent =>
      cases parent with
      | classObject parent =>
        cases distance with
        | zero => rfl
        | succ inner =>
          dsimp only [Option.map_some, Value.relabel]
          rw [hfind]
          cases i.store.arena.findAt? i.active inner "this" with
          | none => rfl
          | some receiver =>
            cases receiver with
            | «instance» id =>
              dsimp only [Option.map_some, Value.relabel]
              rw [Class.findMethod?_relabel]
              cases parent.findMethod? name with
              | none => rfl
              | some method =>
                exact congrArg (fun p : Function × Store => (Except.ok (Value.function p.1),
                    Interpreter.mk p.2 i.active D i.sink i.clock))
                  (Store.bind_relabel φ i.store (.instance id) method)
            | _ => rfl
      | _ => rfl

/-! ## Output and built-in functions -/

theorem write_relabel (text : String) : (i.relabel φ D).write text =
    ((i.write text).1, (i.write text).2.relabel φ D) := rfl

theorem writeLine_relabel : (i.relabel φ D).writeLine (v.relabel φ) =
    ((i.writeLine v).1, (i.writeLine v).2.relabel φ D) := by
  have htext : (i.relabel φ D).store.display (v.relabel φ) = i.store.display v :=
    Store.display_relabel φ i.store v
  unfold writeLine
  rw [htext]
  rfl

def NativeResult.relabel (φ : Labels) : NativeResult → NativeResult
  | value v => value (v.relabel φ)
  | result => result

/-- Hands out an array that has been made. -/
def handOut (i : Interpreter) (made : ObjectId × Store) : NativeResult × Interpreter :=
  (.value (.array made.1), { i with store := made.2 })

theorem handOut_relabel (s : Store) {p q : Payload} (hp : p.relabel φ = q) :
    (i.relabel φ D).handOut ((s.relabel φ).allocate q) =
      ((i.handOut (s.allocate p)).1.relabel φ, (i.handOut (s.allocate p)).2.relabel φ D) := by
  subst hp
  exact congrArg (i.relabel φ D).handOut (Store.allocate_relabel φ s p)

theorem callNative_relabel (n : Native) (arguments : List Value) :
    (i.relabel φ D).callNative n (arguments.map (Value.relabel φ)) =
      ((i.callNative n arguments).1.relabel φ, (i.callNative n arguments).2.relabel φ D) := by
  have hcopy : ∀ v : Value,
      (i.relabel φ D).handOut (((i.store.relabel φ).retain (v.relabel φ)).allocate (.array #[v.relabel φ])) =
        ((i.handOut ((i.store.retain v).allocate (.array #[v]))).1.relabel φ,
          (i.handOut ((i.store.retain v).allocate (.array #[v]))).2.relabel φ D) := by
    intro v
    rw [Store.retain_relabel]
    exact handOut_relabel i _ (congrArg Payload.array List.map_toArray)
  cases n with
  | clock => rfl
  | clear =>
    unfold callNative
    dsimp only
    rw [write_relabel]
    rcases i.write clearSequence with ⟨error, j⟩
    cases error with
    | some cause => rfl
    | none =>
      have hsink : (j.relabel φ D).sink = j.sink := rfl
      dsimp only
      rw [hsink]
      cases j.sink.flush <;> rfl
  | sleep =>
    cases arguments with
    | nil => rfl
    | cons v rest =>
      cases v with
      | number x =>
        simp only [callNative, List.map_cons, Value.relabel]
        by_cases hx : (x.isFinite && decide (0 ≤ x)) = true
        · rw [if_pos hx, if_pos hx]
          have hclock : (i.relabel φ D).clock = i.clock := rfl
          rw [hclock]
          cases i.clock.wait? x <;> rfl
        · rw [if_neg hx, if_neg hx]
          rfl
      | _ => rfl
  | array =>
    cases arguments with
    | nil => exact handOut_relabel i i.store (congrArg Payload.array Array.map_empty)
    | cons v rest =>
      cases v with
      | number x =>
        simp only [callNative, List.map_cons, Value.relabel]
        cases Number.toNat? x with
        | none => rfl
        | some size =>
          have hnils : (Payload.array (Array.replicate size .nil)).relabel φ =
              .array (Array.replicate size .nil) := congrArg Payload.array (Array.map_replicate ..)
          dsimp only
          by_cases hsize : maxArrayLength < size
          · rw [if_pos hsize, if_pos hsize]
            rfl
          · rw [if_neg hsize, if_neg hsize]
            exact handOut_relabel i i.store hnils
      | _ => exact hcopy _

end Interpreter
end Lox
