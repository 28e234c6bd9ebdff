import Lox.Proofs.Reclamation.Created

/-!
# What has been made

A frame is made inside of another one: that of a block or of a superclass inside of the active frame, that
of a call inside of the frame which the function closes over. Functions close over the active frame, and
methods over the frame of the superclass if there is one. What the steps of a history have made is recorded
here, so that it can be said later for which frame of a function or block a link stands.
-/
namespace Lox

/-- A frame, what it has been made for, and the frame inside of which it has been made. -/
structure Opening where
  frame : Handle
  region : Region
  outer : Handle

/-- What has been made: frames, and functions that are not bound to a receiver. -/
structure Past where
  openings : List Opening
  functions : List Function

/-- The frame that is made for the receiver when a method is bound. -/
def Store.openedByBind (s : Store) (method : Function) : Opening :=
  ⟨(s.create method.closure).1, .receiver method.decl, method.closure⟩

namespace Interpreter

/-- The method that a property of this name stands for. -/
def methodOf? (i : Interpreter) (object : Value) (name : String) : Option Function :=
  match object with
  | .instance id =>
    match i.store.field? id name with
    | some _ => none
    | none => (i.store.parent? id).bind (·.findMethod? name)
  | _ => none

/-- The method of this name in the superclass around the running method. -/
def methodOfSuper? (i : Interpreter) (ref : Reference) (name : String) : Option Function :=
  match i.distances[ref.id]? with
  | some (inner + 1) =>
    match i.store.arena.findAt? i.active (inner + 1) "super", i.store.arena.findAt? i.active inner "this" with
    | some (.classObject parent), some (.instance _) => parent.findMethod? name
    | _, _ => none
  | _ => none

/-- Either a method of the superclass is bound, or there is none. -/
theorem superMethod_cases (i : Interpreter) (ref : Reference) (name : String) :
    (i.methodOfSuper? ref name = none ∧ ∃ cause, i.superMethod ref name = (.error cause, i)) ∨
      ∃ method id, i.methodOfSuper? ref name = some method ∧ i.superMethod ref name =
        (.ok (.function (i.store.bind method (.instance id)).1),
          { i with store := (i.store.bind method (.instance id)).2 }) := by
  unfold methodOfSuper? superMethod
  cases i.distances[ref.id]? with
  | none => exact .inl ⟨rfl, _, rfl⟩
  | some distance =>
    cases distance with
    | zero =>
      refine .inl ⟨rfl, ?_⟩
      dsimp only
      split <;> exact ⟨_, rfl⟩
    | succ inner =>
      dsimp only
      cases i.store.arena.findAt? i.active (inner + 1) "super" with
      | none => exact .inl ⟨rfl, _, rfl⟩
      | some superclass =>
        cases superclass with
        | classObject parent =>
          dsimp only
          cases i.store.arena.findAt? i.active inner "this" with
          | none => exact .inl ⟨rfl, _, rfl⟩
          | some this =>
            cases this with
            | «instance» id =>
              dsimp only
              cases hmethod : parent.findMethod? name with
              | none => exact .inl ⟨rfl, _, rfl⟩
              | some method => exact .inr ⟨method, id, rfl, rfl⟩
            | _ => exact .inl ⟨rfl, _, rfl⟩
        | _ => exact .inl ⟨rfl, _, rfl⟩

end Interpreter

namespace Machine

def openedByCallFunction (f : Function) (i : Interpreter) : List Opening :=
  if i.store.arena.contains f.closure then [⟨(i.enter f.closure).active, .body f.decl, f.closure⟩] else []

def openedByInstantiate (c : Class) (i : Interpreter) : List Opening :=
  let (id, store) := i.store.allocate (.instance c Bindings.empty)
  match c.findMethod? initializerName with
  | none => []
  | some method =>
    let (f, bound) := store.bind method (.instance id)
    store.openedByBind method :: openedByCallFunction f { i with store := bound }

def openedByCall (callee : Value) (arguments : List Value) (i : Interpreter) : List Opening :=
  if callee.arity? = some arguments.length then
    match callee with
    | .function f => openedByCallFunction f i
    | .classObject c => openedByInstantiate c i
    | _ => []
  else []

/-- The frames that the next step makes. -/
def opened : Machine → List Opening
  | ⟨.eval (.super ref method), _, i⟩ => (i.methodOfSuper? ref method.text).toList.map i.store.openedByBind
  | ⟨.exec (.block body), _, i⟩ => [⟨(i.enter i.active).active, .block body, i.active⟩]
  | ⟨.yield v, .callee _ [] :: _, i⟩ => openedByCall v [] i
  | ⟨.yield v, .argument _ callee ready [] :: _, i⟩ => openedByCall callee (ready ++ [v]) i
  | ⟨.yield v, .get name :: _, i⟩ => (i.methodOf? v name.text).toList.map i.store.openedByBind
  | ⟨.yield (.classObject _), .superclass name _ methods :: _, i⟩ =>
    [⟨((i.define name.text .nil).enter i.active).active, .heritage methods, i.active⟩]
  | _ => []

/-- The functions that the next step makes, other than by binding a method. -/
def functions : Machine → List Function
  | ⟨.exec (.function decl), _, i⟩ => [(i.closeOver decl false).1]
  | ⟨.exec (.classDecl name none methods), _, i⟩ =>
    ((i.define name.text .nil).closeOverMethods Bindings.empty methods).1.values
  | ⟨.yield (.classObject c), .superclass name _ methods :: _, i⟩ =>
    ((i.define name.text .nil).closeOverDerived c methods).1.values
  | _ => []

theorem eq_of_mem_openedByCallFunction {f : Function} {i : Interpreter} {o : Opening}
    (ho : o ∈ openedByCallFunction f i) : o = ⟨(i.enter f.closure).active, .body f.decl, f.closure⟩ := by
  unfold openedByCallFunction at ho
  split at ho
  · exact List.mem_singleton.1 ho
  · cases ho

theorem created_openedByCall (callee : Value) (arguments : List Value) (i : Interpreter) :
    (openedByCall callee arguments i).map (fun o => (o.frame, o.region)) =
      createdByCall callee arguments i := by
  have hbody : ∀ (f : Function) (i : Interpreter),
      (openedByCallFunction f i).map (fun o => (o.frame, o.region)) = createdByCallFunction f i := by
    intro f i
    unfold openedByCallFunction createdByCallFunction
    split <;> rfl
  unfold openedByCall createdByCall
  split
  · cases callee with
    | function f => exact hbody f i
    | classObject c =>
      unfold openedByInstantiate createdByInstantiate
      dsimp only
      cases c.findMethod? initializerName with
      | none => rfl
      | some method =>
        dsimp only
        rw [List.map_cons, hbody]
        rfl
    | _ => rfl
  · rfl

/-- These are the frames that a step makes, with what is around them. -/
theorem created_opened (m : Machine) : m.opened.map (fun o => (o.frame, o.region)) = m.created := by
  obtain ⟨control, stack, i⟩ := m
  cases control with
  | eval e =>
    cases e with
    | super ref method =>
      change ((i.methodOfSuper? ref method.text).toList.map i.store.openedByBind).map _ =
        i.createdBySuper ref method.text
      unfold Interpreter.createdBySuper
      obtain ⟨hnone, cause, heq⟩ | ⟨found, id, hsome, heq⟩ := i.superMethod_cases ref method.text
      · rw [hnone, heq]
        rfl
      · rw [hsome, heq]
        rfl
    | _ => rfl
  | exec s => cases s <;> rfl
  | yield v =>
    cases stack with
    | nil => rfl
    | cons k stack =>
      cases k with
      | callee line arguments =>
        cases arguments with
        | nil => exact created_openedByCall v [] i
        | cons e rest => rfl
      | argument line callee ready rest =>
        cases rest with
        | nil => exact created_openedByCall callee (ready ++ [v]) i
        | cons e rest => rfl
      | get name =>
        change ((i.methodOf? v name.text).toList.map i.store.openedByBind).map _ =
          i.createdByProperty v name.text
        unfold Interpreter.createdByProperty Interpreter.methodOf?
        cases v with
        | «instance» id =>
          dsimp only
          cases i.store.field? id name.text with
          | some w => rfl
          | none => cases (i.store.parent? id).bind (·.findMethod? name.text) <;> rfl
        | _ => rfl
      | superclass name parent methods => cases v <;> rfl
      | _ => rfl
  | _ => rfl

end Machine

/-! ## Records of histories -/

namespace Past

/-- With what the next step makes. -/
def add (past : Past) (m : Machine) : Past := ⟨past.openings ++ m.opened, past.functions ++ m.functions⟩

/-- With what is made in all of the states. -/
def after (past : Past) (ms : List Machine) : Past := ms.foldl add past

def empty : Past := ⟨[], []⟩

/-- A function that has been made, perhaps bound to a receiver since. -/
def Knows (past : Past) (f : Function) : Prop :=
  f ∈ past.functions ∨ ∃ method ∈ past.functions, f.decl = method.decl ∧
    ⟨f.closure, .receiver method.decl, method.closure⟩ ∈ past.openings

/-- What has been made stays recorded. -/
structure Within (past later : Past) : Prop where
  openings : past.openings ⊆ later.openings
  functions : past.functions ⊆ later.functions

variable {past later : Past} {f : Function}

theorem Within.refl (past : Past) : past.Within past := ⟨List.Subset.refl _, List.Subset.refl _⟩

theorem within_add (past : Past) (m : Machine) : past.Within (past.add m) :=
  ⟨List.subset_append_left _ _, List.subset_append_left _ _⟩

theorem Knows.mono (h : past.Knows f) (hpast : past.Within later) : later.Knows f := by
  obtain h | ⟨method, hmethod, hdecl, hopened⟩ := h
  · exact .inl (hpast.functions h)
  · exact .inr ⟨method, hpast.functions hmethod, hdecl, hpast.openings hopened⟩

theorem after_append (past : Past) (ms ns : List Machine) :
    past.after (ms ++ ns) = (past.after ms).after ns := List.foldl_append

theorem openings_after (past : Past) (ms : List Machine) :
    (past.after ms).openings = past.openings ++ ms.flatMap Machine.opened := by
  induction ms generalizing past with
  | nil => exact (List.append_nil _).symm
  | cons m rest ih =>
    refine (ih (past.add m)).trans ?_
    rw [add, List.flatMap_cons, List.append_assoc]

theorem functions_after (past : Past) (ms : List Machine) :
    (past.after ms).functions = past.functions ++ ms.flatMap Machine.functions := by
  induction ms generalizing past with
  | nil => exact (List.append_nil _).symm
  | cons m rest ih =>
    refine (ih (past.add m)).trans ?_
    rw [add, List.flatMap_cons, List.append_assoc]

end Past
end Lox
