import Lox.Machine

/-!
# The frames that a step makes

Every frame but the global one is made for a part of a program: for a block that is entered, for the
body of a function that is called, for the receiver of a method that is bound, or for the
superclass of a class that is declared. A step makes at most two.
-/
namespace Lox

/-- What a frame is made for. -/
inductive Region where
  | block (body : List Stmt)
  | body (decl : FunctionDecl)
  /-- The frame that binds `this` for a method. -/
  | receiver (decl : FunctionDecl)
  /-- The frame that binds `super` for the methods of a class. -/
  | heritage (methods : List FunctionDecl)

namespace Interpreter

def createdByProperty (i : Interpreter) (object : Value) (name : String) : List (Handle × Region) :=
  match object with
  | .instance id =>
    match i.store.field? id name, (i.store.parent? id).bind (·.findMethod? name) with
    | none, some method => [((i.store.create method.closure).1, .receiver method.decl)]
    | _, _ => []
  | _ => []

def createdBySuper (i : Interpreter) (ref : Reference) (name : String) : List (Handle × Region) :=
  match i.superMethod ref name with
  | (.ok (.function f), _) => [(f.closure, .receiver f.decl)]
  | _ => []

end Interpreter

namespace Machine

def createdByCallFunction (f : Function) (i : Interpreter) : List (Handle × Region) :=
  if i.store.arena.contains f.closure then [((i.enter f.closure).active, .body f.decl)] else []

def createdByInstantiate (c : Class) (i : Interpreter) : List (Handle × Region) :=
  let (id, store) := i.store.allocate (.instance c Bindings.empty)
  match c.findMethod? initializerName with
  | none => []
  | some method =>
    let (f, store) := store.bind method (.instance id)
    (f.closure, .receiver method.decl) :: createdByCallFunction f { i with store := store }

def createdByCall (callee : Value) (arguments : List Value) (i : Interpreter) :
    List (Handle × Region) :=
  if callee.arity? = some arguments.length then
    match callee with
    | .function f => createdByCallFunction f i
    | .classObject c => createdByInstantiate c i
    | _ => []
  else []

/-- The frames that the next step makes, with what they are made for. -/
def created : Machine → List (Handle × Region)
  | ⟨.eval (.super ref method), _, i⟩ => i.createdBySuper ref method.text
  | ⟨.exec (.block body), _, i⟩ => [((i.enter i.active).active, .block body)]
  | ⟨.yield v, .callee _ [] :: _, i⟩ => createdByCall v [] i
  | ⟨.yield v, .argument _ callee ready [] :: _, i⟩ => createdByCall callee (ready ++ [v]) i
  | ⟨.yield v, .get name :: _, i⟩ => i.createdByProperty v name.text
  | ⟨.yield (.classObject _), .superclass name _ methods :: _, i⟩ =>
    [(((i.define name.text .nil).enter i.active).active, .heritage methods)]
  | _ => []

end Machine
end Lox
