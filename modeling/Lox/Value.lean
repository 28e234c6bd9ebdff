import Lox.Bindings
import Lox.Program

/-!
# Values

Functions and classes never change once they are made, so they are kept as they are, with a stamp
that gives them an identity. Instances and arrays change and can be shared; a value only holds the
address of such an object.
-/
namespace Lox

/-- The address of a frame. A slot that is used again gets another generation. -/
structure Handle where
  index : Nat
  generation : Nat
  deriving DecidableEq, Repr

/-- The frame without an enclosing frame. -/
def Handle.globals : Handle := ⟨0, 0⟩

/-- The address of an instance, an array or the binding of a method. -/
abbrev ObjectId := Nat

inductive Native where
  | clock | sleep | clear | array
  deriving DecidableEq, Repr

namespace Native

def name : Native → String
  | clock => "clock"
  | sleep => "sleep"
  | clear => "clear"
  | array => "Array"

def arity : Native → Nat
  | clock | clear => 0
  | sleep | array => 1

def all : List Native := [clock, sleep, clear, array]

end Native

inductive ArrayMethod where
  | get | set
  deriving DecidableEq, Repr

namespace ArrayMethod

def name : ArrayMethod → String
  | get => "get"
  | set => "set"

def arity : ArrayMethod → Nat
  | get => 1
  | set => 2

end ArrayMethod

/-- A declaration together with the frame it closes over. A method that was bound to an instance
closes over a frame of its own, which lives as long as the object `binding`. -/
structure Function where
  stamp : Nat
  decl : FunctionDecl
  closure : Handle
  isInitializer : Bool
  binding : Option ObjectId

namespace Function

def name (f : Function) : String := f.decl.name.text

def arity (f : Function) : Nat := f.decl.params.length

end Function

structure Class where
  stamp : Nat
  name : String
  superclass : Option Class
  methods : Bindings Function

namespace Class

/-- The method of this name in the nearest class along the chain of superclasses. -/
def findMethod? (c : Class) (name : String) : Option Function :=
  match c with
  | ⟨_, _, none, methods⟩ => methods.find? name
  | ⟨_, _, some parent, methods⟩ =>
    match methods.find? name with
    | some method => some method
    | none => parent.findMethod? name

/-- A call of the class takes what its initializer takes. -/
def arity (c : Class) : Nat :=
  match c.findMethod? initializerName with
  | some method => method.arity
  | none => 0

/-- The frames that the methods of the class and of its superclasses close over. -/
def closures (c : Class) : List Handle :=
  match c with
  | ⟨_, _, none, methods⟩ => methods.values.map Function.closure
  | ⟨_, _, some parent, methods⟩ => methods.values.map Function.closure ++ parent.closures

end Class

inductive Value where
  | nil
  | boolean (b : Bool)
  | number (x : Float)
  | string (s : String)
  | native (n : Native)
  | function (f : Function)
  | classObject (c : Class)
  | instance (id : ObjectId)
  | array (id : ObjectId)
  | arrayMethod (id : ObjectId) (method : ArrayMethod)
  deriving Inhabited

namespace Value

def ofLiteral : Literal → Value
  | .number x => number x
  | .string s => string s
  | .boolean b => boolean b
  | .nil => nil

/-- Only `nil` and `false` count as false. -/
def isTruthy : Value → Bool
  | nil | boolean false => false
  | _ => true

def typeName : Value → String
  | nil => "nil"
  | boolean _ => "boolean"
  | number _ => "number"
  | string _ => "string"
  | native _ | function _ | arrayMethod _ _ => "function"
  | classObject _ => "class"
  | .instance _ => "instance"
  | array _ => "array"

/-- How many arguments a call takes, for what can be called. -/
def arity? : Value → Option Nat
  | native n => some n.arity
  | function f => some f.arity
  | classObject c => some c.arity
  | arrayMethod _ method => some method.arity
  | _ => none

/-- Equality of the language: by value for plain data, by identity for all else. -/
def same : Value → Value → Bool
  | nil, nil => true
  | boolean a, boolean b => a == b
  | number a, number b => a == b
  | string a, string b => a == b
  | native a, native b => a == b
  | function a, function b => a.stamp == b.stamp && a.binding == b.binding
  | classObject a, classObject b => a.stamp == b.stamp
  | .instance a, .instance b => a == b
  | array a, array b => a == b
  | arrayMethod a m, arrayMethod b n => a == b && m == n
  | _, _ => false

/-- The object that the value keeps alive. -/
def object? : Value → Option ObjectId
  | .instance id | array id | arrayMethod id _ => some id
  | function f => f.binding
  | _ => none

end Value
end Lox
