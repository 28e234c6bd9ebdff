import Lox.Clock
import Lox.Resolution
import Lox.Sink
import Lox.Store.Display
import Lox.Store.Trace

/-!
# The state of an interpreter

What lasts from one statement to the next, and the operations of the language that need no control
flow: operators, variables, properties, the creation of functions and classes, built-in functions.
-/
namespace Lox

/-- Why an evaluation ended early. -/
inductive Failure where
  | runtime (line : Nat) (cause : RuntimeError)
  | output (cause : OutputError)
  deriving DecidableEq, Repr

def Failure.diagnostic : Failure → Diagnostic
  | runtime line cause => .runtime line cause
  | output cause => .output cause

structure Interpreter where
  store : Store
  /-- The frame in which names are looked up and declared. -/
  active : Handle
  distances : Distances
  sink : Sink
  clock : Clock

def UnaryOp.apply : UnaryOp → Value → Except RuntimeError Value
  | negate, .number x => .ok (.number (-x))
  | negate, _ => .error .operandNotNumber
  | not, v => .ok (.boolean !v.isTruthy)

namespace BinaryOp

def arithmetic (op : BinaryOp) (x y : Float) : Except RuntimeError Value :=
  match op with
  | add => .ok (.number (x + y))
  | subtract => .ok (.number (x - y))
  | multiply => .ok (.number (x * y))
  | divide => if y == 0 then .error .divisionByZero else .ok (.number (x / y))
  | modulo => if y == 0 then .error .moduloByZero else .ok (.number (Number.remainder x y))
  | greater => .ok (.boolean (y < x))
  | greaterEqual => .ok (.boolean (y ≤ x))
  | less => .ok (.boolean (x < y))
  | lessEqual => .ok (.boolean (x ≤ y))
  | equal => .ok (.boolean (x == y))
  | notEqual => .ok (.boolean (x != y))

/-- Sums of numbers; a text takes a text or the printed form of a number on either side. -/
def sum : Value → Value → Except RuntimeError Value
  | .number x, .number y => arithmetic add x y
  | .string a, .string b => .ok (.string (a ++ b))
  | .string a, .number y => .ok (.string (a ++ NumberFormat.display.write y))
  | .number x, .string b => .ok (.string (NumberFormat.display.write x ++ b))
  | _, _ => .error .operandsNotAddable

def apply (op : BinaryOp) (left right : Value) : Except RuntimeError Value :=
  match op with
  | add => sum left right
  | equal => .ok (.boolean (left.same right))
  | notEqual => .ok (.boolean !(left.same right))
  | _ =>
    match left, right with
    | .number x, .number y => op.arithmetic x y
    | _, _ => .error (.operandsNotNumbers op.symbol)

end BinaryOp

/-- The longest array that a program can make. -/
def maxArrayLength : Nat := Nat.pow 2 24

namespace Interpreter

/-- The built-in functions are globals from the start. -/
def new (sink : Sink) (clock : Clock) : Interpreter where
  store := Native.all.foldl (fun s n => s.define .globals n.name (.native n)) Store.empty
  active := .globals
  distances := {}
  sink := sink
  clock := clock

/-- Adds what resolution has found to what it found before. -/
def learn (i : Interpreter) (distances : List (Nat × Nat)) : Interpreter :=
  { i with distances := distances.foldl (fun t (id, d) => t.insert id d) i.distances }

def globalNames (i : Interpreter) : List String := i.store.arena.names .globals

def retain (i : Interpreter) (v : Value) : Interpreter := { i with store := i.store.retain v }

def discard (i : Interpreter) (v : Value) : Interpreter := { i with store := i.store.discard v }

def discardAll (i : Interpreter) (values : List Value) : Interpreter :=
  { i with store := i.store.discardAll values }

def drain (i : Interpreter) : Interpreter := { i with store := i.store.drain.2 }

/-! ## Variables -/

/-- A reference with a distance means that frame around the active one, others a global. -/
def lookup? (i : Interpreter) (ref : Reference) : Option Value :=
  match i.distances[ref.id]? with
  | some distance => i.store.arena.findAt? i.active distance ref.name.text
  | none => i.store.arena.find? .globals ref.name.text

def assign (i : Interpreter) (ref : Reference) (v : Value) : Bool × Interpreter :=
  match i.distances[ref.id]? with
  | some distance =>
    let (found, store) := i.store.assignAt i.active distance ref.name.text v
    (found, { i with store := store })
  | none =>
    let (found, store) := i.store.assign .globals ref.name.text v
    (found, { i with store := store })

def define (i : Interpreter) (name : String) (v : Value) : Interpreter :=
  { i with store := i.store.define i.active name v }

/-- Goes into a new frame inside `enclosing`. -/
def enter (i : Interpreter) (enclosing : Handle) : Interpreter :=
  let (frame, store) := i.store.create enclosing
  { i with store := store, active := frame }

/-- Leaves a frame for `previous`. Unless a closure refers to it, it is freed. -/
def leave (i : Interpreter) (previous frame : Handle) : Interpreter :=
  { i with store := (i.store.release frame).2.drain.2, active := previous }

/-! ## Functions and classes -/

/-- A function that closes over the active frame, which is captured. -/
def closeOver (i : Interpreter) (decl : FunctionDecl) (isInitializer : Bool) :
    Function × Interpreter :=
  let (f, store) := (i.store.capture i.active).closeOver decl i.active isInitializer
  (f, { i with store := store })

def declareFunction (i : Interpreter) (decl : FunctionDecl) : Interpreter :=
  let (f, i) := i.closeOver decl false
  i.define decl.name.text (.function f)

/-- Of two methods with one name the later one counts. -/
def closeOverMethods (i : Interpreter) (table : Bindings Function) :
    List FunctionDecl → Bindings Function × Interpreter
  | [] => (table, i)
  | decl :: rest =>
    let (f, i) := i.closeOver decl (decl.name.text = initializerName)
    i.closeOverMethods (table.insert decl.name.text f) rest

/-- The methods of a class with a superclass close over a frame that binds `super`. -/
def closeOverDerived (i : Interpreter) (parent : Class) (methods : List FunctionDecl) :
    Bindings Function × Interpreter :=
  let outer := i.active
  let inner := (i.enter outer).define "super" (.classObject parent)
  let (table, i) := inner.closeOverMethods Bindings.empty methods
  (table, { i with store := (i.store.release i.active).2, active := outer })

/-- The name of a class is bound before its methods are made, so that they can refer to it. -/
def declareClass (i : Interpreter) (name : String) (superclass : Option Class)
    (methods : List FunctionDecl) : Interpreter :=
  let i := i.define name .nil
  let (table, i) := match superclass with
    | none => i.closeOverMethods Bindings.empty methods
    | some parent => i.closeOverDerived parent methods
  let (c, store) := i.store.makeClass name superclass table
  { i with store := store }.define name (.classObject c)

/-! ## Properties -/

/-- Reads a property. A field hides a method of the same name; a method that is found is bound to
the instance. The caller keeps the object and receives the result. -/
def property (i : Interpreter) (object : Value) (name : String) :
    Except RuntimeError Value × Interpreter :=
  match object with
  | .instance id =>
    match i.store.field? id name with
    | some v => (.ok v, i.retain v)
    | none =>
      match (i.store.parent? id).bind (·.findMethod? name) with
      | some method =>
        let (f, store) := i.store.bind method object
        (.ok (.function f), { i with store := store })
      | none => (.error (.undefinedProperty name), i)
  | .array id =>
    match name with
    | "get" => (.ok (.arrayMethod id .get), i.retain object)
    | "set" => (.ok (.arrayMethod id .set), i.retain object)
    | "length" => (.ok (.number (Float.ofNat (i.store.length id))), i)
    | _ => (.error (.undefinedProperty name), i)
  | _ => (.error .noProperties, i)

/-- The method `name` of the superclass around the running method, bound to its instance. `this` is
bound one frame further in than `super`. -/
def superMethod (i : Interpreter) (ref : Reference) (name : String) :
    Except RuntimeError Value × Interpreter :=
  match i.distances[ref.id]? with
  | none => (.error .superOutsideClass, i)
  | some distance =>
    match i.store.arena.findAt? i.active distance "super" with
    | some (.classObject parent) =>
      let receiver? := match distance with
        | 0 => none
        | inner + 1 => i.store.arena.findAt? i.active inner "this"
      match receiver? with
      | some (.instance id) =>
        match parent.findMethod? name with
        | some method =>
          let (f, store) := i.store.bind method (.instance id)
          (.ok (.function f), { i with store := store })
        | none => (.error (.undefinedProperty name), i)
      | _ => (.error .superOutsideMethod, i)
    | _ => (.error .superclassNotClass, i)

/-! ## Output and built-in functions -/

def write (i : Interpreter) (text : String) : Option OutputError × Interpreter :=
  let (error, sink) := i.sink.write text
  (error, { i with sink := sink })

def writeLine (i : Interpreter) (v : Value) : Option OutputError × Interpreter :=
  i.write (i.store.display v ++ "\n")

/-- Clears a terminal and moves its cursor home. -/
def clearSequence : String := "\x1b[2J\x1b[1;1H"

inductive NativeResult where
  | value (v : Value)
  | error (cause : RuntimeError)
  | crash

/-- Calls a built-in function. The caller keeps the arguments and receives the result. -/
def callNative (i : Interpreter) (n : Native) (arguments : List Value) :
    NativeResult × Interpreter :=
  match n, arguments with
  | .clock, _ =>
    let (seconds, clock) := i.clock.read
    (.value (.number seconds), { i with clock := clock })
  | .sleep, .number x :: _ =>
    if x.isFinite && 0 ≤ x then
      match i.clock.wait? x with
      | some clock => (.value (.boolean true), { i with clock := clock })
      | none => (.crash, i)
    else (.error .sleepArgument, i)
  | .sleep, _ => (.error .sleepArgument, i)
  | .clear, _ =>
    match i.write clearSequence with
    | (some cause, i) => (.error (.clearFailed cause), i)
    | (none, i) =>
      match i.sink.flush with
      | some cause => (.error (.clearFailed cause), i)
      | none => (.value (.boolean true), i)
  | .array, .number x :: _ =>
    match Number.toNat? x with
    | none => (.error .arraySizeNotWhole, i)
    | some size =>
      if maxArrayLength < size then (.error (.arrayTooLarge maxArrayLength), i)
      else
        let (id, store) := i.store.allocate (.array (Array.replicate size .nil))
        (.value (.array id), { i with store := store })
  | .array, v :: _ =>
    let (id, store) := (i.store.retain v).allocate (.array #[v])
    (.value (.array id), { i with store := store })
  | .array, [] =>
    let (id, store) := i.store.allocate (.array #[])
    (.value (.array id), { i with store := store })

end Interpreter
end Lox
