import Lox.Interpreter

/-!
# The abstract machine

Programs run in small steps. A machine has a control, which is what is being worked on, a stack
of continuations, which is what remains to be done around it, and the state of the interpreter.
`step` is one non-recursive case distinction: an expression or statement either yields a result or
is taken apart, and a result is handed to the innermost continuation.

Whoever is given a value owns one reference to it. A continuation that is dropped on the way
out of a failure gives up the values that it holds.
-/
namespace Lox

inductive Control where
  | eval (e : Expr)
  | exec (s : Stmt)
  /-- An expression has this value. -/
  | yield (v : Value)
  /-- A statement has run to its end. -/
  | done
  /-- A `return` is on its way to the nearest call. -/
  | returning (v : Value)
  | failed (f : Failure)
  /-- The program asked for a wait longer than any clock can wait. -/
  | crashed

inductive Cont where
  | unary (op : UnaryOp) (line : Nat)
  | left (op : BinaryOp) (line : Nat) (right : Expr)
  | right (op : BinaryOp) (line : Nat) (left : Value)
  | logical (op : LogicalOp) (right : Expr)
  | assign (ref : Reference)
  | callee (line : Nat) (arguments : List Expr)
  | argument (line : Nat) (callee : Value) (ready : List Value) (rest : List Expr)
  | get (name : Ident)
  | target (name : Ident) (value : Expr)
  | field (receiver : ObjectId) (name : Ident)
  | drop
  | print
  | define (name : Ident)
  | branch (yes : Stmt) (no : Option Stmt)
  | test (condition : Expr) (body : Stmt)
  | round (condition : Expr) (body : Stmt)
  | sequence (rest : List Stmt)
  | leave (previous frame : Handle)
  | result
  | superclass (name parent : Ident) (methods : List FunctionDecl)
  | finish (f : Function)
  | construct (receiver : ObjectId)

structure Machine where
  control : Control
  stack : List Cont
  state : Interpreter

namespace Machine

def fail (line : Nat) (cause : RuntimeError) : Control := .failed (.runtime line cause)

def ofResult (line : Nat) : Except RuntimeError Value → Control
  | .ok v => .yield v
  | .error cause => fail line cause

/-! ## Calls -/

/-- Runs the body of a function in a frame that binds its parameters. -/
def callFunction (line : Nat) (f : Function) (arguments : List Value) (stack : List Cont)
    (i : Interpreter) : Machine :=
  if i.store.arena.contains f.closure then
    let previous := i.active
    let i := i.enter f.closure
    let i := (f.decl.params.zip arguments).foldl (fun i (p, v) => i.define p.text v) i
    ⟨.done, .sequence f.decl.body :: .leave previous i.active :: .finish f :: stack, i⟩
  else
    ⟨fail line (.outlivedScope f.name), stack,
      ((i.discardAll arguments).discard (.function f)).drain⟩

/-- Makes an instance, and calls the initializer on it if the class has one. -/
def instantiate (line : Nat) (c : Class) (arguments : List Value) (stack : List Cont)
    (i : Interpreter) : Machine :=
  let (id, store) := i.store.allocate (.instance c Bindings.empty)
  match c.findMethod? initializerName with
  | none => ⟨.yield (.instance id), stack, { i with store := store }⟩
  | some method =>
    let (f, store) := store.bind method (.instance id)
    callFunction line f arguments (.construct id :: stack) { i with store := store }

def callArrayMethod (id : ObjectId) (method : ArrayMethod) (arguments : List Value)
    (i : Interpreter) : Value × Interpreter :=
  match method, arguments with
  | .get, index :: _ =>
    let v := i.store.element id index
    (v, i.retain v)
  | .set, index :: v :: _ =>
    let (v, store) := i.store.setElement id index v
    (v, { i with store := store.retain v })
  | _, _ => (.nil, i)

def call (line : Nat) (callee : Value) (arguments : List Value) (stack : List Cont)
    (i : Interpreter) : Machine :=
  match callee.arity? with
  | none => ⟨fail line .notCallable, stack, (i.discardAll arguments).discard callee⟩
  | some arity =>
    if arguments.length = arity then
      match callee with
      | .native n =>
        match i.callNative n arguments with
        | (.value v, i) => ⟨.yield v, stack, i.discardAll arguments⟩
        | (.error cause, i) => ⟨fail line cause, stack, i.discardAll arguments⟩
        | (.crash, i) => ⟨.crashed, stack, i⟩
      | .function f => callFunction line f arguments stack i
      | .classObject c => instantiate line c arguments stack i
      | .arrayMethod id method =>
        let (v, i) := callArrayMethod id method arguments i
        ⟨.yield v, stack, (i.discardAll arguments).discard callee⟩
      | _ => ⟨fail line .notCallable, stack, (i.discardAll arguments).discard callee⟩
    else
      ⟨fail line (.argumentCount arity arguments.length), stack,
        (i.discardAll arguments).discard callee⟩

/-- The value of a call whose body ended with `v`. An initializer always gives its instance. -/
def callResult (f : Function) (v : Value) (i : Interpreter) : Value × Interpreter :=
  if f.isInitializer then
    let this := (i.store.arena.find? f.closure "this").getD .nil
    (this, (i.retain this).discard v)
  else (v, i)

/-- A bound method that nothing else refers to takes its frame with it when the call is over. -/
def finishCall (f : Function) (v : Value) (stack : List Cont) (i : Interpreter) : Machine :=
  let (v, i) := callResult f v i
  ⟨.yield v, stack, (i.discard (.function f)).drain⟩

/-! ## Steps -/

/-- Takes an expression apart. -/
def evalStep (e : Expr) (stack : List Cont) (i : Interpreter) : Machine :=
  match e with
  | .literal value => ⟨.yield (.ofLiteral value), stack, i⟩
  | .grouping inner => ⟨.eval inner, stack, i⟩
  | .unary op line operand => ⟨.eval operand, .unary op line :: stack, i⟩
  | .binary op line left right => ⟨.eval left, .left op line right :: stack, i⟩
  | .logical op _ left right => ⟨.eval left, .logical op right :: stack, i⟩
  | .variable ref | .this ref =>
    match i.lookup? ref with
    | some v => ⟨.yield v, stack, i.retain v⟩
    | none => ⟨fail ref.name.line (.undefinedVariable ref.name.text), stack, i⟩
  | .assign ref value => ⟨.eval value, .assign ref :: stack, i⟩
  | .call callee line arguments => ⟨.eval callee, .callee line arguments :: stack, i⟩
  | .get object name => ⟨.eval object, .get name :: stack, i⟩
  | .set object name value => ⟨.eval object, .target name value :: stack, i⟩
  | .super ref method =>
    match i.superMethod ref method.text with
    | (.ok v, i) => ⟨.yield v, stack, i⟩
    | (.error (.undefinedProperty name), i) =>
      ⟨fail method.line (.undefinedProperty name), stack, i⟩
    | (.error cause, i) => ⟨fail ref.name.line cause, stack, i⟩

/-- Takes a statement apart. -/
def execStep (s : Stmt) (stack : List Cont) (i : Interpreter) : Machine :=
  match s with
  | .expression e => ⟨.eval e, .drop :: stack, i⟩
  | .print e => ⟨.eval e, .print :: stack, i⟩
  | .var name none => ⟨.done, stack, i.define name.text .nil⟩
  | .var name (some e) => ⟨.eval e, .define name :: stack, i⟩
  | .block body =>
    let previous := i.active
    let i := i.enter previous
    ⟨.done, .sequence body :: .leave previous i.active :: stack, i⟩
  | .branch condition yes no => ⟨.eval condition, .branch yes no :: stack, i⟩
  | .loop condition body => ⟨.eval condition, .test condition body :: stack, i⟩
  | .function decl => ⟨.done, stack, i.declareFunction decl⟩
  | .classDecl name none methods => ⟨.done, stack, i.declareClass name.text none methods⟩
  | .classDecl name (some parent) methods =>
    ⟨.eval (.variable parent), .superclass name parent.name methods :: stack, i⟩
  | .ret _ none => ⟨.returning .nil, stack, i⟩
  | .ret _ (some e) => ⟨.eval e, .result :: stack, i⟩

/-- Hands the value of an expression to the innermost continuation. -/
def yieldStep (v : Value) (k : Cont) (stack : List Cont) (i : Interpreter) : Machine :=
  match k with
  | .unary op line => ⟨ofResult line (op.apply v), stack, i.discard v⟩
  | .left op line right => ⟨.eval right, .right op line v :: stack, i⟩
  | .right op line left => ⟨ofResult line (op.apply left v), stack, (i.discard left).discard v⟩
  | .logical op right =>
    if v.isTruthy == (op == .or) then ⟨.yield v, stack, i⟩ else ⟨.eval right, stack, i.discard v⟩
  | .assign ref =>
    match (i.retain v).assign ref v with
    | (true, i) => ⟨.yield v, stack, i⟩
    | (false, i) =>
      ⟨fail ref.name.line (.undefinedVariable ref.name.text), stack, i.discard v⟩
  | .callee line [] => call line v [] stack i
  | .callee line (e :: rest) => ⟨.eval e, .argument line v [] rest :: stack, i⟩
  | .argument line callee ready [] => call line callee (ready ++ [v]) stack i
  | .argument line callee ready (e :: rest) =>
    ⟨.eval e, .argument line callee (ready ++ [v]) rest :: stack, i⟩
  | .get name =>
    let (result, i) := i.property v name.text
    ⟨ofResult name.line result, stack, i.discard v⟩
  | .target name value =>
    match v with
    | .instance id => ⟨.eval value, .field id name :: stack, i⟩
    | .array _ => ⟨fail name.line .arrayField, stack, i.discard v⟩
    | _ => ⟨fail name.line .noFields, stack, i.discard v⟩
  | .field receiver name =>
    let store := (i.store.retain v).setField receiver name.text v
    ⟨.yield v, stack, { i with store := store.discard (.instance receiver) }⟩
  | .drop => ⟨.done, stack, i.discard v⟩
  | .print =>
    match i.writeLine v with
    | (none, i) => ⟨.done, stack, i.discard v⟩
    | (some cause, i) => ⟨.failed (.output cause), stack, i.discard v⟩
  | .define name => ⟨.done, stack, i.define name.text v⟩
  | .branch yes no =>
    if v.isTruthy then ⟨.exec yes, stack, i.discard v⟩
    else
      match no with
      | some no => ⟨.exec no, stack, i.discard v⟩
      | none => ⟨.done, stack, i.discard v⟩
  | .test condition body =>
    if v.isTruthy then ⟨.exec body, .round condition body :: stack, i.discard v⟩
    else ⟨.done, stack, i.discard v⟩
  | .result => ⟨.returning v, stack, i⟩
  | .superclass name parent methods =>
    match v with
    | .classObject c => ⟨.done, stack, i.declareClass name.text (some c) methods⟩
    | _ => ⟨fail parent.line .superclassNotClass, stack, i.discard v⟩
  | .construct receiver => ⟨.yield (.instance receiver), stack, i.discard v⟩
  | .round .. | .sequence _ | .leave .. | .finish _ => ⟨.yield v, stack, i⟩

/-- A statement has ended: the innermost continuation goes on. -/
def doneStep (k : Cont) (stack : List Cont) (i : Interpreter) : Machine :=
  match k with
  | .sequence [] => ⟨.done, stack, i⟩
  | .sequence (s :: rest) => ⟨.exec s, .sequence rest :: stack, i⟩
  | .round condition body => ⟨.eval condition, .test condition body :: stack, i⟩
  | .leave previous frame => ⟨.done, stack, i.leave previous frame⟩
  | .finish f => finishCall f .nil stack i
  | _ => ⟨.done, stack, i⟩

/-- Statements around a `return` are left until the call is reached. -/
def returnStep (v : Value) (k : Cont) (stack : List Cont) (i : Interpreter) : Machine :=
  match k with
  | .leave previous frame => ⟨.returning v, stack, i.leave previous frame⟩
  | .finish f => finishCall f v stack i
  | _ => ⟨.returning v, stack, i⟩

/-- Everything around a failure is left, in order. -/
def failStep (failure : Failure) (k : Cont) (stack : List Cont) (i : Interpreter) : Machine :=
  let i := match k with
    | .right _ _ left => i.discard left
    | .argument _ callee ready _ => (i.discardAll ready).discard callee
    | .field receiver _ | .construct receiver => i.discard (.instance receiver)
    | .leave previous frame => i.leave previous frame
    | .finish f => (i.discard (.function f)).drain
    | _ => i
  ⟨.failed failure, stack, i⟩

def step (m : Machine) : Machine :=
  match m with
  | ⟨.eval e, stack, i⟩ => evalStep e stack i
  | ⟨.exec s, stack, i⟩ => execStep s stack i
  | ⟨.yield v, k :: stack, i⟩ => yieldStep v k stack i
  | ⟨.done, k :: stack, i⟩ => doneStep k stack i
  | ⟨.returning v, k :: stack, i⟩ => returnStep v k stack i
  | ⟨.failed failure, k :: stack, i⟩ => failStep failure k stack i
  | m => m

/-- Is there nothing left to do? -/
def isFinal : Machine → Bool
  | ⟨.eval _, _, _⟩ | ⟨.exec _, _, _⟩ => false
  | ⟨.crashed, _, _⟩ => true
  | ⟨_, stack, _⟩ => stack.isEmpty

/-- Runs until nothing is left to do, but no more than `fuel` steps. -/
def run (fuel : Nat) (m : Machine) : Machine :=
  match fuel with
  | 0 => m
  | fuel + 1 => if m.isFinal then m else run fuel m.step

end Machine
end Lox
