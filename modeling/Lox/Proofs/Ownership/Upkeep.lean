import Lox.Proofs.Failures
import Lox.Proofs.Growth
import Lox.Proofs.Reclamation.Machine

/-!
# What all operations keep

Programs change the store in few ways. What each of these keeps, with the frames in which something
runs, is kept by every step of a machine. This is shown here once, for any such property. What is kept by all
of them but for writes to arrays is kept by every step that does not write to an array.
-/
namespace Lox

/-- Every way in which the store is changed keeps `K`, of the frames that have been entered and are
still to be left and of the store. A frame of a binding is handed over to the binding. -/
structure Store.Upkeep (K : List Handle → Store → Prop) : Prop where
  retain : ∀ {l s}, K l s → ∀ v, K l (s.retain v)
  discardObjects : ∀ {l s}, K l s → ∀ ids, K l (s.discardObjects ids)
  define : ∀ {l s}, K l s → ∀ h name v, K l (s.define h name v)
  create : ∀ {l s}, K l s → ∀ enclosing, K ((s.create enclosing).1 :: l) (s.create enclosing).2
  release : ∀ {l s h}, K (h :: l) s → K l (s.release h).2
  drain : ∀ {l s}, K l s → K l s.drain.2
  collect : ∀ {l s}, K l s → ∀ roots, K l (s.collect roots).2
  closeOver : ∀ {l s}, K l s → ∀ decl h isInitializer,
    K l ((s.capture h).closeOver decl h isInitializer).2
  makeClass : ∀ {l s}, K l s → ∀ name superclass methods, K l (s.makeClass name superclass methods).2
  allocate : ∀ {l s p}, p.owned = [] → K l s → K l (s.allocate p).2
  guard : ∀ {l s h}, K (h :: l) s → ∀ f, K l (s.guard f h).2
  modify : ∀ {l s id f}, (∀ p : Payload, (f p).owned = p.owned) → K l s →
    K l { s with heap := s.heap.modify id f }

/-- Every way in which the store is changed keeps `K`, but for a write to an array. -/
structure Store.Housekeeping (K : List Handle → Store → Prop) : Prop where
  retain : ∀ {l s}, K l s → ∀ v, K l (s.retain v)
  discardObjects : ∀ {l s}, K l s → ∀ ids, K l (s.discardObjects ids)
  define : ∀ {l s}, K l s → ∀ h name v, K l (s.define h name v)
  create : ∀ {l s}, K l s → ∀ enclosing, K ((s.create enclosing).1 :: l) (s.create enclosing).2
  release : ∀ {l s h}, K (h :: l) s → K l (s.release h).2
  drain : ∀ {l s}, K l s → K l s.drain.2
  closeOver : ∀ {l s}, K l s → ∀ decl h isInitializer,
    K l ((s.capture h).closeOver decl h isInitializer).2
  makeClass : ∀ {l s}, K l s → ∀ name superclass methods, K l (s.makeClass name superclass methods).2
  allocate : ∀ {l s p}, p.owned = [] → K l s → K l (s.allocate p).2
  guard : ∀ {l s h}, K (h :: l) s → ∀ f, K l (s.guard f h).2
  setField : ∀ {l s}, K l s → ∀ id name v, K l (s.setField id name v)

namespace Store

variable {K : List Handle → Store → Prop} {l : List Handle} {s : Store}

theorem keeps_discard (hdiscard : ∀ {l s}, K l s → ∀ ids, K l (s.discardObjects ids)) (hs : K l s)
    (v : Value) : K l (s.discard v) := by
  unfold Store.discard
  split
  · exact hdiscard hs _
  · exact hs

namespace Upkeep

variable (hK : Upkeep K)

include hK

theorem discard (hs : K l s) (v : Value) : K l (s.discard v) := keeps_discard hK.discardObjects hs v

theorem setField (hs : K l s) (id : ObjectId) (name : String) (v : Value) :
    K l (s.setField id name v) := by
  have hmodify : K l { s with heap := s.heap.modify id (Payload.setField name v) } :=
    hK.modify (fun p => by cases p <;> rfl) hs
  unfold Store.setField
  dsimp only
  split
  · exact hK.discard hmodify _
  · exact hmodify

theorem setElement (hs : K l s) (id : ObjectId) (index v : Value) :
    K l (s.setElement id index v).2 := by
  unfold Store.setElement
  split
  · exact hK.discard (hK.modify (fun p => by cases p <;> rfl) (hK.retain hs v)) _
  · exact hs

theorem housekeeping : Housekeeping K where
  retain := hK.retain
  discardObjects := hK.discardObjects
  define := hK.define
  create := hK.create
  release := hK.release
  drain := hK.drain
  closeOver := hK.closeOver
  makeClass := hK.makeClass
  allocate := hK.allocate
  guard := hK.guard
  setField := hK.setField

end Upkeep

namespace Housekeeping

variable (hK : Housekeeping K)

include hK

theorem discard (hs : K l s) (v : Value) : K l (s.discard v) := keeps_discard hK.discardObjects hs v

theorem discardAll (hs : K l s) (values : List Value) : K l (s.discardAll values) :=
  hK.discardObjects hs _

theorem assign (hs : K l s) (h : Handle) (name : String) (v : Value) : K l (s.assign h name v).2 := by
  unfold Store.assign
  split
  · exact hK.define hs h name v
  · exact hK.discard hs v

theorem assignAt (hs : K l s) (h : Handle) (distance : Nat) (name : String) (v : Value) :
    K l (s.assignAt h distance name v).2 := by
  unfold Store.assignAt
  split
  · exact hK.assign hs _ name v
  · exact hK.discard hs v

/-- The frame of a bound method is entered only for as long as `this` is bound there. -/
theorem bind (hs : K l s) (method : Function) (receiver : Value) : K l (s.bind method receiver).2 :=
  hK.guard (hK.define (hK.retain (hK.create hs method.closure) receiver) _ "this" receiver) method

end Housekeeping
end Store

open Store (Housekeeping Upkeep)

namespace Interpreter

variable {K : List Handle → Store → Prop} (hK : Housekeeping K) {l : List Handle} {i : Interpreter}
  (hi : K l i.store)

include hK hi

theorem upkeep_assign (ref : Reference) (v : Value) : K l (i.assign ref v).2.store := by
  unfold assign
  split
  · exact hK.assignAt hi _ _ _ v
  · exact hK.assign hi _ _ v

theorem upkeep_declareFunction (decl : FunctionDecl) : K l (i.declareFunction decl).store :=
  hK.define (hK.closeOver hi decl i.active false) _ _ _

omit hi in
theorem upkeep_closeOverMethods {i : Interpreter} (hi : K l i.store) (table : Bindings Function)
    (methods : List FunctionDecl) : K l (i.closeOverMethods table methods).2.store := by
  induction methods generalizing i table with
  | nil => exact hi
  | cons decl rest ih => exact ih (hK.closeOver hi decl i.active (decl.name.text = initializerName)) _

/-- The frame that binds `super` is left when the methods have been made. -/
theorem upkeep_closeOverDerived (parent : Class) (methods : List FunctionDecl) :
    K l (i.closeOverDerived parent methods).2.store := by
  have hinner : K ((i.enter i.active).active :: l)
      ((i.enter i.active).define "super" (.classObject parent)).store :=
    hK.define (hK.create hi i.active) _ "super" _
  have hmethods := upkeep_closeOverMethods hK hinner Bindings.empty methods
  have hactive := closeOverMethods_active ((i.enter i.active).define "super" (.classObject parent))
    Bindings.empty methods
  rw [show (i.enter i.active).active = _ from hactive.symm] at hmethods
  exact hK.release hmethods

theorem upkeep_declareClass (name : String) (superclass : Option Class) (methods : List FunctionDecl) :
    K l (i.declareClass name superclass methods).store := by
  have hnil : K l (i.define name .nil).store := hK.define hi i.active name .nil
  cases superclass with
  | none =>
    have hmethods := upkeep_closeOverMethods hK hnil Bindings.empty methods
    have hclass := hK.makeClass hmethods name none
      ((i.define name .nil).closeOverMethods Bindings.empty methods).1
    exact hK.define hclass _ name _
  | some parent =>
    have hmethods := upkeep_closeOverDerived hK hnil parent methods
    have hclass := hK.makeClass hmethods name (some parent)
      ((i.define name .nil).closeOverDerived parent methods).1
    exact hK.define hclass _ name _

theorem upkeep_callNative (n : Native) (arguments : List Value) :
    K l (i.callNative n arguments).2.store := by
  have hwrite : ∀ text, K l (i.write text).2.store := fun _ => hi
  unfold callNative
  split
  · exact hi
  · split
    · split <;> exact hi
    · exact hi
  · exact hi
  · have hclear := hwrite clearSequence
    split <;> rename_i heq <;> rw [heq] at hclear
    · exact hclear
    · split <;> exact hclear
  · split
    · exact hi
    · split
      · exact hi
      · exact hK.allocate rfl hi
  · exact hK.allocate rfl (hK.retain hi _)
  · exact hK.allocate rfl hi

theorem upkeep_property (object : Value) (name : String) : K l (i.property object name).2.store := by
  unfold property
  split
  · split
    · exact hK.retain hi _
    · split
      · exact hK.bind hi _ _
      · exact hi
  · next id =>
    split
    · exact hK.retain hi (.array id)
    · exact hK.retain hi (.array id)
    · exact hi
    · exact hi
  · exact hi

theorem upkeep_superMethod (ref : Reference) (name : String) : K l (i.superMethod ref name).2.store := by
  unfold superMethod
  split
  · exact hi
  · split
    · dsimp only
      split
      · split
        · exact hK.bind hi _ _
        · exact hi
      · exact hi
    · exact hi

omit hi in
theorem upkeep_foldl_define {i : Interpreter} (hi : K l i.store) (bindings : List (Ident × Value)) :
    K l (bindings.foldl (fun i (p, v) => i.define p.text v) i).store := by
  induction bindings generalizing i with
  | nil => exact hi
  | cons binding rest ih => exact ih (hK.define hi i.active _ _)

omit hi in
theorem upkeep_leave {previous frame : Handle} (hi : K (frame :: l) i.store) :
    K l (i.leave previous frame).store :=
  hK.drain (hK.release hi)

end Interpreter

namespace Machine

/-- The frames that the stack will leave. -/
def entered (stack : List Cont) : List Handle := (activations stack).map Activation.frame

variable {K : List Handle → Store → Prop} (hK : Housekeeping K) {stack : List Cont} {i : Interpreter}
  (hi : K (entered stack) i.store)

/-- What is kept, said of a machine. -/
def Keeps (K : List Handle → Store → Prop) (m : Machine) : Prop := K (entered m.stack) m.state.store

/-- A call that writes to an array keeps `K`. -/
def KeepsWrites (K : List Handle → Store → Prop) (callee : Value) (arguments : List Value) : Prop :=
  ∀ id index v, callee = .arrayMethod id .set → arguments = [index, v] →
    ∀ {l s}, K l s → K l (s.setElement id index v).2

include hK hi

theorem keeps_giveUp (c : Control) (values : List Value) (v : Value) :
    Keeps K ⟨c, stack, (i.discardAll values).discard v⟩ :=
  hK.discard (hK.discardAll hi values) v

theorem keeps_callFunction (line : Nat) (f : Function) (arguments : List Value) :
    Keeps K (callFunction line f arguments stack i) := by
  unfold callFunction
  split
  · have henter : K ((i.enter f.closure).active :: entered stack) (i.enter f.closure).store :=
      hK.create hi f.closure
    have hbind := Interpreter.upkeep_foldl_define hK henter (f.decl.params.zip arguments)
    rw [← Interpreter.foldl_define_active (f.decl.params.zip arguments) (i.enter f.closure)] at hbind
    exact hbind
  · exact hK.drain (keeps_giveUp hK hi .done arguments (.function f))

theorem keeps_instantiate (line : Nat) (c : Class) (arguments : List Value) :
    Keeps K (instantiate line c arguments stack i) := by
  unfold instantiate
  dsimp only
  have hallocate := hK.allocate (p := .instance c Bindings.empty) rfl hi
  split
  · exact hallocate
  · next method _ =>
    let receiver := (i.store.allocate (.instance c Bindings.empty)).1
    have hbind : K (entered (.construct receiver :: stack))
        { i with store := ((i.store.allocate (.instance c Bindings.empty)).2.bind method
          (.instance receiver)).2 }.store := hK.bind hallocate method (.instance receiver)
    exact keeps_callFunction hK hbind line _ arguments

theorem keeps_callArrayMethod (id : ObjectId) (method : ArrayMethod) (arguments : List Value)
    (harity : arguments.length = method.arity) (hset : KeepsWrites K (.arrayMethod id method) arguments) :
    K (entered stack) (callArrayMethod id method arguments i).2.store := by
  unfold callArrayMethod
  split
  · exact hK.retain hi _
  · next index v more =>
    cases List.length_eq_zero_iff.1 (Nat.add_right_cancel (m := 2) harity)
    exact hK.retain (hset id index v rfl rfl hi) _
  · exact hi

theorem keeps_call (line : Nat) (callee : Value) (arguments : List Value)
    (hset : KeepsWrites K callee arguments) : Keeps K (call line callee arguments stack i) := by
  have hgive := fun c => keeps_giveUp hK hi c arguments callee
  unfold call
  split
  · exact hgive _
  · next arity harity =>
    split
    · next hlength =>
      split
      · next n =>
        have hnative := Interpreter.upkeep_callNative hK hi n arguments
        split <;> rename_i heq <;> rw [heq] at hnative
        · exact hK.discardAll hnative arguments
        · exact hK.discardAll hnative arguments
        · exact hnative
      · exact keeps_callFunction hK hi line _ arguments
      · exact keeps_instantiate hK hi line _ arguments
      · next id method =>
        have hmethod : arguments.length = method.arity := hlength.trans (Option.some.inj harity).symm
        exact keeps_giveUp hK (keeps_callArrayMethod hK hi id method arguments hmethod hset) _ arguments _
      · exact hgive _
    · exact hgive _

theorem keeps_finishCall (f : Function) (v : Value) : Keeps K (finishCall f v stack i) := by
  have hresult : K (entered stack) (callResult f v i).2.store := by
    unfold callResult
    split
    · exact hK.discard (hK.retain hi _) v
    · exact hi
  exact hK.drain (hK.discard hresult (.function f))

theorem keeps_evalStep (e : Expr) : Keeps K (evalStep e stack i) := by
  cases e with
  | «variable» ref | this ref =>
    unfold evalStep
    dsimp only
    split
    · exact hK.retain hi _
    · exact hi
  | super ref method =>
    have hsuper := Interpreter.upkeep_superMethod hK hi ref method.text
    unfold evalStep
    dsimp only
    split <;> rename_i heq <;> rw [heq] at hsuper <;> exact hsuper
  | _ => exact hi

theorem keeps_execStep (s : Stmt) : Keeps K (execStep s stack i) := by
  cases s with
  | var name initializer =>
    cases initializer with
    | none => exact hK.define hi i.active name.text .nil
    | some e => exact hi
  | block body => exact hK.create hi i.active
  | function decl => exact Interpreter.upkeep_declareFunction hK hi decl
  | classDecl name superclass methods =>
    cases superclass with
    | none => exact Interpreter.upkeep_declareClass hK hi name.text none methods
    | some parent => exact hi
  | ret line value => cases value <;> exact hi
  | _ => exact hi

omit hi

theorem keeps_yieldStep {k : Cont} (hi : K (entered (k :: stack)) i.store) (v : Value)
    (htakes : k.takesValue = true)
    (hset : ∀ callee arguments, call? ⟨.yield v, k :: stack, i⟩ = some (callee, arguments) →
      KeepsWrites K callee arguments) : Keeps K (yieldStep v k stack i) := by
  cases k with
  | unary op line | drop => exact hK.discard hi v
  | right op line left => exact hK.discard (hK.discard hi left) v
  | logical op e =>
    unfold yieldStep
    dsimp only
    split
    · exact hi
    · exact hK.discard hi v
  | assign ref =>
    have hassign := Interpreter.upkeep_assign hK (i := i.retain v) (hK.retain hi v) ref v
    unfold yieldStep
    dsimp only
    split <;> rename_i heq <;> rw [heq] at hassign
    · exact hassign
    · exact hK.discard hassign v
  | callee line arguments =>
    cases arguments with
    | nil =>
      have hstack : K (entered stack) i.store := hi
      exact keeps_call hK hstack line v [] (hset v [] rfl)
    | cons e rest => exact hi
  | argument line callee ready rest =>
    cases rest with
    | nil =>
      have hstack : K (entered stack) i.store := hi
      exact keeps_call hK hstack line callee (ready ++ [v]) (hset callee _ rfl)
    | cons e rest => exact hi
  | get name => exact hK.discard (Interpreter.upkeep_property hK hi v name.text) v
  | target name value =>
    have hdiscard := hK.discard hi v
    cases v <;> first | exact hi | exact hdiscard
  | field receiver name =>
    exact hK.discard (hK.setField (hK.retain hi v) receiver name.text v) (.instance receiver)
  | print =>
    have hwrite : K (entered stack) (i.writeLine v).2.store := hi
    unfold yieldStep
    dsimp only
    split <;> rename_i heq <;> rw [heq] at hwrite <;> exact hK.discard hwrite v
  | define name => exact hK.define hi i.active name.text v
  | branch yes no =>
    unfold yieldStep
    dsimp only
    split
    · exact hK.discard hi v
    · split <;> exact hK.discard hi v
  | test condition body =>
    unfold yieldStep
    dsimp only
    split <;> exact hK.discard hi v
  | superclass name parent methods =>
    have hdiscard := hK.discard hi v
    cases v with
    | classObject c => exact Interpreter.upkeep_declareClass hK hi name.text (some c) methods
    | _ => exact hdiscard
  | construct receiver => exact hK.discard hi v
  | left | result => exact hi
  | leave | round | sequence | finish => cases htakes

theorem keeps_doneStep {k : Cont} (hi : K (entered (k :: stack)) i.store) :
    Keeps K (doneStep k stack i) := by
  cases k with
  | sequence rest => cases rest <;> exact hi
  | leave previous frame => exact Interpreter.upkeep_leave hK hi
  | finish f => exact keeps_finishCall hK hi f .nil
  | _ => exact hi

theorem keeps_returnStep {k : Cont} (hi : K (entered (k :: stack)) i.store) (v : Value) :
    Keeps K (returnStep v k stack i) := by
  cases k with
  | leave previous frame => exact Interpreter.upkeep_leave hK hi
  | finish f => exact keeps_finishCall hK hi f v
  | _ => exact hi

theorem keeps_failStep {k : Cont} (hi : K (entered (k :: stack)) i.store) (failure : Failure) :
    Keeps K (failStep failure k stack i) := by
  cases k with
  | right op line left => exact hK.discard hi left
  | argument line callee ready rest =>
    have hstack : K (entered stack) i.store := hi
    exact keeps_giveUp hK hstack (.failed failure) ready callee
  | field receiver name => exact hK.discard hi (.instance receiver)
  | construct receiver => exact hK.discard hi (.instance receiver)
  | leave previous frame => exact Interpreter.upkeep_leave hK hi
  | finish f => exact hK.drain (hK.discard hi (.function f))
  | _ => exact hi

/-- What every operation of the store but for writes to arrays keeps is kept by every step that keeps it in
writing to one. -/
theorem Keeps.housekeeping {m : Machine} (h : Keeps K m)
    (hfits : ∀ b, m.control.givesValue? = some b → Fits b m.stack)
    (hset : ∀ callee arguments, m.call? = some (callee, arguments) → KeepsWrites K callee arguments) :
    Keeps K m.step := by
  obtain ⟨control, stack, i⟩ := m
  cases control with
  | eval e => exact keeps_evalStep hK h e
  | exec s => exact keeps_execStep hK h s
  | crashed => exact h
  | yield v =>
    cases stack with
    | nil => exact h
    | cons k stack => exact keeps_yieldStep hK h v (hfits true rfl).1 hset
  | done =>
    cases stack with
    | nil => exact h
    | cons k stack => exact keeps_doneStep hK h
  | returning v =>
    cases stack with
    | nil => exact h
    | cons k stack => exact keeps_returnStep hK h v
  | failed failure =>
    cases stack with
    | nil => exact h
    | cons k stack => exact keeps_failStep hK h failure

omit hK

/-- What every operation of the store keeps is kept by every step. -/
theorem Keeps.step (hK : Upkeep K) {m : Machine} (h : Keeps K m)
    (hfits : ∀ b, m.control.givesValue? = some b → Fits b m.stack) : Keeps K m.step :=
  h.housekeeping hK.housekeeping hfits fun _ _ _ id index v _ _ => fun hs => hK.setElement hs id index v

end Machine
end Lox
