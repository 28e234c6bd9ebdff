import Lox.Proofs.Relabeling.Interpreter

/-!
# Relabeling machines

A machine whose code has other lines and identities takes the same steps: it holds relabeled values,
and fails where the machine fails, with relabeled lines.
-/
namespace Lox

variable (φ : Labels) (D : Distances)

def Control.relabel : Control → Control
  | eval e => eval (e.relabel φ)
  | exec s => exec (s.relabel φ)
  | yield v => yield (v.relabel φ)
  | done => done
  | returning v => returning (v.relabel φ)
  | failed f => failed (f.relabel φ)
  | crashed => crashed

def Cont.relabel : Cont → Cont
  | unary op line => unary op (φ.line line)
  | left op line e => left op (φ.line line) (e.relabel φ)
  | right op line v => right op (φ.line line) (v.relabel φ)
  | logical op e => logical op (e.relabel φ)
  | assign ref => assign (ref.relabel φ)
  | callee line arguments => callee (φ.line line) (arguments.map (·.relabel φ))
  | argument line v ready rest =>
    argument (φ.line line) (v.relabel φ) (ready.map (·.relabel φ)) (rest.map (·.relabel φ))
  | get name => get (name.relabel φ)
  | target name value => target (name.relabel φ) (value.relabel φ)
  | field receiver name => field receiver (name.relabel φ)
  | drop => drop
  | print => print
  | define name => define (name.relabel φ)
  | branch yes no => branch (yes.relabel φ) (no.map (·.relabel φ))
  | test condition body => test (condition.relabel φ) (body.relabel φ)
  | round condition body => round (condition.relabel φ) (body.relabel φ)
  | sequence rest => sequence (rest.map (·.relabel φ))
  | leave previous frame => leave previous frame
  | result => result
  | superclass name parent methods =>
    superclass (name.relabel φ) (parent.relabel φ) (methods.map (·.relabel φ))
  | finish f => finish (f.relabel φ)
  | construct receiver => construct receiver

namespace Machine

def relabel (m : Machine) : Machine :=
  ⟨m.control.relabel φ, m.stack.map (Cont.relabel φ), m.state.relabel φ D⟩

variable {φ D} (i : Interpreter) (stack : List Cont) (v : Value)

@[simp] theorem isFinal_relabel (m : Machine) : (m.relabel φ D).isFinal = m.isFinal := by
  obtain ⟨control, stack, i⟩ := m
  cases control <;> cases stack <;> rfl

theorem ofResult_relabel (line : Nat) (result : Except RuntimeError Value) :
    ofResult (φ.line line) (result.map (Value.relabel φ)) = (ofResult line result).relabel φ := by
  cases result <;> rfl

/-! ## Calls -/

theorem foldl_define_relabel (params : List Ident) (arguments : List Value) :
    (((params.map (Ident.relabel φ)).zip (arguments.map (Value.relabel φ))).foldl
        (fun i (p, v) => i.define p.text v) (i.relabel φ D)) =
      ((params.zip arguments).foldl (fun i (p, v) => i.define p.text v) i).relabel φ D := by
  rw [List.zip_map, List.foldl_map]
  induction params.zip arguments generalizing i with
  | nil => rfl
  | cons p rest ih =>
    rw [List.foldl_cons, List.foldl_cons, ← ih]
    exact congrArg (List.foldl _ · rest) (Interpreter.define_relabel i p.2 p.1.text)

theorem callFunction_relabel (line : Nat) (f : Function) (arguments : List Value) :
    callFunction (φ.line line) (f.relabel φ) (arguments.map (Value.relabel φ))
        (stack.map (Cont.relabel φ)) (i.relabel φ D) =
      (callFunction line f arguments stack i).relabel φ D := by
  have hclosure : (i.relabel φ D).store.arena.contains (f.relabel φ).closure =
      i.store.arena.contains f.closure := Arena.contains_relabel φ i.store.arena f.closure
  have henter : (i.relabel φ D).enter (f.relabel φ).closure = (i.enter f.closure).relabel φ D :=
    Interpreter.enter_relabel i f.closure
  unfold callFunction
  rw [hclosure, henter]
  by_cases hc : i.store.arena.contains f.closure = true
  · rw [if_pos hc, if_pos hc]
    have hparams : (f.relabel φ).decl.params = f.decl.params.map (Ident.relabel φ) :=
      FunctionDecl.params_relabel φ f.decl
    have hbody : (f.relabel φ).decl.body = f.decl.body.map (Stmt.relabel φ) :=
      FunctionDecl.body_relabel φ f.decl
    dsimp only
    rw [hparams, hbody, foldl_define_relabel]
    rfl
  · rw [if_neg hc, if_neg hc, Function.name_relabel, Interpreter.discardAll_relabel]
    refine congrArg (Machine.mk _ _) ?_
    rw [← Interpreter.drain_relabel, ← Interpreter.discard_relabel]
    rfl

theorem instantiate_relabel (line : Nat) (c : Class) (arguments : List Value) :
    instantiate (φ.line line) (c.relabel φ) (arguments.map (Value.relabel φ))
        (stack.map (Cont.relabel φ)) (i.relabel φ D) =
      (instantiate line c arguments stack i).relabel φ D := by
  have hallocate : (i.relabel φ D).store.allocate (.instance (c.relabel φ) Bindings.empty) =
      ((i.store.allocate (.instance c Bindings.empty)).1,
        (i.store.allocate (.instance c Bindings.empty)).2.relabel φ) :=
    Store.allocate_relabel φ i.store (.instance c Bindings.empty)
  unfold instantiate
  rw [hallocate, Class.findMethod?_relabel]
  rcases i.store.allocate (.instance c Bindings.empty) with ⟨id, store⟩
  cases c.findMethod? initializerName with
  | none => rfl
  | some method =>
    have hbind : (store.relabel φ).bind (method.relabel φ) (.instance id) =
        ((store.bind method (.instance id)).1.relabel φ, (store.bind method (.instance id)).2.relabel φ) :=
      Store.bind_relabel φ store (.instance id) method
    dsimp only [Option.map_some]
    rw [hbind]
    exact callFunction_relabel { i with store := (store.bind method (.instance id)).2 }
      (.construct id :: stack) line _ arguments

theorem callArrayMethod_relabel (id : ObjectId) (method : ArrayMethod) (arguments : List Value) :
    callArrayMethod id method (arguments.map (Value.relabel φ)) (i.relabel φ D) =
      ((callArrayMethod id method arguments i).1.relabel φ,
        (callArrayMethod id method arguments i).2.relabel φ D) := by
  cases method with
  | get =>
    cases arguments with
    | nil => rfl
    | cons index rest =>
      have helement : (i.relabel φ D).store.element id (index.relabel φ) =
          (i.store.element id index).relabel φ := Store.element_relabel φ i.store id index
      change ((i.relabel φ D).store.element id (index.relabel φ), _) = _
      rw [helement, Interpreter.retain_relabel]
      rfl
  | set =>
    cases arguments with
    | nil => rfl
    | cons index rest =>
      cases rest with
      | nil => rfl
      | cons v rest =>
        have hset : (i.relabel φ D).store.setElement id (index.relabel φ) (v.relabel φ) =
            ((i.store.setElement id index v).1.relabel φ,
              (i.store.setElement id index v).2.relabel φ) := Store.setElement_relabel φ i.store v id index
        rw [List.map_cons, List.map_cons, callArrayMethod, callArrayMethod, hset]
        dsimp only
        rw [Store.retain_relabel]
        rfl

theorem call_relabel (line : Nat) (callee : Value) (arguments : List Value) :
    call (φ.line line) (callee.relabel φ) (arguments.map (Value.relabel φ))
        (stack.map (Cont.relabel φ)) (i.relabel φ D) =
      (call line callee arguments stack i).relabel φ D := by
  have hgiveUp : ((i.relabel φ D).discardAll (arguments.map (Value.relabel φ))).discard
        (callee.relabel φ) = ((i.discardAll arguments).discard callee).relabel φ D := by
    rw [Interpreter.discardAll_relabel, Interpreter.discard_relabel]
  unfold call
  rw [Value.arity?_relabel, hgiveUp, List.length_map]
  cases callee.arity? with
  | none => rfl
  | some arity =>
    dsimp only
    by_cases harity : arguments.length = arity
    · rw [if_pos harity, if_pos harity]
      cases callee with
      | native n =>
        have hnative := Interpreter.callNative_relabel (φ := φ) (D := D) i n arguments
        dsimp only [Value.relabel]
        rw [hnative]
        rcases i.callNative n arguments with ⟨result, j⟩
        cases result with
        | value v => exact congrArg (Machine.mk _ _) (Interpreter.discardAll_relabel j arguments)
        | error cause => exact congrArg (Machine.mk _ _) (Interpreter.discardAll_relabel j arguments)
        | crash => rfl
      | function f => exact callFunction_relabel i stack line f arguments
      | classObject c => exact instantiate_relabel i stack line c arguments
      | arrayMethod id method =>
        have harray := callArrayMethod_relabel (φ := φ) (D := D) i id method arguments
        dsimp only [Value.relabel]
        rw [harray]
        rcases callArrayMethod id method arguments i with ⟨v, j⟩
        refine congrArg (Machine.mk _ _) ?_
        dsimp only
        rw [Interpreter.discardAll_relabel]
        exact Interpreter.discard_relabel _ (.arrayMethod id method)
      | _ => rfl
    · rw [if_neg harity, if_neg harity]
      rfl

theorem finishCall_relabel (f : Function) :
    finishCall (f.relabel φ) (v.relabel φ) (stack.map (Cont.relabel φ)) (i.relabel φ D) =
      (finishCall f v stack i).relabel φ D := by
  have hresult : callResult (f.relabel φ) (v.relabel φ) (i.relabel φ D) =
      ((callResult f v i).1.relabel φ, (callResult f v i).2.relabel φ D) := by
    have hthis : ((i.relabel φ D).store.arena.find? (f.relabel φ).closure "this").getD .nil =
        ((i.store.arena.find? f.closure "this").getD .nil).relabel φ := by
      have hfind : (i.relabel φ D).store.arena.find? (f.relabel φ).closure "this" =
          (i.store.arena.find? f.closure "this").map (Value.relabel φ) :=
        Arena.find?_relabel φ i.store.arena f.closure "this"
      rw [hfind]
      cases i.store.arena.find? f.closure "this" <;> rfl
    have hinitializer : (f.relabel φ).isInitializer = f.isInitializer := rfl
    unfold callResult
    dsimp only
    rw [hinitializer, hthis, Interpreter.retain_relabel, Interpreter.discard_relabel]
    cases f.isInitializer <;> rfl
  unfold finishCall
  rw [hresult]
  refine congrArg (Machine.mk _ _) ?_
  rw [← Interpreter.drain_relabel, ← Interpreter.discard_relabel]
  rfl

/-! ## Steps -/

section

variable (hD : i.Finds φ D)

include hD

theorem lookup_relabel (ref : Reference) :
    (match (i.relabel φ D).lookup? (ref.relabel φ) with
      | some v => (⟨.yield v, stack.map (Cont.relabel φ), (i.relabel φ D).retain v⟩ : Machine)
      | none => ⟨fail (φ.line ref.name.line) (.undefinedVariable ref.name.text),
          stack.map (Cont.relabel φ), i.relabel φ D⟩) =
      (match i.lookup? ref with
        | some v => ⟨.yield v, stack, i.retain v⟩
        | none => ⟨fail ref.name.line (.undefinedVariable ref.name.text), stack, i⟩ : Machine).relabel
          φ D := by
  rw [Interpreter.lookup?_relabel i hD]
  cases i.lookup? ref with
  | none => rfl
  | some v => exact congrArg (Machine.mk _ _) (Interpreter.retain_relabel i v)

theorem evalStep_relabel (e : Expr) :
    evalStep (e.relabel φ) (stack.map (Cont.relabel φ)) (i.relabel φ D) =
      (evalStep e stack i).relabel φ D := by
  cases e with
  | literal value =>
    exact congrArg (fun v => (⟨.yield v, stack.map (Cont.relabel φ), i.relabel φ D⟩ : Machine))
      (Value.relabel_ofLiteral φ value).symm
  | «variable» ref => exact lookup_relabel i stack hD ref
  | this ref => exact lookup_relabel i stack hD ref
  | call callee line arguments =>
    rw [Expr.relabel, evalStep, Expr.relabelAll_eq_map]
    rfl
  | super ref method =>
    have hsuper : (i.relabel φ D).superMethod (ref.relabel φ) (method.relabel φ).text = _ :=
      Interpreter.superMethod_relabel i method.text hD ref
    rw [Expr.relabel, evalStep, evalStep, hsuper]
    rcases i.superMethod ref method.text with ⟨result, j⟩
    cases result with
    | ok v => rfl
    | error cause => cases cause <;> rfl
  | _ => rfl

end

theorem execStep_relabel (s : Stmt) :
    execStep (s.relabel φ) (stack.map (Cont.relabel φ)) (i.relabel φ D) =
      (execStep s stack i).relabel φ D := by
  cases s with
  | var name initializer =>
    cases initializer with
    | none => exact congrArg (Machine.mk _ _) (Interpreter.define_relabel i .nil name.text)
    | some e => rfl
  | block body =>
    have henter : (i.relabel φ D).enter (i.relabel φ D).active = (i.enter i.active).relabel φ D :=
      Interpreter.enter_relabel i i.active
    rw [Stmt.relabel, execStep, execStep, henter, Stmt.relabelAll_eq_map]
    rfl
  | branch condition yes no => cases no <;> rfl
  | function decl => exact congrArg (Machine.mk _ _) (Interpreter.declareFunction_relabel i decl)
  | classDecl name superclass methods =>
    cases superclass with
    | none =>
      rw [Stmt.relabel, FunctionDecl.relabelAll_eq_map]
      exact congrArg (Machine.mk _ _) (Interpreter.declareClass_relabel i name.text none methods)
    | some parent =>
      rw [Stmt.relabel, FunctionDecl.relabelAll_eq_map]
      rfl
  | ret line value => cases value <;> rfl
  | _ => rfl

theorem yieldStep_relabel (hD : i.Finds φ D) (k : Cont) :
    yieldStep (v.relabel φ) (k.relabel φ) (stack.map (Cont.relabel φ)) (i.relabel φ D) =
      (yieldStep v k stack i).relabel φ D := by
  have hdiscard : (i.relabel φ D).discard (v.relabel φ) = (i.discard v).relabel φ D :=
    Interpreter.discard_relabel i v
  have hready : ∀ ready : List Value, ready.map (Value.relabel φ) ++ [v.relabel φ] =
      (ready ++ [v]).map (Value.relabel φ) := fun ready => by rw [List.map_append]; rfl
  cases k with
  | unary op line =>
    rw [Cont.relabel, yieldStep, UnaryOp.apply_relabel, ofResult_relabel, hdiscard]
    rfl
  | right op line left =>
    rw [Cont.relabel, yieldStep, BinaryOp.apply_relabel, ofResult_relabel,
      Interpreter.discard_relabel, Interpreter.discard_relabel]
    rfl
  | logical op e =>
    rw [Cont.relabel, yieldStep, yieldStep, Value.isTruthy_relabel, hdiscard]
    split <;> rfl
  | assign ref =>
    rw [Cont.relabel, yieldStep, yieldStep, Interpreter.retain_relabel]
    have hassign := Interpreter.assign_relabel (i.retain v) v (φ := φ) (D := D) hD ref
    rw [hassign]
    rcases (i.retain v).assign ref v with ⟨found, j⟩
    cases found with
    | true => rfl
    | false => exact congrArg (Machine.mk _ _) (Interpreter.discard_relabel j v)
  | callee line arguments =>
    cases arguments with
    | nil => exact call_relabel i stack line v []
    | cons e rest => rfl
  | argument line f ready rest =>
    cases rest with
    | nil =>
      have hcall := call_relabel (φ := φ) (D := D) i stack line f (ready ++ [v])
      rw [← hready] at hcall
      exact hcall
    | cons e rest =>
      have heval : ∀ args, args = (ready ++ [v]).map (Value.relabel φ) →
          (⟨.eval (e.relabel φ), .argument (φ.line line) (f.relabel φ) args (rest.map (·.relabel φ)) ::
            stack.map (Cont.relabel φ), i.relabel φ D⟩ : Machine) =
          (⟨.eval e, .argument line f (ready ++ [v]) rest :: stack, i⟩ : Machine).relabel φ D := by
        rintro args rfl
        rfl
      exact heval _ (hready ready)
  | get name =>
    have hproperty : (i.relabel φ D).property (v.relabel φ) (name.relabel φ).text =
        ((i.property v name.text).1.map (Value.relabel φ), (i.property v name.text).2.relabel φ D) :=
      Interpreter.property_relabel i name.text v
    rw [Cont.relabel, yieldStep, hproperty]
    dsimp only
    rw [Interpreter.discard_relabel]
    exact congrArg (Machine.mk · _ _) (ofResult_relabel name.line _)
  | target name value =>
    cases v with
    | «instance» id => rfl
    | _ => exact congrArg (Machine.mk _ _) hdiscard
  | field receiver name =>
    have hset : ((i.relabel φ D).store.retain (v.relabel φ)).setField receiver (name.relabel φ).text
        (v.relabel φ) = ((i.store.retain v).setField receiver name.text v).relabel φ :=
      (congrArg (Store.setField · receiver name.text _) (Store.retain_relabel φ i.store v)).trans
        (Store.setField_relabel φ (i.store.retain v) v name.text receiver)
    rw [Cont.relabel, yieldStep, hset]
    exact congrArg (fun store => (⟨_, _, store, i.active, D, i.sink, i.clock⟩ : Machine))
      (Store.discard_relabel φ _ (.instance receiver))
  | drop => exact congrArg (Machine.mk _ _) hdiscard
  | print =>
    unfold yieldStep
    dsimp only [Cont.relabel]
    rw [Interpreter.writeLine_relabel]
    rcases i.writeLine v with ⟨error, j⟩
    cases error with
    | none => exact congrArg (Machine.mk _ _) (Interpreter.discard_relabel j v)
    | some cause => exact congrArg (Machine.mk _ _) (Interpreter.discard_relabel j v)
  | define name => exact congrArg (Machine.mk _ _) (Interpreter.define_relabel i v name.text)
  | branch yes no =>
    unfold yieldStep
    dsimp only [Cont.relabel]
    rw [Value.isTruthy_relabel, hdiscard]
    split
    · rfl
    · cases no <;> rfl
  | test condition body =>
    rw [Cont.relabel, yieldStep, yieldStep, Value.isTruthy_relabel, hdiscard]
    split <;> rfl
  | superclass name parent methods =>
    cases v with
    | classObject c =>
      exact congrArg (Machine.mk _ _) (Interpreter.declareClass_relabel i name.text (some c) methods)
    | _ => exact congrArg (Machine.mk _ _) hdiscard
  | construct receiver => exact congrArg (Machine.mk _ _) hdiscard
  | _ => rfl

theorem doneStep_relabel (k : Cont) :
    doneStep (k.relabel φ) (stack.map (Cont.relabel φ)) (i.relabel φ D) =
      (doneStep k stack i).relabel φ D := by
  cases k with
  | sequence rest => cases rest <;> rfl
  | leave previous frame => exact congrArg (Machine.mk _ _) (Interpreter.leave_relabel i previous frame)
  | finish f => exact finishCall_relabel i stack .nil f
  | _ => rfl

theorem returnStep_relabel (k : Cont) :
    returnStep (v.relabel φ) (k.relabel φ) (stack.map (Cont.relabel φ)) (i.relabel φ D) =
      (returnStep v k stack i).relabel φ D := by
  cases k with
  | leave previous frame => exact congrArg (Machine.mk _ _) (Interpreter.leave_relabel i previous frame)
  | finish f => exact finishCall_relabel i stack v f
  | _ => rfl

theorem failStep_relabel (failure : Failure) (k : Cont) :
    failStep (failure.relabel φ) (k.relabel φ) (stack.map (Cont.relabel φ)) (i.relabel φ D) =
      (failStep failure k stack i).relabel φ D := by
  refine congrArg (Machine.mk _ _) ?_
  cases k with
  | right op line left => exact Interpreter.discard_relabel i left
  | argument line callee ready rest =>
    dsimp only [Cont.relabel]
    rw [Interpreter.discardAll_relabel, Interpreter.discard_relabel]
    rfl
  | field receiver name => exact Interpreter.discard_relabel i (.instance receiver)
  | construct receiver => exact Interpreter.discard_relabel i (.instance receiver)
  | leave previous frame => exact Interpreter.leave_relabel i previous frame
  | finish f =>
    exact (congrArg Interpreter.drain (Interpreter.discard_relabel i (.function f))).trans
      (Interpreter.drain_relabel _)
  | _ => rfl

/-- Every step keeps machines relabeled. -/
theorem step_relabel (m : Machine) (hD : m.state.Finds φ D) :
    (m.relabel φ D).step = m.step.relabel φ D := by
  obtain ⟨control, stack, i⟩ := m
  cases control with
  | eval e => exact evalStep_relabel i stack hD e
  | exec s => exact execStep_relabel i stack s
  | yield v =>
    cases stack with
    | nil => rfl
    | cons k stack => exact yieldStep_relabel i stack v hD k
  | done =>
    cases stack with
    | nil => rfl
    | cons k stack => exact doneStep_relabel i stack k
  | returning v =>
    cases stack with
    | nil => rfl
    | cons k stack => exact returnStep_relabel i stack v k
  | failed failure =>
    cases stack with
    | nil => rfl
    | cons k stack => exact failStep_relabel i stack failure k
  | crashed => rfl

end Machine
end Lox
