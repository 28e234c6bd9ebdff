import Lox.Machine
import Lox.Proofs.Store.Growth

/-!
# What a step does to frames

A step binds names in the active frame, and only if it executes a declaration. All else that it binds is
in frames that it has made itself.
-/
namespace Lox

open Arena (Grows)

namespace Interpreter

variable {B : Binds} {i : Interpreter} (hr : i.store.arena.Recycles)

include hr

theorem grows_enter (enclosing : Handle) : Grows B i.store.arena (i.enter enclosing).store.arena :=
  Arena.grows_create hr enclosing

theorem grows_leave (previous frame : Handle) :
    Grows B i.store.arena (i.leave previous frame).store.arena := by
  have hrelease := Store.grows_release (B := B) hr frame
  exact hrelease.and (Store.grows_drain hrelease.recycles)

theorem grows_drain : Grows B i.store.arena i.drain.store.arena := Store.grows_drain hr

theorem grows_define {name : String} (v : Value) (hB : B i.active name) :
    Grows B i.store.arena (i.define name v).store.arena := Store.grows_define hr v hB

theorem grows_assign (ref : Reference) (v : Value) :
    Grows B i.store.arena (i.assign ref v).2.store.arena := by
  unfold assign
  split
  · exact Store.grows_assignAt hr i.active _ ref.name.text v
  · exact Store.grows_assign hr .globals ref.name.text v

theorem grows_closeOver (decl : FunctionDecl) (isInitializer : Bool) :
    Grows B i.store.arena (i.closeOver decl isInitializer).2.store.arena :=
  Arena.grows_capture hr i.active

theorem grows_declareFunction (decl : FunctionDecl) (hB : B i.active decl.name.text) :
    Grows B i.store.arena (i.declareFunction decl).store.arena := by
  have hclose := grows_closeOver (B := B) hr decl false
  exact hclose.and (Store.grows_define hclose.recycles _ hB)

omit hr

theorem foldl_define_active (bindings : List (Ident × Value)) (i : Interpreter) :
    (bindings.foldl (fun j (p, v) => j.define p.text v) i).active = i.active := by
  induction bindings generalizing i with
  | nil => rfl
  | cons binding rest ih => exact ih _

theorem grows_foldl_define {i : Interpreter} (hr : i.store.arena.Recycles)
    (bindings : List (Ident × Value)) (hB : ∀ x, B i.active x) :
    Grows B i.store.arena (bindings.foldl (fun j (p, v) => j.define p.text v) i).store.arena := by
  induction bindings generalizing i with
  | nil => exact .refl hr
  | cons binding rest ih =>
    have hdefine := grows_define hr binding.2 (hB binding.1.text)
    exact hdefine.and (ih hdefine.recycles hB)

theorem closeOverMethods_active (i : Interpreter) (table : Bindings Function)
    (methods : List FunctionDecl) : (i.closeOverMethods table methods).2.active = i.active := by
  induction methods generalizing i table with
  | nil => rfl
  | cons decl rest ih => exact ih _ _

theorem grows_closeOverMethods {i : Interpreter} (hr : i.store.arena.Recycles)
    (table : Bindings Function) (methods : List FunctionDecl) :
    Grows B i.store.arena (i.closeOverMethods table methods).2.store.arena := by
  induction methods generalizing i table with
  | nil => exact .refl hr
  | cons decl rest ih =>
    have hclose := grows_closeOver (B := B) hr decl (decl.name.text = initializerName)
    exact hclose.and (ih hclose.recycles _)

/-- Names bound in the frame that is entered do not count. -/
theorem grows_inside {j : Interpreter} (hr : i.store.arena.Recycles) (enclosing : Handle)
    (h : Grows (fun h _ => h = (i.enter enclosing).active) (i.enter enclosing).store.arena j.store.arena) :
    Grows B i.store.arena j.store.arena := by
  have henter := grows_enter (B := B) hr enclosing
  have hnew : ¬ i.store.arena.Issued (i.enter enclosing).active := Arena.not_issued_create hr enclosing
  exact henter.trans h fun g x hi hB => hB.elim (fun h => h) fun heq => absurd (heq ▸ hi) hnew

theorem grows_closeOverDerived (hr : i.store.arena.Recycles) (parent : Class)
    (methods : List FunctionDecl) :
    Grows B i.store.arena (i.closeOverDerived parent methods).2.store.arena := by
  refine grows_inside hr i.active ?_
  have hdefine : Grows (fun h _ => h = (i.enter i.active).active) (i.enter i.active).store.arena
      ((i.enter i.active).define "super" (.classObject parent)).store.arena :=
    grows_define (Arena.recycles_create hr i.active) (.classObject parent) rfl
  have hmethods := grows_closeOverMethods (B := fun h _ => h = (i.enter i.active).active)
    hdefine.recycles Bindings.empty methods
  exact (hdefine.and hmethods).and (Store.grows_release hmethods.recycles _)

theorem grows_bindClass (hr : i.store.arena.Recycles) {name : String} (superclass : Option Class)
    (table : Bindings Function) (hB : B i.active name) :
    Grows B i.store.arena ({ i with store := (i.store.makeClass name superclass table).2 }.define name
      (.classObject (i.store.makeClass name superclass table).1)).store.arena :=
  Store.grows_define (s := (i.store.makeClass name superclass table).2) hr _ hB

theorem grows_declareClass (hr : i.store.arena.Recycles) {name : String} (superclass : Option Class)
    (methods : List FunctionDecl) (hB : B i.active name) :
    Grows B i.store.arena (i.declareClass name superclass methods).store.arena := by
  have hdefine := grows_define (B := B) hr .nil hB
  cases superclass with
  | none =>
    have hmethods := grows_closeOverMethods (B := B) hdefine.recycles Bindings.empty methods
    have hactive := closeOverMethods_active (i.define name .nil) Bindings.empty methods
    exact (hdefine.and hmethods).and (grows_bindClass hmethods.recycles none _ (hactive ▸ hB))
  | some parent =>
    have hmethods := grows_closeOverDerived (B := B) hdefine.recycles parent methods
    exact (hdefine.and hmethods).and (grows_bindClass hmethods.recycles (some parent) _ hB)

theorem arena_callNative (i : Interpreter) (n : Native) (arguments : List Value) :
    (i.callNative n arguments).2.store.arena = i.store.arena := by
  unfold callNative
  split
  · rfl
  · split
    · split <;> rfl
    · rfl
  · rfl
  · split
    · next hwrite => exact congrArg (fun p : Option OutputError × Interpreter => p.2.store.arena) hwrite.symm
    · next hwrite =>
      have hstore := congrArg (fun p : Option OutputError × Interpreter => p.2.store.arena) hwrite.symm
      split <;> exact hstore
  · split
    · rfl
    · split <;> rfl
  · exact Store.arena_retain i.store _
  · rfl

section

variable (hr : i.store.arena.Recycles)

include hr

theorem grows_property (object : Value) (name : String) :
    Grows B i.store.arena (i.property object name).2.store.arena := by
  unfold property
  split
  · split
    · exact Store.grows_retain hr _
    · split
      · exact Store.grows_bind hr _ _
      · exact .refl hr
  · split
    · exact Store.grows_retain hr _
    · exact Store.grows_retain hr _
    · exact .refl hr
    · exact .refl hr
  · exact .refl hr

theorem grows_superMethod (ref : Reference) (name : String) :
    Grows B i.store.arena (i.superMethod ref name).2.store.arena := by
  unfold superMethod
  split
  · exact .refl hr
  · split
    · dsimp only
      split
      · split
        · exact Store.grows_bind hr _ _
        · exact .refl hr
      · exact .refl hr
    · exact .refl hr

end

end Interpreter

namespace Machine

open Interpreter (grows_drain)

/-- The names that the next step binds in the active frame. -/
def bound : Machine → List String
  | ⟨.exec (.var name none), _, _⟩ | ⟨.exec (.classDecl name none _), _, _⟩
  | ⟨.yield _, .define name :: _, _⟩ | ⟨.yield _, .superclass name _ _ :: _, _⟩ => [name.text]
  | ⟨.exec (.function decl), _, _⟩ => [decl.name.text]
  | _ => []

def binds (m : Machine) : Binds := fun h x => h = m.state.active ∧ x ∈ m.bound

variable {B : Binds} {i : Interpreter} {stack : List Cont} (hr : i.store.arena.Recycles)

include hr

theorem grows_giveUp (values : List Value) (v : Value) :
    Grows B i.store.arena ((i.discardAll values).discard v).store.arena :=
  Store.grows_discard (s := i.store.discardAll values) hr v

theorem grows_callFunction (line : Nat) (f : Function) (arguments : List Value) :
    Grows B i.store.arena (callFunction line f arguments stack i).state.store.arena := by
  unfold callFunction
  split
  · refine Interpreter.grows_inside hr f.closure ?_
    exact Interpreter.grows_foldl_define (Arena.recycles_create hr f.closure) _ fun _ => rfl
  · have hgive := grows_giveUp (B := B) hr arguments (.function f)
    exact hgive.and (grows_drain hgive.recycles)

theorem grows_instantiate (line : Nat) (c : Class) (arguments : List Value) :
    Grows B i.store.arena (instantiate line c arguments stack i).state.store.arena := by
  unfold instantiate
  dsimp only
  split
  · exact .refl hr
  · next method _ =>
    have hbind := Store.grows_bind (B := B) (s := (i.store.allocate (.instance c Bindings.empty)).2) hr
      method (.instance (i.store.allocate (.instance c Bindings.empty)).1)
    exact hbind.and (grows_callFunction (i := { i with store := _ }) hbind.recycles line _ arguments)

theorem grows_callArrayMethod (id : ObjectId) (method : ArrayMethod) (arguments : List Value) :
    Grows B i.store.arena (callArrayMethod id method arguments i).2.store.arena := by
  unfold callArrayMethod
  split
  · exact Store.grows_retain hr _
  · have hset := Store.arena_setElement i.store id
    dsimp only
    rw [Store.arena_retain, hset]
    exact .refl hr
  · exact .refl hr

theorem grows_call (line : Nat) (callee : Value) (arguments : List Value) :
    Grows B i.store.arena (call line callee arguments stack i).state.store.arena := by
  have hgive := grows_giveUp (B := B) hr arguments callee
  unfold call
  split
  · exact hgive
  · split
    · split
      · next n _ =>
        have hnative : Grows B i.store.arena (i.callNative n arguments).2.store.arena := by
          rw [Interpreter.arena_callNative]
          exact .refl hr
        split <;> rename_i hcall <;> rw [hcall] at hnative <;> exact hnative
      · exact grows_callFunction hr line _ arguments
      · exact grows_instantiate hr line _ arguments
      · next id method _ =>
        have hcall := grows_callArrayMethod (B := B) hr id method arguments
        exact hcall.and (grows_giveUp hcall.recycles arguments _)
      · exact hgive
    · exact hgive

theorem grows_finishCall (f : Function) (v : Value) :
    Grows B i.store.arena (finishCall f v stack i).state.store.arena := by
  have hresult : Grows B i.store.arena (callResult f v i).2.store.arena := by
    unfold callResult
    split
    · have hretain := Store.grows_retain (B := B) hr ((i.store.arena.find? f.closure "this").getD .nil)
      exact hretain.and (Store.grows_discard hretain.recycles v)
    · exact .refl hr
  have hdiscard := Store.grows_discard (B := B) hresult.recycles (.function f)
  exact (hresult.and hdiscard).and (Store.grows_drain hdiscard.recycles)

omit hr in
theorem store_super (i : Interpreter) (stack : List Cont) (ref : Reference) (method : Ident) :
    (evalStep (.super ref method) stack i).state.store = (i.superMethod ref method.text).2.store := by
  unfold evalStep
  dsimp only
  split <;> rename_i heq <;> rw [heq]

theorem grows_evalStep (e : Expr) : Grows B i.store.arena (evalStep e stack i).state.store.arena := by
  cases e with
  | «variable» ref | this ref =>
    unfold evalStep
    dsimp only
    split
    · exact Store.grows_retain hr _
    · exact .refl hr
  | super ref method =>
    rw [store_super]
    exact Interpreter.grows_superMethod hr ref method.text
  | _ => exact .refl hr

theorem grows_execStep (s : Stmt) :
    Grows (binds ⟨.exec s, stack, i⟩) i.store.arena (execStep s stack i).state.store.arena := by
  cases s with
  | var name initializer =>
    cases initializer with
    | none => exact Interpreter.grows_define hr .nil ⟨rfl, List.mem_singleton.2 rfl⟩
    | some e => exact .refl hr
  | block body => exact Interpreter.grows_enter hr i.active
  | function decl => exact Interpreter.grows_declareFunction hr decl ⟨rfl, List.mem_singleton.2 rfl⟩
  | classDecl name superclass methods =>
    cases superclass with
    | none => exact Interpreter.grows_declareClass hr none methods ⟨rfl, List.mem_singleton.2 rfl⟩
    | some parent => exact .refl hr
  | ret line value => cases value <;> exact .refl hr
  | _ => exact .refl hr

theorem grows_yieldStep (v : Value) (k : Cont) :
    Grows (binds ⟨.yield v, k :: stack, i⟩) i.store.arena (yieldStep v k stack i).state.store.arena := by
  have hdiscard := Store.grows_discard (B := binds ⟨.yield v, k :: stack, i⟩) hr v
  cases k with
  | unary op line => exact hdiscard
  | right op line left =>
    have hleft := Store.grows_discard (B := binds ⟨.yield v, .right op line left :: stack, i⟩) hr left
    exact hleft.and (Store.grows_discard hleft.recycles v)
  | logical op e =>
    unfold yieldStep
    dsimp only
    split
    · exact .refl hr
    · exact hdiscard
  | assign ref =>
    have hretain := Store.grows_retain (B := binds ⟨.yield v, .assign ref :: stack, i⟩) hr v
    have hassign := hretain.and (Interpreter.grows_assign (i := i.retain v) hretain.recycles ref v)
    unfold yieldStep
    dsimp only
    split <;> rename_i heq <;> rw [heq] at hassign
    · exact hassign
    · exact hassign.and (Store.grows_discard hassign.recycles v)
  | callee line arguments =>
    cases arguments with
    | nil => exact grows_call hr line v []
    | cons e rest => exact .refl hr
  | argument line callee ready rest =>
    cases rest with
    | nil => exact grows_call hr line callee (ready ++ [v])
    | cons e rest => exact .refl hr
  | get name =>
    have hproperty := Interpreter.grows_property (B := binds ⟨.yield v, .get name :: stack, i⟩) hr v name.text
    exact hproperty.and (Store.grows_discard hproperty.recycles v)
  | target name value => cases v <;> first | exact .refl hr | exact hdiscard
  | field receiver name =>
    have hset : ((i.store.retain v).setField receiver name.text v).arena = i.store.arena :=
      (Store.arena_setField _ receiver name.text v).trans (Store.arena_retain i.store v)
    change Grows _ _ (((i.store.retain v).setField receiver name.text v).discard _).arena
    rw [Store.arena_discard, hset]
    exact .refl hr
  | drop => exact hdiscard
  | print =>
    have hwrite : (i.writeLine v).2.store = i.store := rfl
    unfold yieldStep
    dsimp only
    split <;> rename_i heq <;> rw [heq] at hwrite
    · exact hwrite ▸ hdiscard
    · exact hwrite ▸ hdiscard
  | define name => exact Interpreter.grows_define hr v ⟨rfl, List.mem_singleton.2 rfl⟩
  | branch yes no =>
    unfold yieldStep
    dsimp only
    split
    · exact hdiscard
    · split <;> exact hdiscard
  | test condition body =>
    unfold yieldStep
    dsimp only
    split <;> exact hdiscard
  | superclass name parent methods =>
    cases v with
    | classObject c =>
      exact Interpreter.grows_declareClass hr (some c) methods ⟨rfl, List.mem_singleton.2 rfl⟩
    | _ => exact hdiscard
  | construct receiver => exact hdiscard
  | _ => exact .refl hr

theorem grows_doneStep (k : Cont) : Grows B i.store.arena (doneStep k stack i).state.store.arena := by
  cases k with
  | sequence rest => cases rest <;> exact .refl hr
  | leave previous frame => exact Interpreter.grows_leave hr previous frame
  | finish f => exact grows_finishCall hr f .nil
  | _ => exact .refl hr

theorem grows_returnStep (v : Value) (k : Cont) :
    Grows B i.store.arena (returnStep v k stack i).state.store.arena := by
  cases k with
  | leave previous frame => exact Interpreter.grows_leave hr previous frame
  | finish f => exact grows_finishCall hr f v
  | _ => exact .refl hr

theorem grows_failStep (failure : Failure) (k : Cont) :
    Grows B i.store.arena (failStep failure k stack i).state.store.arena := by
  cases k with
  | right op line left => exact Store.grows_discard hr left
  | argument line callee ready rest => exact grows_giveUp hr ready callee
  | field receiver name => exact Store.grows_discard hr (.instance receiver)
  | construct receiver => exact Store.grows_discard hr (.instance receiver)
  | leave previous frame => exact Interpreter.grows_leave hr previous frame
  | finish f =>
    have hdiscard := Store.grows_discard (B := B) hr (.function f)
    exact hdiscard.and (Store.grows_drain hdiscard.recycles)
  | _ => exact .refl hr

omit hr

/-- A step binds in frames that there are only what it declares in the active one. -/
theorem grows_step (m : Machine) (hr : m.state.store.arena.Recycles) :
    Grows m.binds m.state.store.arena m.step.state.store.arena := by
  obtain ⟨control, stack, i⟩ := m
  cases control with
  | eval e => exact grows_evalStep hr e
  | exec s => exact grows_execStep hr s
  | yield v =>
    cases stack with
    | nil => exact .refl hr
    | cons k stack => exact grows_yieldStep hr v k
  | done =>
    cases stack with
    | nil => exact .refl hr
    | cons k stack => exact grows_doneStep hr k
  | returning v =>
    cases stack with
    | nil => exact .refl hr
    | cons k stack => exact grows_returnStep hr v k
  | failed failure =>
    cases stack with
    | nil => exact .refl hr
    | cons k stack => exact grows_failStep hr failure k
  | crashed => exact .refl hr

end Machine
end Lox
