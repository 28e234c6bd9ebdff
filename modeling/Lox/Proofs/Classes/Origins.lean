import Lox.Proofs.Classes.Chains
import Lox.Proofs.Ownership.Upkeep
import Lox.Proofs.Scoping.Steps

/-!
# Where classes come from

A step comes across the classes that were there before it, and the one that it declares. Nothing else makes
classes: values are handed on, stored and read, but those that operations make up are no classes.
-/
namespace Lox

/-- The value is no class, or one of these. -/
def Value.From (cs : List Class) (v : Value) : Prop := ∀ c, v = .classObject c → c ∈ cs

variable {P : List Surrounding → Reference → Prop} {W : Standing} {cs cs' : List Class} {v : Value}
  {stack : List Cont} {i : Interpreter}

theorem Value.From.mono (h : v.From cs) (hcs : cs ⊆ cs') : v.From cs' := fun c hc => hcs (h c hc)

/-! ## What a declaration makes -/

namespace Interpreter

/-- The methods of a class that is declared, and the state in which they have been made. -/
def methodTable (i : Interpreter) (name : String) (superclass : Option Class)
    (methods : List FunctionDecl) : Bindings Function × Interpreter :=
  match superclass with
  | none => (i.define name .nil).closeOverMethods Bindings.empty methods
  | some parent => (i.define name .nil).closeOverDerived parent methods

/-- The class that is declared, and the store in which it has been made. -/
def madeClass (i : Interpreter) (name : String) (superclass : Option Class)
    (methods : List FunctionDecl) : Class × Store :=
  let (table, i) := i.methodTable name superclass methods
  i.store.makeClass name superclass table

/-- The class is bound to its name in the end. -/
theorem declareClass_eq (i : Interpreter) (name : String) (superclass : Option Class)
    (methods : List FunctionDecl) : i.declareClass name superclass methods =
      { (i.methodTable name superclass methods).2 with
        store := (i.madeClass name superclass methods).2 }.define name
          (.classObject (i.madeClass name superclass methods).1) := by
  cases superclass <;> rfl

theorem tabulates_closeOverMethods {table : Bindings Function} {before : List FunctionDecl}
    (h : Tabulates table before) (i : Interpreter) (methods : List FunctionDecl) :
    Tabulates (i.closeOverMethods table methods).1 (before ++ methods) := by
  induction methods generalizing i table before with
  | nil => rwa [List.append_nil]
  | cons decl rest ih =>
    have hinsert := h.insert (i.closeOver decl (decl.name.text = initializerName)).1
    have hrest := ih hinsert (i.closeOver decl (decl.name.text = initializerName)).2
    rwa [List.append_assoc] at hrest

theorem tabulates_madeClass (i : Interpreter) (name : String) (superclass : Option Class)
    (methods : List FunctionDecl) : Tabulates (i.madeClass name superclass methods).1.methods methods := by
  cases superclass <;> exact tabulates_closeOverMethods .empty _ methods

end Interpreter

namespace Machine

/-- The class that the next step declares. -/
def declares? : Machine → Option Declared
  | ⟨.exec (.classDecl name none methods), _, i⟩ => some ⟨(i.madeClass name.text none methods).1, methods⟩
  | ⟨.yield (.classObject c), .superclass name _ methods :: _, i⟩ =>
    some ⟨(i.madeClass name.text (some c) methods).1, methods⟩
  | _ => none

/-- The superclass of a class that is declared is held. -/
theorem declares?_eq_some {m : Machine} {d : Declared} (h : m.declares? = some d) :
    ∃ name superclass, d.made = (m.state.madeClass name superclass d.methods).1 ∧
      m.step.state = m.state.declareClass name superclass d.methods ∧
      ∀ c ∈ superclass, .classObject c ∈ m.control.held := by
  unfold declares? at h
  split at h
  · cases h
    exact ⟨_, none, rfl, rfl, nofun⟩
  · next c name parent methods stack i =>
    cases h
    refine ⟨_, some c, rfl, rfl, fun d hd => ?_⟩
    cases Option.mem_def.1 hd
    exact List.mem_cons_self
  · cases h

end Machine

/-! ## Identities -/

/-- Identities are never given again. -/
theorem Store.upkeep_stamps (n : Nat) : Store.Upkeep fun _ s => n ≤ s.heap.nextStamp where
  retain h v := h.trans (remains_retain _ v).heap.nextStamp.ge
  discardObjects h ids := h.trans (remains_discardObjects _ ids).heap.nextStamp.ge
  define {_ s} hn h name v := by
    cases hf : s.arena.frame? h with
    | none =>
      rw [define_of_none hf]
      exact hn.trans (remains_discard s v).heap.nextStamp.ge
    | some f =>
      rw [define_of_some hf]
      exact hn.trans (remains_discardObjects _ _).heap.nextStamp.ge
  create h _ := h
  release {_ _ h} hn := hn.trans (remains_release _ h).heap.nextStamp.ge
  drain h := h.trans (remains_drain _).heap.nextStamp.ge
  collect h roots := h.trans (remains_collect _ roots).heap.nextStamp.ge
  closeOver h _ _ _ := Nat.le_succ_of_le h
  makeClass h _ _ _ := Nat.le_succ_of_le h
  allocate _ h := h
  guard h _ := h
  modify _ h := h

/-- A class is younger than all that was made before. -/
theorem Interpreter.stamp_madeClass (i : Interpreter) (name : String) (superclass : Option Class)
    (methods : List FunctionDecl) :
    i.store.heap.nextStamp ≤ (i.madeClass name superclass methods).1.stamp ∧
      (i.madeClass name superclass methods).1.stamp <
        (i.declareClass name superclass methods).store.heap.nextStamp := by
  have hstamps := Store.upkeep_stamps i.store.heap.nextStamp
  have hnil := hstamps.define (l := []) (s := i.store) le_rfl i.active name .nil
  constructor
  · cases superclass with
    | none =>
      exact upkeep_closeOverMethods hstamps.housekeeping (l := []) (i := i.define name .nil) hnil Bindings.empty methods
    | some parent =>
      exact upkeep_closeOverDerived hstamps.housekeeping (l := []) (i := i.define name .nil) hnil parent methods
  · have hmade : (i.madeClass name superclass methods).1.stamp + 1 ≤
        (i.madeClass name superclass methods).2.heap.nextStamp := Nat.le_refl _
    rw [declareClass_eq]
    exact (Store.upkeep_stamps _).define (l := []) hmade _ name _

/-! ## Operations -/

namespace Interpreter

theorem from_closeOver (hs : i.store.Each (Value.From cs)) (decl : FunctionDecl) (isInitializer : Bool) :
    (i.closeOver decl isInitializer).2.store.Each (Value.From cs) :=
  ⟨(hs.capture i.active).bound, (hs.capture i.active).inside⟩

theorem from_closeOverMethods (hs : i.store.Each (Value.From cs)) (table : Bindings Function)
    (methods : List FunctionDecl) : (i.closeOverMethods table methods).2.store.Each (Value.From cs) := by
  induction methods generalizing i table with
  | nil => exact hs
  | cons decl rest ih =>
    exact ih (i := (i.closeOver decl (decl.name.text = initializerName)).2) (from_closeOver hs decl _) _

theorem from_declareClass {name : Ident} (hplain : name.Plain) {superclass : Option Class}
    {methods : List FunctionDecl} (hs : i.store.Each (Value.From cs)) (hr : i.store.arena.Recycles)
    (hsuperclass : ∀ c ∈ superclass, c ∈ cs) (hmade : (i.madeClass name.text superclass methods).1 ∈ cs) :
    (i.declareClass name.text superclass methods).store.Each (Value.From cs) := by
  have hnil : (i.define name.text .nil).store.Each (Value.From cs) :=
    hs.define _ nofun (Value.suits_of_plain hplain _)
  have htable : (i.methodTable name.text superclass methods).2.store.Each (Value.From cs) := by
    cases superclass with
    | none => exact from_closeOverMethods hnil Bindings.empty methods
    | some parent =>
      have hrecycles : (i.define name.text .nil).store.arena.Recycles :=
        (grows_define (B := fun _ _ => True) hr .nil trivial).recycles
      have hsuper : (((i.define name.text .nil).enter i.active).define "super" (.classObject parent)).store.Each
          (Value.From cs) := by
        refine (hnil.create hrecycles i.active).define _ (fun c hc => ?_) (Value.suits_super parent)
        cases hc
        exact hsuperclass parent rfl
      exact (from_closeOverMethods hsuper Bindings.empty methods).release _
  have hclass : (i.madeClass name.text superclass methods).2.Each (Value.From cs) :=
    ⟨htable.bound, htable.inside⟩
  rw [declareClass_eq]
  refine hclass.define _ (fun c hc => ?_) (Value.suits_of_plain hplain _)
  cases hc
  exact hmade

theorem from_property (hs : i.store.Each (Value.From cs)) (hr : i.store.arena.Recycles) (object : Value)
    (name : String) : (i.property object name).2.store.Each (Value.From cs) ∧
      ∀ v, (i.property object name).1 = .ok v → v.From cs := by
  unfold property
  split
  · next id =>
    split
    · next v hfield =>
      refine ⟨hs.retain v, fun w hw => ?_⟩
      cases hw
      exact hs.field? hfield
    · split
      · next method hmethod =>
        refine ⟨hs.bind hr method nofun, fun w hw => ?_⟩
        cases hw
        nofun
      · exact ⟨hs, nofun⟩
  · next id =>
    split
    · exact ⟨hs.retain (.array id), fun w hw => by cases hw; nofun⟩
    · exact ⟨hs.retain (.array id), fun w hw => by cases hw; nofun⟩
    · exact ⟨hs, fun w hw => by cases hw; nofun⟩
    · exact ⟨hs, nofun⟩
  · exact ⟨hs, nofun⟩

theorem from_superMethod (hs : i.store.Each (Value.From cs)) (hr : i.store.arena.Recycles) (ref : Reference)
    (name : String) : (i.superMethod ref name).2.store.Each (Value.From cs) ∧
      ∀ v, (i.superMethod ref name).1 = .ok v → v.From cs := by
  obtain ⟨-, cause, heq⟩ | ⟨method, id, -, heq⟩ := i.superMethod_cases ref name
  · rw [heq]
    exact ⟨hs, nofun⟩
  · rw [heq]
    refine ⟨hs.bind hr method nofun, fun w hw => ?_⟩
    cases hw
    nofun

theorem from_callNative (hs : i.store.Each (Value.From cs)) (n : Native) {arguments : List Value}
    (harguments : ∀ v ∈ arguments, v.From cs) : (i.callNative n arguments).2.store.Each (Value.From cs) ∧
      ∀ v, (i.callNative n arguments).1 = .value v → v.From cs := by
  unfold callNative
  split
  · exact ⟨hs, fun v hv => by cases hv; nofun⟩
  · split
    · split
      · exact ⟨hs, fun v hv => by cases hv; nofun⟩
      · exact ⟨hs, nofun⟩
    · exact ⟨hs, nofun⟩
  · exact ⟨hs, nofun⟩
  · have hwrite : (i.write clearSequence).2.store.Each (Value.From cs) := hs
    split <;> rename_i heq <;> rw [heq] at hwrite
    · exact ⟨hwrite, nofun⟩
    · split
      · exact ⟨hwrite, nofun⟩
      · exact ⟨hwrite, fun v hv => by cases hv; nofun⟩
  · split
    · exact ⟨hs, nofun⟩
    · split
      · exact ⟨hs, nofun⟩
      · refine ⟨hs.allocate fun v hv => ?_, fun v hv => by cases hv; nofun⟩
        rw [(Array.mem_replicate.1 (Array.mem_toList_iff.1 hv)).2]
        nofun
  · next v _ _ =>
    refine ⟨(hs.retain v).allocate fun w hw => ?_, fun v hv => by cases hv; nofun⟩
    cases List.mem_singleton.1 hw
    exact harguments v List.mem_cons_self
  · exact ⟨hs.allocate nofun, fun v hv => by cases hv; nofun⟩

end Interpreter

/-! ## Steps -/

namespace Machine

/-- All classes that the stack holds and the store contains are among these. -/
structure Rests (cs : List Class) (stack : List Cont) (i : Interpreter) : Prop where
  held : ∀ v ∈ heldAll stack, v.From cs
  store : i.store.Each (Value.From cs)

/-- All classes that a machine holds and its store contains are among these. -/
structure Carries (cs : List Class) (m : Machine) : Prop where
  control : ∀ v ∈ m.control.held, v.From cs
  rests : Rests cs m.stack m.state

theorem Carries.mono {m : Machine} (h : m.Carries cs) (hcs : cs ⊆ cs') : m.Carries cs' :=
  ⟨fun v hv => (h.control v hv).mono hcs, fun v hv => (h.rests.held v hv).mono hcs,
    h.rests.store.mono fun _ hv => hv.mono hcs⟩

namespace Rests

variable (h : Rests cs stack i)

include h

theorem retain (v : Value) : Rests cs stack (i.retain v) := ⟨h.held, h.store.retain v⟩

theorem discard (v : Value) : Rests cs stack (i.discard v) := ⟨h.held, h.store.discard v⟩

theorem discardAll (values : List Value) : Rests cs stack (i.discardAll values) :=
  ⟨h.held, h.store.discardAll values⟩

theorem drain : Rests cs stack i.drain := ⟨h.held, h.store.drain⟩

theorem leave (previous frame : Handle) : Rests cs stack (i.leave previous frame) :=
  ⟨h.held, (h.store.release frame).drain⟩

theorem define {name : Ident} (hplain : name.Plain) (hv : v.From cs) :
    Rests cs stack (i.define name.text v) :=
  ⟨h.held, h.store.define _ hv (Value.suits_of_plain hplain v)⟩

theorem assign {ref : Reference} (hplain : ref.name.Plain) (hv : v.From cs) :
    Rests cs stack (i.assign ref v).2 := by
  have hsuits := Value.suits_of_plain hplain v
  unfold Interpreter.assign
  split
  · exact ⟨h.held, h.store.assignAt _ _ hv hsuits⟩
  · exact ⟨h.held, h.store.assign _ hv hsuits⟩

/-- The same with one more continuation to come. -/
theorem push (k : Cont) (hk : ∀ v ∈ k.held, v.From cs) : Rests cs (k :: stack) i :=
  ⟨List.forall_mem_append.2 ⟨hk, h.held⟩, h.store⟩

/-- A control that holds nothing. -/
theorem bare {c : Control} (hc : c.held = []) : Carries cs ⟨c, stack, i⟩ :=
  ⟨hc ▸ nofun, h⟩

theorem yield (hv : v.From cs) : Carries cs ⟨.yield v, stack, i⟩ := ⟨List.forall_mem_singleton.2 hv, h⟩

theorem returning (hv : v.From cs) : Carries cs ⟨.returning v, stack, i⟩ :=
  ⟨List.forall_mem_singleton.2 hv, h⟩

theorem ofResult (line : Nat) {result : Except RuntimeError Value} (hv : ∀ v, result = .ok v → v.From cs) :
    Carries cs ⟨ofResult line result, stack, i⟩ := by
  cases result with
  | ok v => exact h.yield (hv v rfl)
  | error cause => exact h.bare rfl

end Rests

theorem Rests.pop {k : Cont} (h : Rests cs (k :: stack) i) :
    (∀ v ∈ k.held, v.From cs) ∧ Rests cs stack i := by
  obtain ⟨hk, hstack⟩ := List.forall_mem_append.1 h.held
  exact ⟨hk, hstack, h.store⟩

theorem rests_foldl_define {bindings : List (Ident × Value)} (h : Rests cs stack i)
    (hbindings : ∀ b ∈ bindings, b.1.Plain ∧ b.2.From cs) :
    Rests cs stack (bindings.foldl (fun i (p, v) => i.define p.text v) i) := by
  induction bindings generalizing i with
  | nil => exact h
  | cons binding rest ih =>
    obtain ⟨hfirst, hrest⟩ := List.forall_mem_cons.1 hbindings
    exact ih (h.define hfirst.1 hfirst.2) hrest

theorem from_of_isPlain (hv : v.isPlain = true) : v.From cs := by
  rintro c rfl
  cases hv

/-! ### Calls -/

section

variable (h : Rests cs stack i)

include h

theorem carries_callFunction (line : Nat) {f : Function} {arguments : List Value}
    (hplain : ∀ param ∈ f.decl.params, param.Plain) (harguments : ∀ v ∈ arguments, v.From cs)
    (hr : i.store.arena.Recycles) : Carries cs (callFunction line f arguments stack i) := by
  unfold callFunction
  split
  · have henter : Rests cs stack (i.enter f.closure) := ⟨h.held, h.store.create hr f.closure⟩
    have hbindings : ∀ b ∈ f.decl.params.zip arguments, b.1.Plain ∧ b.2.From cs := fun b hb =>
      ⟨hplain b.1 (List.of_mem_zip hb).1, harguments b.2 (List.of_mem_zip hb).2⟩
    have hbound := rests_foldl_define henter hbindings
    exact (((hbound.push (.finish f) (List.forall_mem_singleton.2 nofun)).push (.leave _ _) nofun).push
      (.sequence _) nofun).bare rfl
  · exact ((h.discardAll arguments).discard (.function f)).drain.bare rfl

theorem carries_instantiate (line : Nat) {c : Class} {arguments : List Value} (hc : c.Placed P W)
    (hcs : c ∈ cs) (harguments : ∀ v ∈ arguments, v.From cs) (hr : i.store.arena.Recycles) :
    Carries cs (instantiate line c arguments stack i) := by
  have hallocate : (i.store.allocate (.instance c Bindings.empty)).2.Each (Value.From cs) := by
    refine h.store.allocate (List.forall_mem_singleton.2 fun d hd => ?_)
    cases hd
    exact hcs
  unfold instantiate
  dsimp only
  split
  · exact Rests.yield (i := { i with store := _ }) ⟨h.held, hallocate⟩ nofun
  · next method hmethod =>
    obtain ⟨-, -, around, -, hfits⟩ := hc initializerName method hmethod
    rw [FunctionDecl.fits_eq] at hfits
    have hbind : ((i.store.allocate (.instance c Bindings.empty)).2.bind method
        (.instance (i.store.allocate (.instance c Bindings.empty)).1)).2.Each (Value.From cs) :=
      hallocate.bind hr method nofun
    have hgrows := Store.grows_bind (B := fun _ _ => True)
      (s := (i.store.allocate (.instance c Bindings.empty)).2) hr method
      (.instance (i.store.allocate (.instance c Bindings.empty)).1)
    exact carries_callFunction (i := { i with store := _ })
      (Rests.push ⟨h.held, hbind⟩ (.construct _) (List.forall_mem_singleton.2 nofun)) line hfits.1 harguments
      hgrows.recycles

theorem rests_callArrayMethod (id : ObjectId) (method : ArrayMethod) {arguments : List Value}
    (harguments : ∀ v ∈ arguments, v.From cs) :
    Rests cs stack (callArrayMethod id method arguments i).2 ∧
      (callArrayMethod id method arguments i).1.From cs := by
  unfold callArrayMethod
  split
  · exact ⟨h.retain _, h.store.element nofun _⟩
  · next index v _ =>
    have hv := harguments v (List.mem_cons_of_mem _ List.mem_cons_self)
    have hresult : (i.store.setElement id index v).1.From cs := by
      unfold Store.setElement
      split
      · exact hv
      · nofun
    exact ⟨⟨h.held, (h.store.setElement id index hv).retain _⟩, hresult⟩
  · exact ⟨h, nofun⟩

theorem carries_call (line : Nat) {callee : Value} {arguments : List Value} (hplaced : callee.Placed P W)
    (hcallee : callee.From cs) (harguments : ∀ v ∈ arguments, v.From cs) (hr : i.store.arena.Recycles) :
    Carries cs (call line callee arguments stack i) := by
  have hgive := (h.discardAll arguments).discard callee
  unfold call
  split
  · exact hgive.bare rfl
  · split
    · split
      · next n _ =>
        obtain ⟨hstore, hresult⟩ := Interpreter.from_callNative h.store n harguments
        have hnative : Rests cs stack (i.callNative n arguments).2 := ⟨h.held, hstore⟩
        split <;> rename_i heq <;> rw [heq] at hnative hresult
        · exact (hnative.discardAll arguments).yield (hresult _ rfl)
        · exact (hnative.discardAll arguments).bare rfl
        · exact hnative.bare rfl
      · next f _ =>
        obtain ⟨-, -, around, -, hfits, -⟩ := hplaced
        rw [FunctionDecl.fits_eq] at hfits
        exact carries_callFunction h line hfits.1 harguments hr
      · next c _ => exact carries_instantiate h line hplaced (hcallee c rfl) harguments hr
      · next id method _ =>
        obtain ⟨hcalled, hresult⟩ := rests_callArrayMethod h id method harguments
        exact ((hcalled.discardAll arguments).discard _).yield hresult
      · exact hgive.bare rfl
    · exact hgive.bare rfl

theorem carries_finishCall (f : Function) (hv : v.From cs) : Carries cs (finishCall f v stack i) := by
  have hresult : Rests cs stack (callResult f v i).2 ∧ (callResult f v i).1.From cs := by
    unfold callResult
    split
    · refine ⟨(h.retain _).discard v, ?_⟩
      cases hthis : i.store.arena.find? f.closure "this" with
      | none => nofun
      | some this => exact (h.store.find? hthis).1
    · exact ⟨h, hv⟩
  exact ((hresult.1.discard (.function f)).drain).yield hresult.2

/-! ### Expressions and statements are taken apart -/

theorem carries_evalStep (e : Expr) (hr : i.store.arena.Recycles) : Carries cs (evalStep e stack i) := by
  cases e with
  | literal value => exact h.yield (from_of_isPlain (Value.isPlain_ofLiteral value))
  | grouping inner => exact h.bare rfl
  | unary op line operand => exact (h.push (.unary op line) nofun).bare rfl
  | binary op line left right => exact (h.push (.left op line right) nofun).bare rfl
  | logical op line left right => exact (h.push (.logical op right) nofun).bare rfl
  | assign ref value => exact (h.push (.assign ref) nofun).bare rfl
  | call callee line arguments => exact (h.push (.callee line arguments) nofun).bare rfl
  | get object name => exact (h.push (.get name) nofun).bare rfl
  | set object name value => exact (h.push (.target name value) nofun).bare rfl
  | «variable» ref | this ref =>
    unfold evalStep
    dsimp only
    split
    · next v hv =>
      refine (h.retain v).yield ?_
      unfold Interpreter.lookup? at hv
      split at hv
      · exact (h.store.findAt? hv).1
      · exact (h.store.find? hv).1
    · exact h.bare rfl
  | super ref method =>
    obtain ⟨hstore, hv⟩ := Interpreter.from_superMethod h.store hr ref method.text
    have hsuper : Rests cs stack (i.superMethod ref method.text).2 := ⟨h.held, hstore⟩
    unfold evalStep
    dsimp only
    split <;> rename_i heq <;> rw [heq] at hsuper hv
    · exact hsuper.yield (hv _ rfl)
    · exact hsuper.bare rfl
    · exact hsuper.bare rfl

theorem carries_execStep {s : Stmt} (hgoes : Goes P W ⟨.exec s, stack, i⟩) (hr : i.store.arena.Recycles)
    (hnew : ∀ d ∈ declares? ⟨.exec s, stack, i⟩, d.made ∈ cs) : Carries cs (execStep s stack i) := by
  obtain ⟨around, -, hs, -⟩ := hgoes
  cases s with
  | expression e => exact (h.push .drop nofun).bare rfl
  | print e => exact (h.push .print nofun).bare rfl
  | var name initializer =>
    cases initializer with
    | none => exact (h.define (v := .nil) hs.1 nofun).bare rfl
    | some e => exact (h.push (.define name) nofun).bare rfl
  | block body =>
    have henter : Rests cs stack (i.enter i.active) := ⟨h.held, h.store.create hr i.active⟩
    exact ((henter.push (.leave _ _) nofun).push (.sequence body) nofun).bare rfl
  | branch condition yes no => exact (h.push (.branch yes no) nofun).bare rfl
  | loop condition body => exact (h.push (.test condition body) nofun).bare rfl
  | function decl =>
    have hclosed : Rests cs stack (i.closeOver decl false).2 :=
      ⟨h.held, Interpreter.from_closeOver h.store decl false⟩
    exact (hclosed.define (v := .function (i.closeOver decl false).1) hs.1 nofun).bare rfl
  | classDecl name superclass methods =>
    cases superclass with
    | none =>
      have hmade : (i.declareClass name.text none methods).store.Each (Value.From cs) :=
        Interpreter.from_declareClass hs.1 h.store hr nofun (hnew _ rfl)
      exact Rests.bare ⟨h.held, hmade⟩ rfl
    | some parent => exact (h.push (.superclass name parent.name methods) nofun).bare rfl
  | ret line value =>
    cases value with
    | none => exact h.returning nofun
    | some e => exact (h.push .result nofun).bare rfl

end

/-! ### Continuations -/

theorem carries_yieldStep {k : Cont} (hm : Placed P W ⟨.yield v, k :: stack, i⟩)
    (h : Carries cs ⟨.yield v, k :: stack, i⟩) (hr : i.store.arena.Recycles)
    (hnew : ∀ d ∈ declares? ⟨.yield v, k :: stack, i⟩, d.made ∈ cs) : Carries cs (yieldStep v k stack i) := by
  obtain ⟨⟨around, -, hgoes⟩, hplaced, -⟩ := hm
  obtain ⟨hvplaced, hplaced⟩ := List.forall_mem_cons.1 hplaced
  have hplaced : ∀ w ∈ k.held ++ heldAll stack, w.Placed P W := hplaced
  have hkplaced := (List.forall_mem_append.1 hplaced).1
  have hv : v.From cs := h.control v List.mem_cons_self
  obtain ⟨hk, h⟩ := h.rests.pop
  have hdiscard := h.discard v
  cases k with
  | unary op line => exact hdiscard.ofResult line fun w hw => from_of_isPlain (UnaryOp.isPlain_of_apply hw)
  | left op line right => exact (h.push (.right op line v) (List.forall_mem_singleton.2 hv)).bare rfl
  | right op line left =>
    exact ((h.discard left).discard v).ofResult line fun w hw => from_of_isPlain (BinaryOp.isPlain_of_apply hw)
  | logical op right =>
    unfold yieldStep
    dsimp only
    split
    · exact h.yield hv
    · exact hdiscard.bare rfl
  | assign ref =>
    have hassign := (h.retain v).assign hgoes.1.1 hv
    unfold yieldStep
    dsimp only
    split <;> rename_i heq <;> rw [heq] at hassign
    · exact hassign.yield hv
    · exact (hassign.discard v).bare rfl
  | callee line arguments =>
    cases arguments with
    | nil => exact carries_call h line hvplaced hv nofun hr
    | cons e rest => exact (h.push (.argument line v [] rest) (List.forall_mem_singleton.2 hv)).bare rfl
  | argument line callee ready rest =>
    obtain ⟨hcallee, hready⟩ := List.forall_mem_cons.1 hk
    have hall : ∀ w ∈ ready ++ [v], w.From cs :=
      List.forall_mem_append.2 ⟨hready, List.forall_mem_singleton.2 hv⟩
    cases rest with
    | nil => exact carries_call h line (hkplaced callee List.mem_cons_self) hcallee hall hr
    | cons e rest =>
      exact (h.push (.argument line callee (ready ++ [v]) rest)
        (List.forall_mem_cons.2 ⟨hcallee, hall⟩)).bare rfl
  | get name =>
    obtain ⟨hstore, hresult⟩ := Interpreter.from_property h.store hr v name.text
    exact Rests.ofResult (Rests.discard ⟨h.held, hstore⟩ v) name.line hresult
  | target name value =>
    cases v with
    | «instance» id => exact (h.push (.field id name) (List.forall_mem_singleton.2 nofun)).bare rfl
    | _ => exact hdiscard.bare rfl
  | field receiver name =>
    have hset := (h.store.retain v).setField receiver name.text hv
    exact Rests.yield (i := { i with store := _ }) ⟨h.held, hset.discard (.instance receiver)⟩ hv
  | drop => exact hdiscard.bare rfl
  | print =>
    have hwrite : Rests cs stack (i.writeLine v).2 := ⟨h.held, h.store⟩
    unfold yieldStep
    dsimp only
    split <;> rename_i heq <;> rw [heq] at hwrite
    · exact (hwrite.discard v).bare rfl
    · exact (hwrite.discard v).bare rfl
  | define name => exact (h.define hgoes.1 hv).bare rfl
  | branch yes no =>
    unfold yieldStep
    dsimp only
    split
    · exact hdiscard.bare rfl
    · split <;> exact hdiscard.bare rfl
  | test condition body =>
    unfold yieldStep
    dsimp only
    split
    · exact (hdiscard.push (.round condition body) nofun).bare rfl
    · exact hdiscard.bare rfl
  | result => exact h.returning hv
  | superclass name parent methods =>
    cases v with
    | classObject c =>
      have hsuperclass : ∀ d ∈ some c, d ∈ cs :=
        fun d hd => hv d (congrArg Value.classObject (Option.some.inj hd))
      have hmade := Interpreter.from_declareClass hgoes.1.1 h.store hr hsuperclass (hnew _ rfl)
      exact Rests.bare ⟨h.held, hmade⟩ rfl
    | _ => exact hdiscard.bare rfl
  | construct receiver => exact hdiscard.yield nofun
  | round condition body => exact h.yield hv
  | sequence rest => exact h.yield hv
  | leave previous frame => exact h.yield hv
  | finish f => exact h.yield hv

theorem carries_doneStep {k : Cont} (h : Rests cs (k :: stack) i) : Carries cs (doneStep k stack i) := by
  obtain ⟨-, hstack⟩ := h.pop
  cases k with
  | sequence rest =>
    cases rest with
    | nil => exact hstack.bare rfl
    | cons s rest => exact (hstack.push (.sequence rest) nofun).bare rfl
  | round condition body => exact (hstack.push (.test condition body) nofun).bare rfl
  | leave previous frame => exact (hstack.leave previous frame).bare rfl
  | finish f => exact carries_finishCall hstack f (v := .nil) nofun
  | _ => exact hstack.bare rfl

theorem carries_returnStep {k : Cont} (h : Rests cs (k :: stack) i) (hv : v.From cs) :
    Carries cs (returnStep v k stack i) := by
  obtain ⟨-, hstack⟩ := h.pop
  cases k with
  | leave previous frame => exact (hstack.leave previous frame).returning hv
  | finish f => exact carries_finishCall hstack f hv
  | _ => exact hstack.returning hv

theorem carries_failStep {k : Cont} (h : Rests cs (k :: stack) i) (failure : Failure) :
    Carries cs (failStep failure k stack i) := by
  obtain ⟨-, hstack⟩ := h.pop
  cases k with
  | right op line left => exact (hstack.discard left).bare rfl
  | argument line callee ready rest => exact ((hstack.discardAll ready).discard callee).bare rfl
  | field receiver name => exact (hstack.discard (.instance receiver)).bare rfl
  | construct receiver => exact (hstack.discard (.instance receiver)).bare rfl
  | leave previous frame => exact (hstack.leave previous frame).bare rfl
  | finish f => exact (hstack.discard (.function f)).drain.bare rfl
  | _ => exact hstack.bare rfl

/-- The classes that there are after a step have been there before, or it has declared them. -/
theorem Carries.step {m : Machine} (h : m.Carries cs) (hm : m.Placed P W) (hr : m.state.store.arena.Recycles)
    (hnew : ∀ d ∈ m.declares?, d.made ∈ cs) : m.step.Carries cs := by
  obtain ⟨control, stack, i⟩ := m
  cases control with
  | eval e => exact carries_evalStep h.rests e hr
  | exec s => exact carries_execStep h.rests hm.goes hr hnew
  | crashed => exact h
  | yield v =>
    cases stack with
    | nil => exact h
    | cons k stack => exact carries_yieldStep hm h hr hnew
  | done =>
    cases stack with
    | nil => exact h
    | cons k stack => exact carries_doneStep h.rests
  | returning v =>
    cases stack with
    | nil => exact h
    | cons k stack => exact carries_returnStep h.rests (h.control v List.mem_cons_self)
  | failed failure =>
    cases stack with
    | nil => exact h
    | cons k stack => exact carries_failStep h.rests failure

end Machine
end Lox
