import Lox.Proofs.Scoping.Lexical
import Lox.Proofs.Scoping.References

/-!
# Receivers and superclasses stay

A frame that is made for a receiver binds `this`, and one that is made for a superclass binds `super`.
Programs can neither declare these names nor assign to them. So frames bind them to what they have been made
for, as long as there are the frames.
-/
namespace Lox

namespace Machine

/-- The next step makes a frame for a value. A method is bound to its receiver when it is read as a property
or through `super`, or when it initializes a new instance, and a class that is declared has a superclass. -/
inductive Furnishes : Machine → Opening → Value → Prop where
  | property {id : ObjectId} {name stack} {i : Interpreter} {method : Function}
      (hmethod : i.methodOf? (.instance id) name.text = some method) :
      Furnishes ⟨.yield (.instance id), .get name :: stack, i⟩ (i.store.openedByBind method) (.instance id)
  | super {id : ObjectId} {inner ref} {name : Ident} {stack} {i : Interpreter} {method : Function}
      (hdistance : i.distances[ref.id]? = some (inner + 1))
      (hthis : i.store.arena.findAt? i.active inner "this" = some (.instance id))
      (hmethod : i.methodOfSuper? ref name.text = some method) :
      Furnishes ⟨.eval (.super ref name), stack, i⟩ (i.store.openedByBind method) (.instance id)
  | initializer {m : Machine} {c : Class} {arguments method} {id : ObjectId} {store : Store}
      (hcall : m.call? = some (.classObject c, arguments)) (harity : c.arity = arguments.length)
      (hid : m.state.store.allocate (.instance c Bindings.empty) = (id, store))
      (hmethod : c.findMethod? initializerName = some method) :
      Furnishes m (store.openedByBind method) (.instance id)
  | superclass {c : Class} {name parent methods stack} {i : Interpreter} :
      Furnishes ⟨.yield (.classObject c), .superclass name parent methods :: stack, i⟩
        ⟨((i.define name.text .nil).enter i.active).active, .heritage methods, i.active⟩ (.classObject c)

/-- The values for which the next step makes frames. -/
def furnished (m : Machine) (h : Handle) (v : Value) : Prop := ∃ o, m.Furnishes o v ∧ o.frame = h

end Machine

namespace Arena

variable {N N' : Handle → Value → Prop} {a b c : Arena}

/-- What the frames of `b` bind to reserved names, those of `a` do, unless it is in `N`. -/
def Fixed (N : Handle → Value → Prop) (a b : Arena) : Prop :=
  ∀ h name v, Reserved name → b.find? h name = some v → a.find? h name = some v ∨ N h v

namespace Fixed

theorem refl (a : Arena) : Fixed N a a := fun _ _ _ _ hv => .inl hv

theorem mono (hab : Fixed N a b) (hN : ∀ h v, N h v → N' h v) : Fixed N' a b :=
  fun h name v hname hv => (hab h name v hname hv).imp_right (hN h v)

theorem trans (hab : Fixed N a b) (hbc : Fixed N b c) : Fixed N a c := by
  intro h name v hname hv
  obtain hv | hv := hbc h name v hname hv
  · exact hab h name v hname hv
  · exact .inr hv

theorem create (hr : a.Recycles) (e : Handle) : Fixed N a (a.create e).2 := by
  intro h name v _ hv
  obtain ⟨f, hf, hv⟩ := Option.bind_eq_some_iff.1 hv
  obtain ⟨rfl, rfl⟩ | hf := frame?_create_cases hr e hf
  · cases hv
  · exact .inl (Option.bind_eq_some_iff.2 ⟨f, hf, hv⟩)

theorem capture (a : Arena) (h : Handle) : Fixed N a (a.capture h) := by
  intro g name v _ hv
  obtain ⟨f, hf, hv⟩ := Option.bind_eq_some_iff.1 hv
  obtain hsame | ⟨f', hf', hsame⟩ := frame?_capture a h g
  · exact .inl (Option.bind_eq_some_iff.2 ⟨f, hsame ▸ hf, hv⟩)
  · rw [hsame] at hf
    cases hf
    exact .inl (Option.bind_eq_some_iff.2 ⟨f', hf', hv⟩)

end Fixed
end Arena

open Arena (Fixed)

variable {N : Handle → Value → Prop}

/-! ## Operations of the store -/

namespace Store

variable {s t : Store}

theorem Remains.fixed (h : t.Remains s) : Fixed N s.arena t.arena := by
  intro g name v _ hv
  obtain ⟨f, hf, hv⟩ := Option.bind_eq_some_iff.1 hv
  exact .inl (Option.bind_eq_some_iff.2 ⟨f, h.frames g f hf, hv⟩)

theorem fixed_define {h : Handle} {name : String} {v : Value} (hN : Reserved name → N h v) :
    Fixed N s.arena (s.define h name v).arena := by
  intro g x w hx hw
  by_cases hgh : g = h
  · subst hgh
    cases hf : s.arena.frame? g with
    | none =>
      rw [define_of_none hf, arena_discard] at hw
      exact .inl hw
    | some f =>
      rw [define_of_some hf] at hw
      obtain ⟨f', hf', hw⟩ := Option.bind_eq_some_iff.1 hw
      have hput := (Arena.frame?_put hf { f with bindings := f.bindings.insert name v } g).trans (if_pos rfl)
      cases hput.symm.trans hf'
      rw [Bindings.find?_insert] at hw
      split at hw
      · next heq =>
        cases hw
        exact .inr (hN (heq ▸ hx))
      · exact .inl (Option.bind_eq_some_iff.2 ⟨f, hf, hw⟩)
  · obtain ⟨f, hf, hw⟩ := Option.bind_eq_some_iff.1 hw
    rw [frame?_define_of_ne hgh] at hf
    exact .inl (Option.bind_eq_some_iff.2 ⟨f, hf, hw⟩)

theorem fixed_assign (h : Handle) {name : String} (hname : ¬ Reserved name) (v : Value) :
    Fixed N s.arena (s.assign h name v).2.arena := by
  unfold assign
  split
  · exact fixed_define fun hreserved => absurd hreserved hname
  · exact (remains_discard s v).fixed

theorem fixed_assignAt (h : Handle) (distance : Nat) {name : String} (hname : ¬ Reserved name) (v : Value) :
    Fixed N s.arena (s.assignAt h distance name v).2.arena := by
  unfold assignAt
  split
  · exact fixed_assign _ hname v
  · exact (remains_discard s v).fixed

theorem fixed_bind (hr : s.arena.Recycles) {method : Function} {receiver : Value}
    (hN : N (s.openedByBind method).frame receiver) : Fixed N s.arena (s.bind method receiver).2.arena := by
  have hcreate : Fixed N s.arena (s.create method.closure).2.arena := Fixed.create hr method.closure
  have hretain := (remains_retain (s.create method.closure).2 receiver).fixed (N := N)
  exact (hcreate.trans hretain).trans (fixed_define fun _ => hN)

end Store

/-! ## Operations of the language -/

namespace Interpreter

variable {i : Interpreter}

theorem fixed_define {name : String} {v : Value} (hN : Reserved name → N i.active v) :
    Fixed N i.store.arena (i.define name v).store.arena := Store.fixed_define hN

theorem remains_giveUp (i : Interpreter) (values : List Value) (v : Value) :
    ((i.discardAll values).discard v).store.Remains i.store :=
  (Store.remains_discard (i.store.discardAll values) v).trans (Store.remains_discardObjects i.store _)

theorem fixed_leave (previous frame : Handle) : Fixed N i.store.arena (i.leave previous frame).store.arena :=
  ((Store.remains_drain _).trans (Store.remains_release i.store frame)).fixed

theorem fixed_assign {ref : Reference} (hplain : ref.name.Plain) (v : Value) :
    Fixed N i.store.arena (i.assign ref v).2.store.arena := by
  unfold assign
  split
  · exact Store.fixed_assignAt _ _ hplain.not_reserved v
  · exact Store.fixed_assign _ hplain.not_reserved v

theorem fixed_closeOver (decl : FunctionDecl) (isInitializer : Bool) :
    Fixed N i.store.arena (i.closeOver decl isInitializer).2.store.arena :=
  Fixed.capture i.store.arena i.active

theorem fixed_declareFunction {decl : FunctionDecl} (hplain : decl.name.Plain) :
    Fixed N i.store.arena (i.declareFunction decl).store.arena :=
  (fixed_closeOver decl false).trans (Store.fixed_define fun h => absurd h hplain.not_reserved)

theorem fixed_foldl_define {bindings : List (Ident × Value)} (hplain : ∀ b ∈ bindings, b.1.Plain) :
    Fixed N i.store.arena (bindings.foldl (fun j (p, v) => j.define p.text v) i).store.arena := by
  induction bindings generalizing i with
  | nil => exact .refl _
  | cons binding rest ih =>
    obtain ⟨hfirst, hrest⟩ := List.forall_mem_cons.1 hplain
    have hdefine : Fixed N i.store.arena (i.define binding.1.text binding.2).store.arena :=
      fixed_define fun h => absurd h hfirst.not_reserved
    exact hdefine.trans (ih hrest)

theorem fixed_closeOverMethods (table : Bindings Function) (methods : List FunctionDecl) :
    Fixed N i.store.arena (i.closeOverMethods table methods).2.store.arena := by
  induction methods generalizing i table with
  | nil => exact .refl _
  | cons decl rest ih => exact (fixed_closeOver decl (decl.name.text = initializerName)).trans (ih _)

theorem fixed_closeOverDerived (hr : i.store.arena.Recycles) {parent : Class} (methods : List FunctionDecl)
    (hN : N (i.enter i.active).active (.classObject parent)) :
    Fixed N i.store.arena (i.closeOverDerived parent methods).2.store.arena := by
  have henter : Fixed N i.store.arena (i.enter i.active).store.arena := Fixed.create hr i.active
  have hsuper : Fixed N (i.enter i.active).store.arena
      ((i.enter i.active).define "super" (.classObject parent)).store.arena := fixed_define fun _ => hN
  have hmethods := (henter.trans hsuper).trans (fixed_closeOverMethods Bindings.empty methods)
  exact hmethods.trans (Store.remains_release _ _).fixed

/-- The superclass of a class that is declared is bound in the frame that is made for it. -/
theorem fixed_declareClass (hr : i.store.arena.Recycles) {name : Ident} (hplain : name.Plain)
    (superclass : Option Class) (methods : List FunctionDecl)
    (hN : ∀ c ∈ superclass, N ((i.define name.text .nil).enter i.active).active (.classObject c)) :
    Fixed N i.store.arena (i.declareClass name.text superclass methods).store.arena := by
  have hnil : Fixed N i.store.arena (i.define name.text .nil).store.arena :=
    fixed_define fun h => absurd h hplain.not_reserved
  have hbind : ∀ {j : Interpreter} {v : Value}, Fixed N j.store.arena (j.define name.text v).store.arena :=
    fixed_define fun h => absurd h hplain.not_reserved
  cases superclass with
  | none => exact (hnil.trans (fixed_closeOverMethods Bindings.empty methods)).trans hbind
  | some parent =>
    have hrecycles : (i.define name.text .nil).store.arena.Recycles :=
      (grows_define (B := fun _ _ => True) hr .nil trivial).recycles
    exact (hnil.trans (fixed_closeOverDerived hrecycles methods (hN parent rfl))).trans hbind

theorem fixed_property (hr : i.store.arena.Recycles) {object : Value} {name : String}
    (hN : ∀ id method, object = .instance id → i.methodOf? object name = some method →
      N (i.store.openedByBind method).frame object) :
    Fixed N i.store.arena (i.property object name).2.store.arena := by
  unfold property
  split
  · next id =>
    split
    · exact (Store.remains_retain _ _).fixed
    · next hfield =>
      split
      · next method hmethod =>
        have hfound : i.methodOf? (.instance id) name = some method := by
          unfold methodOf?
          dsimp only
          rw [hfield, hmethod]
        exact Store.fixed_bind hr (hN id method rfl hfound)
      · exact .refl _
  · split
    · exact (Store.remains_retain _ _).fixed
    · exact (Store.remains_retain _ _).fixed
    · exact .refl _
    · exact .refl _
  · exact .refl _

/-- The class and the instance are found one link apart. -/
theorem methodOfSuper?_eq_some {ref : Reference} {name : String} {method : Function}
    (h : i.methodOfSuper? ref name = some method) : ∃ inner parent id,
      i.distances[ref.id]? = some (inner + 1) ∧
      i.store.arena.findAt? i.active (inner + 1) "super" = some (.classObject parent) ∧
      i.store.arena.findAt? i.active inner "this" = some (.instance id) ∧
      parent.findMethod? name = some method := by
  unfold methodOfSuper? at h
  split at h
  · next inner hdistance =>
    split at h
    · next parent id hsuper hthis => exact ⟨inner, parent, id, hdistance, hsuper, hthis, h⟩
    · cases h
  · cases h

section

variable {ref : Reference} {inner : Nat} {parent : Class} {id : ObjectId} {name : String}
  (hdistance : i.distances[ref.id]? = some (inner + 1))
  (hsuper : i.store.arena.findAt? i.active (inner + 1) "super" = some (.classObject parent))
  (hthis : i.store.arena.findAt? i.active inner "this" = some (.instance id))

include hdistance hsuper hthis

/-- A method of the class is bound to the instance. -/
theorem superMethod_eq_ok {method : Function} (hmethod : parent.findMethod? name = some method) :
    i.superMethod ref name = (.ok (.function (i.store.bind method (.instance id)).1),
      { i with store := (i.store.bind method (.instance id)).2 }) := by
  simp only [superMethod, hdistance, hsuper, hthis, hmethod]

theorem superMethod_eq_error (hnone : parent.findMethod? name = none) :
    i.superMethod ref name = (.error (.undefinedProperty name), i) := by
  simp only [superMethod, hdistance, hsuper, hthis, hnone]

end

end Interpreter

/-! ## One step -/

namespace Machine

variable {P : List Surrounding → Reference → Prop} {W : Standing} {i : Interpreter} {stack : List Cont}

theorem fixed_callFunction (hr : i.store.arena.Recycles) (line : Nat) {f : Function} (arguments : List Value)
    (hplain : ∀ param ∈ f.decl.params, param.Plain) :
    Fixed N i.store.arena (callFunction line f arguments stack i).state.store.arena := by
  unfold callFunction
  split
  · have henter : Fixed N i.store.arena (i.enter f.closure).store.arena := Fixed.create hr f.closure
    exact henter.trans (Interpreter.fixed_foldl_define fun b hb => hplain b.1 (List.of_mem_zip hb).1)
  · exact ((Store.remains_drain _).trans (i.remains_giveUp arguments (.function f))).fixed

theorem fixed_instantiate (hr : i.store.arena.Recycles) (line : Nat) {c : Class} (arguments : List Value)
    (hc : c.Placed P W) (hN : ∀ id store method, i.store.allocate (.instance c Bindings.empty) = (id, store) →
      c.findMethod? initializerName = some method → N (store.openedByBind method).frame (.instance id)) :
    Fixed N i.store.arena (instantiate line c arguments stack i).state.store.arena := by
  unfold instantiate
  dsimp only
  split
  · exact .refl _
  · next method hmethod =>
    obtain ⟨-, -, around, -, hfits⟩ := hc initializerName method hmethod
    rw [FunctionDecl.fits_eq] at hfits
    have hbind := Store.fixed_bind (s := (i.store.allocate (.instance c Bindings.empty)).2) hr
      (hN _ _ method rfl hmethod)
    have hgrows := Store.grows_bind (B := fun _ _ => True)
      (s := (i.store.allocate (.instance c Bindings.empty)).2) hr method
      (.instance (i.store.allocate (.instance c Bindings.empty)).1)
    exact hbind.trans (fixed_callFunction (i := { i with store := _ }) hgrows.recycles line arguments hfits.1)

theorem fixed_call (hr : i.store.arena.Recycles) (line : Nat) {callee : Value} (arguments : List Value)
    (hcallee : callee.Placed P W)
    (hN : ∀ c id store method, callee = .classObject c → c.arity = arguments.length →
      i.store.allocate (.instance c Bindings.empty) = (id, store) →
      c.findMethod? initializerName = some method → N (store.openedByBind method).frame (.instance id)) :
    Fixed N i.store.arena (call line callee arguments stack i).state.store.arena := by
  have hgive : Fixed N i.store.arena ((i.discardAll arguments).discard callee).store.arena :=
    (i.remains_giveUp arguments callee).fixed
  unfold call
  split
  · exact hgive
  · next arity harity =>
    split
    · next hlength =>
      split
      · next n =>
        have hnative : Fixed N i.store.arena (i.callNative n arguments).2.store.arena := by
          rw [Interpreter.arena_callNative]
          exact .refl _
        split <;> rename_i heq <;> rw [heq] at hnative <;> exact hnative
      · next f =>
        obtain ⟨-, -, around, -, hfits, -⟩ := hcallee
        rw [FunctionDecl.fits_eq] at hfits
        exact fixed_callFunction hr line arguments hfits.1
      · next c =>
        have hsame : c.arity = arguments.length := (Option.some.inj harity).trans hlength.symm
        exact fixed_instantiate hr line arguments hcallee fun id store method hid hmethod =>
          hN c id store method rfl hsame hid hmethod
      · next id method =>
        have hcalled : (callArrayMethod id method arguments i).2.store.arena = i.store.arena := by
          unfold callArrayMethod
          split
          · exact Store.arena_retain i.store _
          · exact (Store.arena_retain _ _).trans (Store.arena_setElement i.store id _ _)
          · rfl
        exact hcalled ▸ (Interpreter.remains_giveUp _ arguments (.arrayMethod id method)).fixed
      · exact hgive
    · exact hgive

theorem fixed_evalStep (hr : i.store.arena.Recycles) (e : Expr) :
    Fixed (furnished ⟨.eval e, stack, i⟩) i.store.arena (evalStep e stack i).state.store.arena := by
  cases e with
  | «variable» ref | this ref =>
    unfold evalStep
    dsimp only
    split
    · exact (Store.remains_retain _ _).fixed
    · exact .refl _
  | super ref name =>
    rw [store_super]
    obtain ⟨-, cause, heq⟩ | ⟨method, -, hmethod, -⟩ := i.superMethod_cases ref name.text
    · rw [heq]
      exact .refl _
    · obtain ⟨inner, parent, id, hdistance, hsuper, hthis, hfound⟩ := Interpreter.methodOfSuper?_eq_some hmethod
      rw [Interpreter.superMethod_eq_ok hdistance hsuper hthis hfound]
      exact Store.fixed_bind hr ⟨_, .super hdistance hthis hmethod, rfl⟩
  | _ => exact .refl _

theorem fixed_execStep (hr : i.store.arena.Recycles) {s : Stmt} (hm : Goes P W ⟨.exec s, stack, i⟩) :
    Fixed N i.store.arena (execStep s stack i).state.store.arena := by
  obtain ⟨around, -, hs, -⟩ := hm
  cases s with
  | var name initializer =>
    cases initializer with
    | none => exact Interpreter.fixed_define fun h => absurd h hs.1.not_reserved
    | some e => exact .refl _
  | block body => exact Fixed.create hr i.active
  | function decl => exact Interpreter.fixed_declareFunction hs.1
  | classDecl name superclass methods =>
    cases superclass with
    | none => exact Interpreter.fixed_declareClass hr hs.1 none methods nofun
    | some parent => exact .refl _
  | ret line value => cases value <;> exact .refl _
  | _ => exact .refl _

theorem fixed_yieldStep (hr : i.store.arena.Recycles) {v : Value} {k : Cont}
    (hm : Placed P W ⟨.yield v, k :: stack, i⟩) :
    Fixed (furnished ⟨.yield v, k :: stack, i⟩) i.store.arena (yieldStep v k stack i).state.store.arena := by
  obtain ⟨⟨around, -, hgoes⟩, hheld, -⟩ := hm
  obtain ⟨hv, hheld⟩ := List.forall_mem_cons.1 hheld
  have hheld : ∀ w ∈ k.held ++ heldAll stack, w.Placed P W := hheld
  have hk := (List.forall_mem_append.1 hheld).1
  have hdiscard := (Store.remains_discard i.store v).fixed (N := furnished ⟨.yield v, k :: stack, i⟩)
  cases k with
  | unary op line => exact hdiscard
  | right op line left => exact ((Store.remains_discard _ v).trans (Store.remains_discard i.store left)).fixed
  | logical op e =>
    unfold yieldStep
    dsimp only
    split
    · exact .refl _
    · exact hdiscard
  | assign ref =>
    have hretain := (Store.remains_retain i.store v).fixed (N := furnished ⟨.yield v, .assign ref :: stack, i⟩)
    have hassign := hretain.trans (Interpreter.fixed_assign (i := i.retain v) hgoes.1.1 v)
    unfold yieldStep
    dsimp only
    split <;> rename_i heq <;> rw [heq] at hassign
    · exact hassign
    · exact hassign.trans (Store.remains_discard _ v).fixed
  | callee line arguments =>
    cases arguments with
    | nil =>
      refine fixed_call hr line [] hv fun c id store method hc harity hid hmethod => ?_
      exact ⟨_, .initializer (congrArg (fun w => some (w, [])) hc) harity hid hmethod, rfl⟩
    | cons e rest => exact .refl _
  | argument line callee ready rest =>
    cases rest with
    | nil =>
      refine fixed_call hr line (ready ++ [v]) (hk callee List.mem_cons_self)
        fun c id store method hc harity hid hmethod => ?_
      exact ⟨_, .initializer (congrArg (fun w => some (w, ready ++ [v])) hc) harity hid hmethod, rfl⟩
    | cons e rest => exact .refl _
  | get name =>
    have hproperty : Fixed (furnished ⟨.yield v, .get name :: stack, i⟩) i.store.arena
        (i.property v name.text).2.store.arena := Interpreter.fixed_property hr fun id method hid hmethod => by
      subst hid
      exact ⟨_, .property hmethod, rfl⟩
    exact hproperty.trans (Store.remains_discard _ v).fixed
  | target name value => cases v <;> first | exact .refl _ | exact hdiscard
  | field receiver name =>
    have hset : ((i.store.retain v).setField receiver name.text v).arena = i.store.arena :=
      (Store.arena_setField _ receiver name.text v).trans (Store.arena_retain i.store v)
    exact hset ▸ (Store.remains_discard _ (.instance receiver)).fixed
  | drop => exact hdiscard
  | print =>
    have hwrite : (i.writeLine v).2.store = i.store := rfl
    unfold yieldStep
    dsimp only
    split <;> rename_i heq <;> rw [heq] at hwrite
    · exact hwrite ▸ hdiscard
    · exact hwrite ▸ hdiscard
  | define name => exact Interpreter.fixed_define fun h => absurd h hgoes.1.not_reserved
  | branch yes no =>
    unfold yieldStep
    dsimp only
    split
    · exact hdiscard
    · split <;> exact hdiscard
  | test condition body =>
    unfold yieldStep
    dsimp only
    split <;> exact hdiscard
  | superclass name parent methods =>
    cases v with
    | classObject c =>
      refine Interpreter.fixed_declareClass hr hgoes.1.1 (some c) methods fun d hd => ?_
      cases Option.mem_def.1 hd
      exact ⟨_, .superclass, rfl⟩
    | _ => exact hdiscard
  | construct receiver => exact hdiscard
  | _ => exact .refl _

theorem fixed_finishCall (f : Function) (v : Value) :
    Fixed N i.store.arena (finishCall f v stack i).state.store.arena := by
  have hresult : (callResult f v i).2.store.Remains i.store := by
    unfold callResult
    split
    · exact (Store.remains_discard _ v).trans (Store.remains_retain i.store _)
    · exact .refl _
  exact ((Store.remains_drain _).trans ((Store.remains_discard _ (.function f)).trans hresult)).fixed

theorem fixed_doneStep (k : Cont) : Fixed N i.store.arena (doneStep k stack i).state.store.arena := by
  cases k with
  | sequence rest => cases rest <;> exact .refl _
  | leave previous frame => exact Interpreter.fixed_leave previous frame
  | finish f => exact fixed_finishCall f .nil
  | _ => exact .refl _

theorem fixed_returnStep (v : Value) (k : Cont) :
    Fixed N i.store.arena (returnStep v k stack i).state.store.arena := by
  cases k with
  | leave previous frame => exact Interpreter.fixed_leave previous frame
  | finish f => exact fixed_finishCall f v
  | _ => exact .refl _

theorem fixed_failStep (failure : Failure) (k : Cont) :
    Fixed N i.store.arena (failStep failure k stack i).state.store.arena := by
  cases k with
  | right op line left => exact (Store.remains_discard i.store left).fixed
  | argument line callee ready rest => exact (i.remains_giveUp ready callee).fixed
  | field receiver name => exact (Store.remains_discard i.store (.instance receiver)).fixed
  | construct receiver => exact (Store.remains_discard i.store (.instance receiver)).fixed
  | leave previous frame => exact Interpreter.fixed_leave previous frame
  | finish f => exact ((Store.remains_drain _).trans (Store.remains_discard i.store (.function f))).fixed
  | _ => exact .refl _

/-- A step leaves receivers and superclasses as they are, and adds those for which it makes frames. -/
theorem Placed.fixed {m : Machine} (hm : m.Placed P W) (hr : m.state.store.arena.Recycles) :
    Fixed m.furnished m.state.store.arena m.step.state.store.arena := by
  obtain ⟨control, stack, i⟩ := m
  cases control with
  | eval e => exact fixed_evalStep hr e
  | exec s => exact fixed_execStep hr hm.goes
  | yield v =>
    cases stack with
    | nil => exact .refl _
    | cons k stack => exact fixed_yieldStep hr hm
  | done =>
    cases stack with
    | nil => exact .refl _
    | cons k stack => exact fixed_doneStep k
  | returning v =>
    cases stack with
    | nil => exact .refl _
    | cons k stack => exact fixed_returnStep v k
  | failed failure =>
    cases stack with
    | nil => exact .refl _
    | cons k stack => exact fixed_failStep failure k
  | crashed => exact .refl _

end Machine
end Lox
