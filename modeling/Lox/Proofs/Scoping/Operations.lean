import Lox.Proofs.Growth
import Lox.Proofs.Scoping.Places

/-!
# Functions and classes where they stand

A function is placed where it is made, since its frame is the active one, and a method where it is bound,
since a frame is made for its receiver. Frames that are made in between stand where they are made.
-/
namespace Lox

open Surrounding (declare)
open Arena (Grows)

variable {P : List Surrounding → Reference → Prop} {W : Standing} {past later : Past} {os os' : List Opening}
  {s : Store} {i : Interpreter} {around outer : List Surrounding} {v : Value}

theorem Value.suits_of_plain {name : Ident} (h : name.Plain) (v : Value) : v.Suits name.text :=
  ⟨fun hthis => absurd hthis h.1, fun hsuper => absurd hsuper h.2⟩

theorem Value.suits_this (id : ObjectId) : (Value.instance id).Suits "this" := ⟨fun _ => ⟨id, rfl⟩, nofun⟩

theorem Value.suits_super (c : Class) : (Value.classObject c).Suits "super" := ⟨nofun, fun _ => ⟨c, rfl⟩⟩

theorem Value.placed_of_isPlain (hv : v.isPlain = true) : v.Placed P W := by
  cases v <;> trivial

/-! ## Bound methods -/

namespace Store

theorem stands_bind {method : Function} (hs : s.arena.Stands os method.closure outer)
    (hr : s.arena.Recycles) (hos : os ⊆ os') (hnew : s.openedByBind method ∈ os') (receiver : Value) :
    (s.bind method receiver).2.arena.Stands os' (s.bind method receiver).1.closure
      (⟨.receiver method.decl, ["this"]⟩ :: outer) := by
  have hcreate : (s.create method.closure).2.arena.Stands os' (s.create method.closure).1
      (⟨.receiver method.decl, []⟩ :: outer) := hs.create hr hos hnew
  have hretain : ((s.create method.closure).2.retain receiver).arena = (s.create method.closure).2.arena :=
    arena_retain _ receiver
  rw [← hretain] at hcreate
  have hrecycles : ((s.create method.closure).2.retain receiver).arena.Recycles :=
    hretain ▸ Arena.recycles_create hr method.closure
  exact hcreate.define hrecycles "this" receiver

theorem Each.bind {V : Value → Prop} (hs : s.Each V) (hr : s.arena.Recycles) (method : Function)
    {id : ObjectId} (hv : V (.instance id)) : (s.bind method (.instance id)).2.Each V :=
  ((hs.create hr method.closure).retain (.instance id) |>.define _ hv (Value.suits_this id)).allocate nofun

end Store

/-- A method that is bound is a function with a frame for its receiver. -/
theorem Function.Bindable.bind {name : String} {method : Function}
    (hm : method.Bindable P (past.standing s.arena) name) (hmade : method ∈ past.functions)
    (hr : s.arena.Recycles) (hpast : past.Within later)
    (hnew : s.openedByBind method ∈ later.openings) (receiver : Value) :
    Value.Placed P (later.standing (s.bind method receiver).2.arena)
      (.function (s.bind method receiver).1) := by
  obtain ⟨⟨rfl, hkind⟩, outer, hclosure, hfits⟩ := hm
  exact ⟨.inr ⟨method, hpast.functions hmade, rfl, hnew⟩, hkind, ⟨.receiver method.decl, ["this"]⟩ :: outer,
    Store.stands_bind hclosure hr hpast.openings hnew receiver, hfits,
    fun _ => ⟨_, outer, rfl, List.mem_cons_self⟩⟩

namespace Interpreter

/-! ## Functions -/

theorem each_declareFunction {decl : FunctionDecl} (hplain : decl.name.Plain) (hfits : decl.Fits P around)
    (hactive : W.frame i.active around) (hnew : W.function (i.closeOver decl false).1)
    (hs : i.store.Each (Value.Placed P W)) :
    (i.declareFunction decl).store.Each (Value.Placed P W) := by
  have hclosed : (i.closeOver decl false).2.store.Each (Value.Placed P W) :=
    ⟨(hs.capture i.active).bound, (hs.capture i.active).inside⟩
  exact hclosed.define _ (v := .function (i.closeOver decl false).1) ⟨hnew, rfl, around, hactive, hfits, nofun⟩
    (Value.suits_of_plain hplain _)

/-! ## Classes -/

theorem each_closeOverMethods (table : Bindings Function) {methods : List FunctionDecl}
    (hfits : FunctionDecl.FitsAll P around methods) (hactive : W.frame i.active around)
    (hs : i.store.Each (Value.Placed P W))
    (htable : ∀ name method, table.find? name = some method → method.Bindable P W name) :
    (i.closeOverMethods table methods).2.store.Each (Value.Placed P W) ∧
      ∀ name method, (i.closeOverMethods table methods).1.find? name = some method →
        method.Bindable P W name := by
  induction methods generalizing i table with
  | nil => exact ⟨hs, htable⟩
  | cons decl rest ih =>
    have hclosed : (i.closeOver decl (decl.name.text = initializerName)).2.store.Each (Value.Placed P W) :=
      ⟨(hs.capture i.active).bound, (hs.capture i.active).inside⟩
    refine ih _ hfits.2 hactive hclosed fun name method hm => ?_
    rw [Bindings.find?_insert] at hm
    split at hm
    · next hname =>
      cases hm
      subst hname
      exact ⟨⟨rfl, rfl⟩, around, hactive, hfits.1⟩
    · exact htable name method hm

theorem each_closeOverDerived {parent : Class} {methods : List FunctionDecl}
    (hfits : FunctionDecl.FitsAll P around methods) (hinner : W.frame (i.enter i.active).active around)
    (hs : i.store.Each (Value.Placed P W)) (hr : i.store.arena.Recycles) (hparent : parent.Placed P W) :
    (i.closeOverDerived parent methods).2.store.Each (Value.Placed P W) ∧
      ∀ name method, (i.closeOverDerived parent methods).1.find? name = some method →
        method.Bindable P W name := by
  have henter : ((i.enter i.active).define "super" (.classObject parent)).store.Each (Value.Placed P W) :=
    (hs.create hr i.active).define _ (v := .classObject parent) hparent (Value.suits_super parent)
  obtain ⟨hmethods, htable⟩ := each_closeOverMethods Bindings.empty
    (i := (i.enter i.active).define "super" (.classObject parent)) hfits hinner henter nofun
  exact ⟨hmethods.release _, htable⟩

theorem placed_makeClass {name : String} {superclass : Option Class} {table : Bindings Function}
    (hsuperclass : ∀ c ∈ superclass, c.Placed P W) (hnew : ∀ method ∈ table.values, W.method method)
    (htable : ∀ name method, table.find? name = some method → method.Bindable P W name) :
    (s.makeClass name superclass table).1.Placed P W := by
  have htable : ∀ name method, table.find? name = some method → W.method method ∧ method.Bindable P W name :=
    fun name method hm => ⟨hnew method (mem_values_of_find? hm), htable name method hm⟩
  intro other method hm
  cases superclass with
  | none => exact htable other method hm
  | some parent =>
    unfold Store.makeClass at hm
    dsimp only at hm
    rw [Class.findMethod?] at hm
    split at hm
    · next hfound =>
      cases hm
      exact htable other method hfound
    · exact hsuperclass parent rfl other method hm

theorem each_bindClass {name : Ident} {superclass : Option Class} {table : Bindings Function}
    (hplain : name.Plain) (hs : i.store.Each (Value.Placed P W))
    (hsuperclass : ∀ c ∈ superclass, c.Placed P W) (hnew : ∀ method ∈ table.values, W.method method)
    (htable : ∀ name method, table.find? name = some method → method.Bindable P W name) :
    ({ i with store := (i.store.makeClass name.text superclass table).2 }.define name.text
      (.classObject (i.store.makeClass name.text superclass table).1)).store.Each (Value.Placed P W) := by
  have hmade : (i.store.makeClass name.text superclass table).2.Each (Value.Placed P W) :=
    ⟨hs.bound, hs.inside⟩
  exact hmade.define _ (v := .classObject _) (placed_makeClass hsuperclass hnew htable)
    (Value.suits_of_plain hplain _)

/-- Where the active frame stands when a class has been declared. -/
theorem stands_declareClass (hs : i.store.arena.Stands os i.active around) (hr : i.store.arena.Recycles)
    (name : String) (superclass : Option Class) (methods : List FunctionDecl) :
    (i.declareClass name superclass methods).store.arena.Stands os i.active (declare [name] around) := by
  have hnil : (i.define name .nil).store.arena.Stands os i.active (declare [name] around) :=
    hs.define hr name .nil
  have hgrows : Grows (fun _ _ => True) i.store.arena (i.define name .nil).store.arena :=
    grows_define hr .nil trivial
  cases superclass with
  | none =>
    have hmethods := grows_closeOverMethods (B := fun _ _ => True) hgrows.recycles Bindings.empty methods
    exact hnil.grow (hmethods.and (grows_bindClass hmethods.recycles none _ trivial)) (List.Subset.refl _)
  | some parent =>
    have hmethods := grows_closeOverDerived (B := fun _ _ => True) hgrows.recycles parent methods
    exact hnil.grow (hmethods.and (grows_bindClass hmethods.recycles (some parent) _ trivial))
      (List.Subset.refl _)

/-- What becomes of the frame that binds `super`. -/
theorem grows_heritage (hr : i.store.arena.Recycles) (name : String) (parent : Class)
    (methods : List FunctionDecl) :
    let j := (i.define name .nil).enter i.active
    Grows (fun _ _ => True) (j.define "super" (.classObject parent)).store.arena
      (i.declareClass name (some parent) methods).store.arena := by
  have hnil : Grows (fun _ _ => True) i.store.arena (i.define name .nil).store.arena :=
    grows_define hr .nil trivial
  have henter : ((i.define name .nil).enter i.active).store.arena.Recycles :=
    Arena.recycles_create hnil.recycles i.active
  have hsuper : Grows (fun _ _ => True) ((i.define name .nil).enter i.active).store.arena
      (((i.define name .nil).enter i.active).define "super" (.classObject parent)).store.arena :=
    grows_define henter _ trivial
  have hmethods := grows_closeOverMethods (B := fun _ _ => True) hsuper.recycles Bindings.empty methods
  have hrelease : Grows (fun _ _ => True)
      (((i.define name .nil).enter i.active).define "super" (.classObject parent)).store.arena
      ((i.define name .nil).closeOverDerived parent methods).2.store.arena :=
    hmethods.and (Store.grows_release hmethods.recycles _)
  exact hrelease.and (grows_bindClass hrelease.recycles (some parent) _ trivial)

/-- Where the frame stands that binds `super`. -/
theorem stands_heritage (hs : i.store.arena.Stands os i.active around) (hr : i.store.arena.Recycles)
    (name : String) (parent : Class) (methods : List FunctionDecl) (hos : os ⊆ os')
    (hnew : ⟨((i.define name .nil).enter i.active).active, .heritage methods, i.active⟩ ∈ os') :
    (i.declareClass name (some parent) methods).store.arena.Stands os'
      ((i.define name .nil).enter i.active).active
      (⟨.heritage methods, ["super"]⟩ :: declare [name] around) := by
  have hgrows : Grows (fun _ _ => True) i.store.arena (i.define name .nil).store.arena :=
    grows_define hr .nil trivial
  have hnil : (i.define name .nil).store.arena.Stands os i.active (declare [name] around) :=
    hs.define hr name .nil
  have henter : ((i.define name .nil).enter i.active).store.arena.Stands os'
      ((i.define name .nil).enter i.active).active (⟨.heritage methods, []⟩ :: declare [name] around) :=
    hnil.create hgrows.recycles hos hnew
  have hsuper := henter.define (Arena.recycles_create hgrows.recycles _) "super" (.classObject parent)
  exact hsuper.grow (grows_heritage hr name parent methods) (List.Subset.refl _)

/-! ## Properties -/

theorem active_property (i : Interpreter) (object : Value) (name : String) :
    (i.property object name).2.active = i.active := by
  unfold property
  split
  · split
    · rfl
    · split <;> rfl
  · split <;> rfl
  · rfl

theorem active_superMethod (i : Interpreter) (ref : Reference) (name : String) :
    (i.superMethod ref name).2.active = i.active := by
  unfold superMethod
  split
  · rfl
  · split
    · dsimp only
      split
      · split <;> rfl
      · rfl
    · rfl

section

variable (hs : i.store.Each (Value.Placed P (past.standing i.store.arena))) (hr : i.store.arena.Recycles)
  (hpast : past.Within later)

include hs hr hpast

omit hr hpast in
/-- The method that a property stands for is one of the class of the instance. -/
theorem bindable_of_methodOf? {object : Value} {name : String} {method : Function}
    (h : i.methodOf? object name = some method) :
    method ∈ past.functions ∧ method.Bindable P (past.standing i.store.arena) name := by
  unfold methodOf? at h
  split at h
  · split at h
    · cases h
    · obtain ⟨c, hc, hfound⟩ := Option.bind_eq_some_iff.1 h
      exact hs.parent? hc name method hfound
  · cases h

theorem placed_property (object : Value) (name : String)
    (hnew : ∀ method, i.methodOf? object name = some method → i.store.openedByBind method ∈ later.openings)
    (hW : (later.standing (i.property object name).2.store.arena).Within W) :
    (i.property object name).2.store.Each (Value.Placed P W) ∧
      ∀ v, (i.property object name).1 = .ok v → v.Placed P W := by
  have hold : i.store.Each (Value.Placed P W) := hs.mono fun v hv =>
    hv.mono ((Past.standing_within (grows_property (B := fun _ _ => True) hr object name) hpast).trans hW)
  unfold property at hW ⊢
  split at hW
  · next id =>
    split at hW
    · next v hfield =>
      refine ⟨hold.retain v, fun w hw => ?_⟩
      cases hw
      exact hold.field? hfield
    · next hfield =>
      split at hW
      · next method hmethod =>
        have hfound : i.methodOf? (.instance id) name = some method := by
          unfold methodOf?
          dsimp only
          rw [hfield, hmethod]
        obtain ⟨hmade, hbindable⟩ := bindable_of_methodOf? hs hfound
        refine ⟨hold.bind hr method (show Value.Placed P W (.instance id) from trivial), fun w hw => ?_⟩
        cases hw
        exact (hbindable.bind hmade hr hpast (hnew method hfound) (.instance id)).mono hW
      · exact ⟨hold, nofun⟩
  · next id =>
    split at hW
    · refine ⟨hold.retain (.array id), fun w hw => ?_⟩
      cases hw
      trivial
    · refine ⟨hold.retain (.array id), fun w hw => ?_⟩
      cases hw
      trivial
    · refine ⟨hold, fun w hw => ?_⟩
      cases hw
      trivial
    · exact ⟨hold, nofun⟩
  · exact ⟨hold, nofun⟩

omit hr hpast in
/-- The method that `super` stands for is one of the class that `super` is bound to. -/
theorem bindable_of_methodOfSuper? {ref : Reference} {name : String} {method : Function}
    (h : i.methodOfSuper? ref name = some method) :
    method ∈ past.functions ∧ method.Bindable P (past.standing i.store.arena) name := by
  unfold methodOfSuper? at h
  split at h
  · split at h
    · next hparent _ => exact (hs.findAt? hparent).1 name method h
    · cases h
  · cases h

theorem placed_superMethod (ref : Reference) (name : String)
    (hnew : ∀ method, i.methodOfSuper? ref name = some method →
      i.store.openedByBind method ∈ later.openings)
    (hW : (later.standing (i.superMethod ref name).2.store.arena).Within W) :
    (i.superMethod ref name).2.store.Each (Value.Placed P W) ∧
      ∀ v, (i.superMethod ref name).1 = .ok v → v.Placed P W := by
  have hold : i.store.Each (Value.Placed P W) := hs.mono fun v hv =>
    hv.mono ((Past.standing_within (grows_superMethod (B := fun _ _ => True) hr ref name) hpast).trans hW)
  obtain ⟨-, cause, heq⟩ | ⟨method, id, hmethod, heq⟩ := i.superMethod_cases ref name
  · rw [heq]
    exact ⟨hold, nofun⟩
  · rw [heq] at hW ⊢
    obtain ⟨hmade, hbindable⟩ := bindable_of_methodOfSuper? hs hmethod
    refine ⟨hold.bind hr method (show Value.Placed P W (.instance id) from trivial), fun w hw => ?_⟩
    cases hw
    exact (hbindable.bind hmade hr hpast (hnew method hmethod) (.instance id)).mono hW

end

/-! ## Built-in functions -/

theorem active_callNative (i : Interpreter) (n : Native) (arguments : List Value) :
    (i.callNative n arguments).2.active = i.active := by
  unfold callNative
  split
  · rfl
  · split
    · split <;> rfl
    · rfl
  · rfl
  · have hwrite : (i.write clearSequence).2.active = i.active := rfl
    split <;> rename_i heq <;> rw [heq] at hwrite
    · exact hwrite
    · split <;> exact hwrite
  · split
    · rfl
    · split <;> rfl
  · rfl
  · rfl

theorem placed_callNative (hs : i.store.Each (Value.Placed P W)) (n : Native) {arguments : List Value}
    (harguments : ∀ v ∈ arguments, v.Placed P W) :
    (i.callNative n arguments).2.store.Each (Value.Placed P W) ∧
      ∀ v, (i.callNative n arguments).1 = .value v → v.Placed P W := by
  unfold callNative
  split
  · exact ⟨hs, fun v hv => by cases hv; trivial⟩
  · split
    · split
      · exact ⟨hs, fun v hv => by cases hv; trivial⟩
      · exact ⟨hs, nofun⟩
    · exact ⟨hs, nofun⟩
  · exact ⟨hs, nofun⟩
  · have hwrite : (i.write clearSequence).2.store.Each (Value.Placed P W) := hs
    split <;> rename_i heq <;> rw [heq] at hwrite
    · exact ⟨hwrite, nofun⟩
    · split
      · exact ⟨hwrite, nofun⟩
      · exact ⟨hwrite, fun v hv => by cases hv; trivial⟩
  · split
    · exact ⟨hs, nofun⟩
    · split
      · exact ⟨hs, nofun⟩
      · refine ⟨hs.allocate fun v hv => ?_, fun v hv => by cases hv; trivial⟩
        rw [(Array.mem_replicate.1 (Array.mem_toList_iff.1 hv)).2]
        trivial
  · next v _ _ =>
    refine ⟨(hs.retain v).allocate fun w hw => ?_, fun v hv => by cases hv; trivial⟩
    cases List.mem_singleton.1 hw
    exact harguments v List.mem_cons_self
  · exact ⟨hs.allocate nofun, fun v hv => by cases hv; trivial⟩

end Interpreter
end Lox
