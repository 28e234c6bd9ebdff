import Lox.Proofs.Scoping.Surroundings
import Mathlib.Data.List.Nodup
import Mathlib.Logic.Relation

/-!
# What is statically wrong

The rules about where names and statements may stand, said of the places of a program. There is no
walk here and nothing is remembered along one: a place is judged by what is around it.
-/
namespace Lox

open Relation (ReflTransGen)

/-! ## Places -/

/-- What can be around a statement. -/
inductive Layer where
  /-- The statements before it in the same list. -/
  | after (before : List Stmt)
  | function (decl : FunctionDecl)
  | method (decl : FunctionDecl)
  | classDecl (name : Ident) (superclass : Option Reference)

namespace Layer

/-- The names that can be used because of a layer. Functions and classes can be used by their own bodies. -/
def names : Layer → List String
  | after before => before.flatMap Stmt.declared
  | function decl => decl.name.text :: decl.params.map Ident.text
  | method decl => decl.params.map Ident.text
  | classDecl name none => [name.text, "this"]
  | classDecl name (some _) => [name.text, "super", "this"]

def isFunction : Layer → Bool
  | function _ | method _ => true
  | after _ | classDecl .. => false

def isClass : Layer → Bool
  | classDecl .. => true
  | after _ | function _ | method _ => false

end Layer

/-- A statement with all layers around it, innermost first. -/
structure Place where
  around : List Layer
  statement : Stmt

/-- The places of the statements in a list. -/
inductive Listed (around : List Layer) : List Stmt → Place → Prop where
  | mk (before : List Stmt) (s : Stmt) (rest : List Stmt) :
    Listed around (before ++ s :: rest) ⟨.after before :: around, s⟩

/-- The second place is directly inside of the statement at the first one. -/
inductive Place.Holds : Place → Place → Prop where
  | block {around body inner} (h : Listed around body inner) : Holds ⟨around, .block body⟩ inner
  | yes {around condition s no} : Holds ⟨around, .branch condition s no⟩ ⟨around, s⟩
  | no {around condition yes s} :
    Holds ⟨around, .branch condition yes (some s)⟩ ⟨.after [yes] :: around, s⟩
  | loop {around condition body} : Holds ⟨around, .loop condition body⟩ ⟨around, body⟩
  | function {around decl inner} (h : Listed (.function decl :: around) decl.body inner) :
    Holds ⟨around, .function decl⟩ inner
  | method {around name superclass methods} {decl : FunctionDecl} {inner} (hm : decl ∈ methods)
    (h : Listed (.method decl :: .classDecl name superclass :: around) decl.body inner) :
    Holds ⟨around, .classDecl name superclass methods⟩ inner

/-- The place is somewhere in the program. -/
def Occurs (program : List Stmt) (place : Place) : Prop :=
  ∃ start, Listed [] program start ∧ ReflTransGen Place.Holds start place

/-! ## Rules -/

def Expr.operands : Expr → List Expr
  | .literal _ | .variable _ | .this _ | .super .. => []
  | .grouping operand | .unary _ _ operand | .assign _ operand | .get operand _ => [operand]
  | .binary _ _ left right | .logical _ _ left right => [left, right]
  | .call callee _ arguments => callee :: arguments
  | .set object _ value => [value, object]

/-- The second expression is the first one or somewhere in it. -/
def Expr.Part : Expr → Expr → Prop := ReflTransGen fun e operand => operand ∈ e.operands

/-- The expressions of a statement that are not inside of statements in it. -/
def Stmt.expressions : Stmt → List Expr
  | .expression e | .print e | .branch e .. | .loop e _ => [e]
  | .var _ value | .ret _ value => value.toList
  | .block _ | .function _ | .classDecl .. => []

/-- The names that are declared in the scope of a function, which parameters and body share. -/
def FunctionDecl.locals (decl : FunctionDecl) : List String :=
  decl.params.map Ident.text ++ decl.body.flatMap Stmt.declared

/-- The ways in which a place can break the rules. -/
inductive Place.Faulty (globals : List String) : Place → Prop where
  | redeclaredInBlock {around body} (h : ¬ (body.flatMap Stmt.declared).Nodup) :
    Faulty globals ⟨around, .block body⟩
  | redeclaredInFunction {around decl} (h : ¬ decl.locals.Nodup) :
    Faulty globals ⟨around, .function decl⟩
  | redeclaredInMethod {around name superclass methods} {decl : FunctionDecl} (hm : decl ∈ methods)
    (h : ¬ decl.locals.Nodup) : Faulty globals ⟨around, .classDecl name superclass methods⟩
  | topLevelReturn {around line value} (h : around.find? Layer.isFunction = none) :
    Faulty globals ⟨around, .ret line value⟩
  | initializerValue {around line e} {decl : FunctionDecl}
    (h : around.find? Layer.isFunction = some (.method decl))
    (hname : decl.name.text = initializerName) : Faulty globals ⟨around, .ret line (some e)⟩
  | thisOutsideClass {around s e ref} (he : e ∈ s.expressions) (hpart : e.Part (.this ref))
    (h : around.find? Layer.isClass = none) : Faulty globals ⟨around, s⟩
  | superOutsideDerived {around s e ref method} (he : e ∈ s.expressions)
    (hpart : e.Part (.super ref method))
    (h : ∀ name parent, around.find? Layer.isClass ≠ some (.classDecl name (some parent))) :
    Faulty globals ⟨around, s⟩
  | selfInheritance {around} {name : Ident} {parent : Reference} {methods}
    (h : parent.name.text = name.text) : Faulty globals ⟨around, .classDecl name (some parent) methods⟩
  | ownInitializer {around} {name : Ident} {e : Expr} {ref : Reference} (hr : ref ∈ e.references)
    (hname : ref.name.text = name.text) (hglobals : name.text ∉ globals)
    (haround : ∀ layer ∈ around, name.text ∉ layer.names) : Faulty globals ⟨around, .var name (some e)⟩

/-- The rules are broken somewhere in a program. -/
def Malformed (globals : List String) (program : List Stmt) : Prop :=
  ∃ place, Occurs program place ∧ place.Faulty globals

/-! ## Taking places apart -/

theorem forall_reachable {α : Type} {R : α → α → Prop} {P : α → Prop} {a : α} :
    (∀ c, ReflTransGen R a c → P c) ↔ P a ∧ ∀ b, R a b → ∀ c, ReflTransGen R b c → P c := by
  constructor
  · exact fun h => ⟨h a .refl, fun b hb c hc => h c (hc.head hb)⟩
  · intro h c hc
    obtain rfl | ⟨b, hb, hc⟩ := hc.cases_head
    · exact h.1
    · exact h.2 b hb c hc

/-- The rules are kept at the place and everywhere inside of it. -/
def Place.Sound (globals : List String) (place : Place) : Prop :=
  ∀ inner, ReflTransGen Place.Holds place inner → ¬ inner.Faulty globals

/-- The rules are kept in the rest of a list of statements. -/
def SoundAll (globals : List String) (around : List Layer) (before rest : List Stmt) : Prop :=
  ∀ passed s after, rest = passed ++ s :: after →
    Place.Sound globals ⟨.after (before ++ passed) :: around, s⟩

section

variable {globals : List String} {around : List Layer} {before rest body : List Stmt} {s : Stmt}

theorem Place.sound_iff {place : Place} :
    place.Sound globals ↔
      ¬ place.Faulty globals ∧ ∀ inner, place.Holds inner → inner.Sound globals :=
  forall_reachable

theorem soundAll_nil : SoundAll globals around before [] := by
  intro passed s after h
  exact absurd h.symm (List.append_ne_nil_of_right_ne_nil _ (List.cons_ne_nil _ _))

theorem soundAll_cons :
    SoundAll globals around before (s :: rest) ↔
      Place.Sound globals ⟨.after before :: around, s⟩ ∧
        SoundAll globals around (before ++ [s]) rest := by
  constructor
  · intro h
    refine ⟨?_, fun passed t after hrest => ?_⟩
    · have hfirst := h [] s rest rfl
      rwa [List.append_nil] at hfirst
    · have hlater := h (s :: passed) t after (congrArg (s :: ·) hrest)
      rwa [List.append_assoc before [s] passed]
  · rintro ⟨hfirst, hlater⟩ passed t after hrest
    cases passed with
    | nil =>
      cases hrest
      rwa [List.append_nil]
    | cons first passed =>
      cases hrest
      have hsound := hlater passed t after rfl
      rwa [List.append_assoc before [s] passed] at hsound

theorem sound_listed :
    (∀ place, Listed around body place → place.Sound globals) ↔ SoundAll globals around [] body := by
  constructor
  · rintro h passed s after rfl
    exact h _ (.mk passed s after)
  · rintro h _ ⟨passed, s, after⟩
    exact h passed s after rfl

/-- A program keeps the rules if its statements do. -/
theorem not_malformed {program : List Stmt} :
    ¬ Malformed globals program ↔ SoundAll globals [] [] program := by
  rw [← sound_listed]
  constructor
  · exact fun h start hstart place hplace hfaulty => h ⟨place, ⟨start, hstart, hplace⟩, hfaulty⟩
  · rintro h ⟨place, ⟨start, hstart, hplace⟩, hfaulty⟩
    exact h start hstart place hplace hfaulty

end

/-! ## Places that keep the rules -/

/-- The innermost function and class, as resolution speaks of them. -/
def Layer.context (around : List Layer) : Context where
  function := match around.find? isFunction with
    | some (function _) => .function
    | some (method decl) => if decl.name.text = initializerName then .initializer else .method
    | _ => .outside
  classes := match around.find? isClass with
    | some (classDecl _ none) => .base
    | some (classDecl _ (some _)) => .derived
    | _ => .outside

namespace Layer

variable {around : List Layer}

theorem function_outside : (context around).function = .outside ↔ around.find? isFunction = none := by
  unfold context
  cases hf : around.find? isFunction with
  | none => exact iff_of_true rfl rfl
  | some layer =>
    have hlayer := List.find?_some hf
    refine iff_of_false (fun h => ?_) nofun
    cases layer with
    | function decl => cases h
    | method decl =>
      dsimp only at h
      split at h <;> cases h
    | after before => cases hlayer
    | classDecl name superclass => cases hlayer

theorem function_initializer :
    (context around).function = .initializer ↔
      ∃ decl, around.find? isFunction = some (method decl) ∧ decl.name.text = initializerName := by
  unfold context
  dsimp only
  constructor
  · intro h
    split at h
    · cases h
    · next decl hf =>
      split at h
      · next hname => exact ⟨decl, hf, hname⟩
      · cases h
    · cases h
  · rintro ⟨decl, hf, hname⟩
    rw [hf]
    exact if_pos hname

theorem classes_outside : (context around).classes = .outside ↔ around.find? isClass = none := by
  unfold context
  cases hf : around.find? isClass with
  | none => exact iff_of_true rfl rfl
  | some layer =>
    have hlayer := List.find?_some hf
    refine iff_of_false (fun h => ?_) nofun
    cases layer with
    | classDecl name superclass => cases superclass <;> cases h
    | _ => cases hlayer

theorem classes_derived :
    (context around).classes = .derived ↔
      ∃ name parent, around.find? isClass = some (classDecl name (some parent)) := by
  unfold context
  dsimp only
  constructor
  · intro h
    split at h
    · cases h
    · next name parent hf => exact ⟨name, parent, hf⟩
    · cases h
  · rintro ⟨name, parent, hf⟩
    rw [hf]

end Layer

/-- Whether a node can be used in a class of this sort. -/
def Expr.Allowed (classes : ClassContext) : Expr → Prop
  | .this _ => classes ≠ .outside
  | .super .. => classes = .derived
  | _ => True

theorem Expr.forall_part {P : Expr → Prop} {e : Expr} :
    (∀ part, e.Part part → P part) ↔ P e ∧ ∀ operand ∈ e.operands, ∀ part, operand.Part part → P part :=
  forall_reachable

/-- The name can be used: it is global already, or some layer has it. -/
def Known (globals : List String) (around : List Layer) (name : String) : Prop :=
  name ∈ globals ∨ ∃ layer ∈ around, name ∈ layer.names

/-- `this` and `super` are used in a statement only where they can be. -/
def Stmt.Proper (around : List Layer) (s : Stmt) : Prop :=
  ∀ e ∈ s.expressions, ∀ part, e.Part part → part.Allowed (Layer.context around).classes

/-- What else is asked of a statement. -/
def Stmt.Kept (globals : List String) (around : List Layer) : Stmt → Prop
  | .block body => (body.flatMap Stmt.declared).Nodup
  | .function decl => decl.locals.Nodup
  | .classDecl name superclass methods =>
    (∀ parent ∈ superclass, parent.name.text ≠ name.text) ∧ ∀ decl ∈ methods, decl.locals.Nodup
  | .ret _ value =>
    (Layer.context around).function ≠ .outside ∧
      (value.isSome → (Layer.context around).function ≠ .initializer)
  | .var name value =>
    ∀ e ∈ value, ∀ ref ∈ e.references, ref.name.text = name.text → Known globals around name.text
  | .expression _ | .print _ | .branch .. | .loop .. => True

theorem Place.not_faulty {globals : List String} {around : List Layer} {s : Stmt} :
    ¬ Faulty globals ⟨around, s⟩ ↔ s.Proper around ∧ s.Kept globals around := by
  constructor
  · intro h
    constructor
    · intro e he part hpart
      cases part with
      | this ref => exact fun houtside => h (.thisOutsideClass he hpart (Layer.classes_outside.1 houtside))
      | super ref method =>
        by_contra hderived
        refine h (.superOutsideDerived he hpart fun name parent hclass => hderived ?_)
        exact Layer.classes_derived.2 ⟨name, parent, hclass⟩
      | _ => trivial
    · cases s with
      | block body => exact by_contra fun hn => h (.redeclaredInBlock hn)
      | function decl => exact by_contra fun hn => h (.redeclaredInFunction hn)
      | classDecl name superclass methods =>
        refine ⟨?_, fun decl hm => by_contra fun hn => h (.redeclaredInMethod hm hn)⟩
        rintro parent ⟨⟩ hself
        exact h (.selfInheritance hself)
      | ret line value =>
        refine ⟨fun houtside => h (.topLevelReturn (Layer.function_outside.1 houtside)), ?_⟩
        cases value with
        | none => nofun
        | some e =>
          intro _ hinit
          obtain ⟨decl, hdecl, hname⟩ := Layer.function_initializer.1 hinit
          exact h (.initializerValue hdecl hname)
      | var name value =>
        rintro e ⟨⟩ ref hr hname
        by_contra hunknown
        unfold Known at hunknown
        push Not at hunknown
        exact h (.ownInitializer hr hname hunknown.1 hunknown.2)
      | _ => trivial
  · rintro ⟨hproper, hkept⟩ hfaulty
    cases hfaulty with
    | redeclaredInBlock hn => exact hn hkept
    | redeclaredInFunction hn => exact hn hkept
    | redeclaredInMethod hm hn => exact hn (hkept.2 _ hm)
    | topLevelReturn hf => exact hkept.1 (Layer.function_outside.2 hf)
    | initializerValue hf hname => exact hkept.2 rfl (Layer.function_initializer.2 ⟨_, hf, hname⟩)
    | thisOutsideClass he hpart hc => exact hproper _ he _ hpart (Layer.classes_outside.2 hc)
    | superOutsideDerived he hpart hc =>
      obtain ⟨name, parent, hclass⟩ := Layer.classes_derived.1 (hproper _ he _ hpart)
      exact hc name parent hclass
    | selfInheritance hself => exact hkept.1 _ rfl hself
    | ownInitializer hr hname hglobals haround =>
      obtain hknown | ⟨layer, hlayer, hknown⟩ := hkept _ rfl _ hr hname
      · exact hglobals hknown
      · exact haround layer hlayer hknown

section

variable {globals : List String} {around : List Layer}

theorem Place.sound_mk {s : Stmt} :
    Place.Sound globals ⟨around, s⟩ ↔ (s.Proper around ∧ s.Kept globals around) ∧
      ∀ inner, Place.Holds ⟨around, s⟩ inner → inner.Sound globals := by
  rw [Place.sound_iff, Place.not_faulty]

theorem Stmt.proper_singleton {s : Stmt} {e : Expr} (he : s.expressions = [e]) :
    s.Proper around ↔ ∀ part, e.Part part → part.Allowed (Layer.context around).classes := by
  unfold Proper
  rw [he, List.forall_mem_singleton]

theorem Stmt.proper_nil {s : Stmt} (hs : s.expressions = []) : s.Proper around := by
  unfold Proper
  rw [hs]
  nofun

theorem Place.sound_leaf {s : Stmt} (hs : ∀ inner, ¬ Place.Holds ⟨around, s⟩ inner) :
    Place.Sound globals ⟨around, s⟩ ↔ s.Proper around ∧ s.Kept globals around := by
  rw [sound_mk]
  exact and_iff_left fun inner hi => absurd hi (hs inner)

theorem Place.sound_block {body : List Stmt} :
    Place.Sound globals ⟨around, .block body⟩ ↔
      (body.flatMap Stmt.declared).Nodup ∧ SoundAll globals around [] body := by
  rw [sound_mk, and_iff_right (Stmt.proper_nil rfl), ← sound_listed]
  refine and_congr Iff.rfl ⟨fun h inner hi => h inner (.block hi), ?_⟩
  rintro h inner ⟨⟩
  exact h inner ‹_›

theorem Place.sound_branch {condition : Expr} {yes : Stmt} {no : Option Stmt} :
    Place.Sound globals ⟨around, .branch condition yes no⟩ ↔
      (∀ part, condition.Part part → part.Allowed (Layer.context around).classes) ∧
        Place.Sound globals ⟨around, yes⟩ ∧
        ∀ s ∈ no, Place.Sound globals ⟨.after [yes] :: around, s⟩ := by
  have hkept : Stmt.Kept globals around (.branch condition yes no) := trivial
  rw [sound_mk, Stmt.proper_singleton rfl, and_iff_left hkept]
  refine and_congr Iff.rfl ⟨fun h => ⟨h _ .yes, ?_⟩, ?_⟩
  · rintro s ⟨⟩
    exact h _ .no
  · rintro ⟨hyes, hno⟩ inner hi
    cases hi with
    | yes => exact hyes
    | no => exact hno _ rfl

theorem Place.sound_loop {condition : Expr} {body : Stmt} :
    Place.Sound globals ⟨around, .loop condition body⟩ ↔
      (∀ part, condition.Part part → part.Allowed (Layer.context around).classes) ∧
        Place.Sound globals ⟨around, body⟩ := by
  have hkept : Stmt.Kept globals around (.loop condition body) := trivial
  rw [sound_mk, Stmt.proper_singleton rfl, and_iff_left hkept]
  refine and_congr Iff.rfl ⟨fun h => h _ .loop, ?_⟩
  rintro h inner ⟨⟩
  exact h

theorem Place.sound_function {decl : FunctionDecl} :
    Place.Sound globals ⟨around, .function decl⟩ ↔
      decl.locals.Nodup ∧ SoundAll globals (.function decl :: around) [] decl.body := by
  rw [sound_mk, and_iff_right (Stmt.proper_nil rfl), ← sound_listed]
  refine and_congr Iff.rfl ⟨fun h inner hi => h inner (.function hi), ?_⟩
  rintro h inner ⟨⟩
  exact h inner ‹_›

theorem Place.sound_classDecl {name : Ident} {superclass : Option Reference}
    {methods : List FunctionDecl} :
    Place.Sound globals ⟨around, .classDecl name superclass methods⟩ ↔
      (∀ parent ∈ superclass, parent.name.text ≠ name.text) ∧
        ∀ decl ∈ methods, decl.locals.Nodup ∧
          SoundAll globals (.method decl :: .classDecl name superclass :: around) [] decl.body := by
  rw [sound_mk, and_iff_right (Stmt.proper_nil rfl)]
  constructor
  · rintro ⟨⟨hparent, hlocals⟩, hinner⟩
    exact ⟨hparent, fun decl hm =>
      ⟨hlocals decl hm, sound_listed.1 fun place hp => hinner place (.method hm hp)⟩⟩
  · rintro ⟨hparent, hmethods⟩
    refine ⟨⟨hparent, fun decl hm => (hmethods decl hm).1⟩, fun inner hi => ?_⟩
    cases hi with
    | method hm hp => exact sound_listed.2 (hmethods _ hm).2 inner hp

end

end Lox
