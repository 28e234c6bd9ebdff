import Lox.Proofs.Reclamation.Machine
import Lox.Proofs.Scoping.Contents
import Lox.Proofs.Scoping.Openings
import Lox.Proofs.Scoping.Surroundings

/-!
# Where frames stand in a program

A frame stands at a place of a program if it has been made for the innermost scope around that place and
binds its names, and if the frame inside of which it has been made stands there for the scopes around. Code
is fit for a place if all its references are fit for the scopes around them. Functions are code together
with the frame that they close over, and the stack of a machine is code together with the frames in which
it goes on.
-/
namespace Lox

open Surrounding (declare)
open Arena (Grows)

theorem Bindings.exists_find?_of_mem_names {α : Type} {b : Bindings α} {name : String}
    (h : name ∈ b.names) : ∃ a, b.find? name = some a := by
  obtain ⟨entries⟩ := b
  unfold names at h
  unfold find?
  dsimp only at h ⊢
  induction entries with
  | nil => cases h
  | cons entry rest ih =>
    obtain ⟨key, old⟩ := entry
    rw [lookup]
    split
    · exact ⟨old, rfl⟩
    · next hne =>
      obtain heq | h := List.mem_cons.1 h
      · exact absurd heq.symm hne
      · exact ih h

namespace Arena

variable {B : Binds} {os os' : List Opening} {a b : Arena} {h e : Handle} {f : Frame}
  {around outer : List Surrounding} {region : Region}

/-- The frames from `h` on have been made for the scopes `around`, one inside the other. As far as they are
still there, they have the links with which they have been made, and bind the names of their scopes. Outside
of all scopes is the global frame. -/
def Stands (os : List Opening) (a : Arena) : Handle → List Surrounding → Prop
  | h, [] => h = .globals
  | h, scope :: outer => a.Issued h ∧ ∃ e, ⟨h, scope.region, e⟩ ∈ os ∧ Stands os a e outer ∧
      ∀ f, a.frame? h = some f → f.enclosing = some e ∧ ∀ x ∈ scope.names, x ∈ f.bindings.names

namespace Stands

/-- Frames stay where they stand. -/
theorem grow (hs : a.Stands os h around) (hg : Grows B a b) (hos : os ⊆ os') : b.Stands os' h around := by
  induction around generalizing h with
  | nil => exact hs
  | cons scope outer ih =>
    obtain ⟨hissued, e, hopened, houter, hframe⟩ := hs
    refine ⟨hg.issued h hissued, e, hos hopened, ih houter, fun g hb => ?_⟩
    obtain ⟨f, hf, he, hin, -⟩ := hg.frames h g hissued hb
    obtain ⟨henclosing, hnames⟩ := hframe f hf
    exact ⟨he.trans henclosing, fun x hx => hin x (hnames x hx)⟩

/-- A frame that is made stands right inside of the frame around it. -/
theorem create (hs : a.Stands os e outer) (hr : a.Recycles) (hos : os ⊆ os')
    (hnew : ⟨(a.create e).1, region, e⟩ ∈ os') :
    (a.create e).2.Stands os' (a.create e).1 (⟨region, []⟩ :: outer) := by
  have houter := hs.grow (grows_create (B := fun _ _ => False) hr e) hos
  refine ⟨issued_create hr e (.inl rfl), e, hnew, houter, fun f hf => ?_⟩
  rw [frame?_create hr, if_pos rfl] at hf
  cases hf
  exact ⟨rfl, nofun⟩

theorem define {s : Store} (hs : s.arena.Stands os h around) (hr : s.arena.Recycles) (name : String)
    (v : Value) : (s.define h name v).arena.Stands os h (declare [name] around) := by
  cases around with
  | nil => exact hs
  | cons scope outer =>
    have hdefine : Grows (fun _ _ => True) s.arena (s.define h name v).arena :=
      Store.grows_define hr v trivial
    obtain ⟨hissued, e, hopened, houter, hframe⟩ := hs.grow hdefine (List.Subset.refl os)
    refine ⟨hissued, e, hopened, houter, fun f hf => ?_⟩
    obtain ⟨henclosing, hnames⟩ := hframe f hf
    refine ⟨henclosing, fun x hx => ?_⟩
    obtain hx | hx := List.mem_append.1 hx
    · exact hnames x hx
    · cases List.mem_singleton.1 hx
      cases hold : s.arena.frame? h with
      | none =>
        rw [Store.define_of_none hold, Store.arena_discard, hold] at hf
        cases hf
      | some old =>
        rw [Store.define_of_some hold] at hf
        change (s.arena.put h _).frame? h = _ at hf
        rw [frame?_put hold, if_pos rfl] at hf
        cases hf
        exact Bindings.mem_names_insert.2 (.inl rfl)

end Stands

/-- The live frames from `h` on have been made for the scopes `around`, each inside the next one, to which
it has a link, and bind their names. -/
inductive Matches (os : List Opening) (a : Arena) : Handle → List Surrounding → Prop where
  | globals : Matches os a .globals []
  | inside {h e : Handle} {f : Frame} {scope : Surrounding} {outer : List Surrounding}
      (hf : a.frame? h = some f) (he : f.enclosing = some e) (hopened : ⟨h, scope.region, e⟩ ∈ os)
      (hnames : ∀ x ∈ scope.names, ∃ v, a.find? h x = some v) (houter : Matches os a e outer) :
      Matches os a h (scope :: outer)

theorem Stands.matches (hs : a.Stands os h around) (hc : a.contains h = true)
    (hlive : ∀ h f e, a.frame? h = some f → f.enclosing = some e → a.contains e = true) :
    a.Matches os h around := by
  induction around generalizing h with
  | nil =>
    cases hs
    exact .globals
  | cons scope outer ih =>
    obtain ⟨-, e, hopened, houter, hframe⟩ := hs
    obtain ⟨f, hf⟩ := contains_iff.1 hc
    obtain ⟨he, hnames⟩ := hframe f hf
    refine .inside hf he hopened (fun x hx => ?_) (ih houter (hlive h f e hf he))
    obtain ⟨v, hv⟩ := Bindings.exists_find?_of_mem_names (hnames x hx)
    exact ⟨v, Option.bind_eq_some_iff.2 ⟨f, hf, hv⟩⟩

/-- As many links away as there are scopes between, there is the frame of a scope. -/
theorem Matches.ancestor? (hm : a.Matches os h around) {d : Nat} {scope : Surrounding}
    (hscope : around[d]? = some scope) : ∃ g, a.ancestor? h d = some g ∧ a.contains g = true ∧
      (∃ e, ⟨g, scope.region, e⟩ ∈ os) ∧ ∀ x ∈ scope.names, ∃ v, a.find? g x = some v := by
  induction hm generalizing d with
  | globals => cases hscope
  | @inside h e f scope outer hf he hopened hnames houter ih =>
    have hc : a.contains h = true := contains_iff.2 ⟨f, hf⟩
    cases d with
    | zero =>
      cases hscope
      exact ⟨h, if_pos hc, hc, ⟨e, hopened⟩, hnames⟩
    | succ d =>
      obtain ⟨g, hg, hrest⟩ := ih hscope
      refine ⟨g, ?_, hrest⟩
      rw [Arena.ancestor?, hf]
      dsimp only
      rw [he]
      exact hg

end Arena

/-! ## Code and the places it is fit for -/

/-- Where frames stand, and which functions there are: as values, and as the methods of classes. -/
structure Standing where
  frame : Handle → List Surrounding → Prop
  function : Function → Prop
  method : Function → Prop

namespace Standing

/-- Frames stay where they stand, and functions what they are. -/
structure Within (W W' : Standing) : Prop where
  frame : ∀ h around, W.frame h around → W'.frame h around
  function : ∀ f, W.function f → W'.function f
  method : ∀ f, W.method f → W'.method f

theorem Within.refl (W : Standing) : W.Within W := ⟨fun _ _ h => h, fun _ h => h, fun _ h => h⟩

theorem Within.trans {W₁ W₂ W₃ : Standing} (h : W₁.Within W₂) (h' : W₂.Within W₃) : W₁.Within W₃ :=
  ⟨fun g around hg => h'.frame g around (h.frame g around hg),
    fun f hf => h'.function f (h.function f hf), fun f hf => h'.method f (h.method f hf)⟩

end Standing

/-- Frames stand where they have been made, and functions have been made. -/
def Past.standing (past : Past) (a : Arena) : Standing :=
  ⟨a.Stands past.openings, past.Knows, (· ∈ past.functions)⟩

theorem Standing.Within.stands {past : Past} {a : Arena} {W : Standing} (hW : (past.standing a).Within W)
    {h : Handle} {around : List Surrounding} (hs : a.Stands past.openings h around) : W.frame h around :=
  hW.frame h around hs

theorem Past.standing_within {past later : Past} {B : Binds} {a b : Arena} (hg : Grows B a b)
    (hpast : past.Within later) : (past.standing a).Within (later.standing b) :=
  ⟨fun _ _ hs => hs.grow hg hpast.openings, fun _ hf => hf.mono hpast, fun _ hf => hpast.functions hf⟩

section

variable {P : List Surrounding → Reference → Prop} {W W' : Standing}

/-- A function whose frame stands where its declaration is fit for. That of a method binds `this`, and
only methods are initializers. -/
def Function.Placed (P : List Surrounding → Reference → Prop) (W : Standing) (f : Function) : Prop :=
  f.isInitializer = (f.binding.isSome && f.decl.name.text = initializerName) ∧
    ∃ around, W.frame f.closure around ∧ f.decl.Fits P around ∧
      (f.binding.isSome = true → ∃ scope outer, around = scope :: outer ∧ "this" ∈ scope.names)

/-- A method of this name, which is fit for a frame that is made for its receiver when it is bound. -/
def Function.Bindable (P : List Surrounding → Reference → Prop) (W : Standing) (name : String)
    (method : Function) : Prop :=
  (method.decl.name.text = name ∧ method.isInitializer = decide (name = initializerName)) ∧
    ∃ around, W.frame method.closure around ∧
      method.decl.Fits P (⟨.receiver method.decl, ["this"]⟩ :: around)

def Class.Placed (P : List Surrounding → Reference → Prop) (W : Standing) (c : Class) : Prop :=
  ∀ name method, c.findMethod? name = some method → W.method method ∧ method.Bindable P W name

def Value.Placed (P : List Surrounding → Reference → Prop) (W : Standing) : Value → Prop
  | function f => W.function f ∧ f.Placed P W
  | classObject c => c.Placed P W
  | _ => True

/-- The code of a continuation is fit for a place. -/
def Cont.Fits (P : List Surrounding → Reference → Prop) (around : List Surrounding) : Cont → Prop
  | left _ _ e | logical _ e | target _ e => e.Fits (P around)
  | assign ref => ref.name.Plain ∧ P around ref
  | callee _ arguments => Expr.FitsAll (P around) arguments
  | argument _ _ _ rest => Expr.FitsAll (P around) rest
  | branch yes no =>
    (yes.Fits P around ∧ yes.declared = []) ∧ ∀ s ∈ no, s.Fits P around ∧ s.declared = []
  | test condition body | round condition body =>
    condition.Fits (P around) ∧ body.Fits P around ∧ body.declared = []
  | _ => True

namespace Machine

/-- The stack is fit to go on in a frame that stands at a place. Where a call ends, and where
a frame is left, the place is that of the caller and of the frame before. -/
def Continues (P : List Surrounding → Reference → Prop) (W : Standing) :
    Handle → List Surrounding → List Cont → Prop
  | _, _, [] => True
  | _, _, .leave previous _ :: rest =>
    ∃ outside, W.frame previous outside ∧ Continues P W previous outside rest
  | h, _, .finish _ :: rest => ∃ outside, W.frame h outside ∧ Continues P W h outside rest
  | h, around, .define name :: rest => name.Plain ∧ Continues P W h (declare [name.text] around) rest
  | h, around, .sequence body :: rest =>
    Stmt.FitsAll P around body ∧ Continues P W h (declare (body.flatMap Stmt.declared) around) rest
  | h, around, .superclass name _ methods :: rest =>
    (name.Plain ∧
      FunctionDecl.FitsAll P (⟨.heritage methods, ["super"]⟩ :: declare [name.text] around) methods) ∧
      Continues P W h (declare [name.text] around) rest
  | h, around, k :: rest => k.Fits P around ∧ Continues P W h around rest

/-- What is being worked on, and what remains to be done, is fit for where the active frame stands. After
a `return` only the caller goes on, and after a failure nothing. -/
def Goes (P : List Surrounding → Reference → Prop) (W : Standing) : Machine → Prop
  | ⟨.eval e, stack, i⟩ => ∃ around, W.frame i.active around ∧ e.Fits (P around) ∧
      Continues P W i.active around stack
  | ⟨.exec s, stack, i⟩ => ∃ around, W.frame i.active around ∧ s.Fits P around ∧
      Continues P W i.active (declare s.declared around) stack
  | ⟨.yield _, stack, i⟩ | ⟨.done, stack, i⟩ =>
    ∃ around, W.frame i.active around ∧ Continues P W i.active around stack
  | ⟨.returning _, stack, i⟩ => ∃ around, Continues P W i.active around stack
  | ⟨.failed _, _, _⟩ | ⟨.crashed, _, _⟩ => True

/-- All code of a machine is fit for where it stands: that of the control and the stack, and that of the
values which are held and stored. -/
structure Placed (P : List Surrounding → Reference → Prop) (W : Standing)
    (m : Machine) : Prop where
  goes : m.Goes P W
  held : ∀ v ∈ m.control.held ++ heldAll m.stack, v.Placed P W
  store : m.state.store.Each (Value.Placed P W)

end Machine

/-! ### More places -/

section

variable (hW : W.Within W')

include hW

theorem Function.Placed.mono {f : Function} (h : f.Placed P W) : f.Placed P W' := by
  obtain ⟨hkind, around, hclosure, hfits⟩ := h
  exact ⟨hkind, around, hW.frame _ _ hclosure, hfits⟩

theorem Class.Placed.mono {c : Class} (h : c.Placed P W) : c.Placed P W' := by
  intro name method hm
  obtain ⟨hmade, hkind, around, hclosure, hfits⟩ := h name method hm
  exact ⟨hW.method _ hmade, hkind, around, hW.frame _ _ hclosure, hfits⟩

theorem Value.Placed.mono {v : Value} (h : v.Placed P W) : v.Placed P W' := by
  cases v with
  | function f => exact ⟨hW.function f h.1, Function.Placed.mono hW h.2⟩
  | classObject c => exact Class.Placed.mono hW h
  | _ => trivial

theorem Machine.Continues.mono {h : Handle} {around : List Surrounding} {stack : List Cont}
    (hs : Continues P W h around stack) : Continues P W' h around stack := by
  induction stack generalizing h around with
  | nil => trivial
  | cons k rest ih =>
    cases k with
    | leave previous frame =>
      obtain ⟨outside, hprevious, hrest⟩ := hs
      exact ⟨outside, hW.frame _ _ hprevious, ih hrest⟩
    | finish f =>
      obtain ⟨outside, hcaller, hrest⟩ := hs
      exact ⟨outside, hW.frame _ _ hcaller, ih hrest⟩
    | _ => exact ⟨hs.1, ih hs.2⟩

theorem Machine.Goes.mono {m : Machine} (h : m.Goes P W) : m.Goes P W' := by
  obtain ⟨control, stack, i⟩ := m
  cases control with
  | eval e | exec s =>
    obtain ⟨around, hactive, hfits, hs⟩ := h
    exact ⟨around, hW.frame _ _ hactive, hfits, hs.mono hW⟩
  | yield v | done =>
    obtain ⟨around, hactive, hs⟩ := h
    exact ⟨around, hW.frame _ _ hactive, hs.mono hW⟩
  | returning v =>
    obtain ⟨around, hs⟩ := h
    exact ⟨around, hs.mono hW⟩
  | failed failure | crashed => trivial

theorem Machine.Placed.mono {m : Machine} (h : m.Placed P W) : m.Placed P W' :=
  ⟨h.goes.mono hW, fun v hv => (h.held v hv).mono hW, h.store.mono fun _ hv => hv.mono hW⟩

end

/-! ### Weaker conditions -/

section

variable {Q : List Surrounding → Reference → Prop} (hQ : ∀ around ref, P around ref → Q around ref)

include hQ

theorem FunctionDecl.Fits.mono {around : List Surrounding} {decl : FunctionDecl} (h : decl.Fits P around) :
    decl.Fits Q around := h.imp fun o _ => hQ o.2 o.1

theorem Class.Placed.imp {c : Class} (h : c.Placed P W) : c.Placed Q W := by
  intro name method hm
  obtain ⟨hmade, hkind, around, hclosure, hfits⟩ := h name method hm
  exact ⟨hmade, hkind, around, hclosure, hfits.mono hQ⟩

theorem Value.Placed.imp {v : Value} (h : v.Placed P W) : v.Placed Q W := by
  cases v with
  | function f =>
    obtain ⟨hmade, hkind, around, hclosure, hfits, hthis⟩ := h
    exact ⟨hmade, hkind, around, hclosure, hfits.mono hQ, hthis⟩
  | classObject c => exact Class.Placed.imp hQ h
  | _ => trivial

end

end

end Lox
