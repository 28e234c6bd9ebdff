import Lox.Proofs.Reclamation.Created
import Lox.Proofs.Resolution.Globals
import Lox.Proofs.Syntax.References

/-!
# The scopes around a reference

Which scopes stand around each reference of a program, and which names have been declared in them
before it, can be read off its tree alone. What is to hold of the references of a program is said here of
their surroundings, for trees as the grammar has them.
-/
namespace Lox

/-- A scope around a node: what its frames are made for, and the names that it has at the node. -/
structure Surrounding where
  region : Region
  names : List String

/-- A name that programs cannot declare, which only the frames of receivers and superclasses bind. -/
def Reserved (name : String) : Prop := name = "this" ∨ name = "super"

/-- Other than `this` and `super`. -/
def Ident.Plain (name : Ident) : Prop := name.text ≠ "this" ∧ name.text ≠ "super"

theorem Ident.Plain.not_reserved {name : Ident} (h : name.Plain) : ¬ Reserved name.text :=
  fun hname => hname.elim h.1 h.2

namespace Surrounding

/-- Declares names in the innermost scope. At the top level names are global. -/
def declare (names : List String) : List Surrounding → List Surrounding
  | [] => []
  | scope :: outer => ⟨scope.region, scope.names ++ names⟩ :: outer

/-- How many scopes lie inside of the innermost one that has the name. -/
def distance? (name : String) (around : List Surrounding) : Option Nat :=
  around.findIdx? (·.names.contains name)

@[simp] theorem declare_nil (around : List Surrounding) : declare [] around = around := by
  cases around with
  | nil => rfl
  | cons scope outer => exact congrArg (Surrounding.mk _ · :: outer) (List.append_nil _)

theorem declare_append (names names' : List String) (around : List Surrounding) :
    declare (names ++ names') around = declare names' (declare names around) := by
  cases around with
  | nil => rfl
  | cons scope outer => exact congrArg (Surrounding.mk _ · :: outer) (List.append_assoc _ _ _).symm

end Surrounding

open Surrounding (declare)

/-! ## References with what is around them -/

/-- A reference with the scopes around it, innermost first. -/
abbrev Occurrence := Reference × List Surrounding

def Expr.occurrences (around : List Surrounding) (e : Expr) : List Occurrence :=
  e.references.map (·, around)

def Expr.occurrencesOption (around : List Surrounding) : Option Expr → List Occurrence
  | none => []
  | some e => e.occurrences around

mutual

/-- The references of a statement that is executed with these scopes around it. -/
def Stmt.occurrences (around : List Surrounding) : Stmt → List Occurrence
  | .expression e | .print e => e.occurrences around
  | .var _ initializer => Expr.occurrencesOption around initializer
  | .block body => Stmt.occurrencesAll (⟨.block body, []⟩ :: around) body
  | .branch condition yes none => condition.occurrences around ++ yes.occurrences around
  | .branch condition yes (some no) =>
    condition.occurrences around ++ yes.occurrences around ++ no.occurrences around
  | .loop condition body => condition.occurrences around ++ body.occurrences around
  | .function decl => decl.occurrences (declare [decl.name.text] around)
  | .classDecl name none methods =>
    FunctionDecl.occurrencesAll (declare [name.text] around) methods
  | .classDecl name (some parent) methods =>
    (parent, around) :: FunctionDecl.occurrencesAll
      (⟨.heritage methods, ["super"]⟩ :: declare [name.text] around) methods
  | .ret _ value => Expr.occurrencesOption around value

/-- Every statement can refer to what the ones before it have declared. -/
def Stmt.occurrencesAll (around : List Surrounding) : List Stmt → List Occurrence
  | [] => []
  | s :: rest => s.occurrences around ++ Stmt.occurrencesAll (declare s.declared around) rest

def FunctionDecl.occurrences (around : List Surrounding) : FunctionDecl → List Occurrence
  | ⟨name, params, body⟩ =>
    Stmt.occurrencesAll (⟨.body ⟨name, params, body⟩, params.map Ident.text⟩ :: around) body

/-- Of the methods of a class. -/
def FunctionDecl.occurrencesAll (around : List Surrounding) : List FunctionDecl → List Occurrence
  | [] => []
  | method :: rest =>
    method.occurrences (⟨.receiver method, ["this"]⟩ :: around) ++
      FunctionDecl.occurrencesAll around rest

end

/-! ## What holds of all references -/

mutual

/-- The references of an expression have the property `P`, and the names that they should have. -/
def Expr.Fits (P : Reference → Prop) : Expr → Prop
  | .literal _ => True
  | .grouping inner => inner.Fits P
  | .unary _ _ operand => operand.Fits P
  | .binary _ _ left right | .logical _ _ left right => left.Fits P ∧ right.Fits P
  | .variable ref => ref.name.Plain ∧ P ref
  | .this ref => ref.name.text = "this" ∧ P ref
  | .super ref _ => ref.name.text = "super" ∧ P ref
  | .assign ref value => value.Fits P ∧ ref.name.Plain ∧ P ref
  | .call callee _ arguments => callee.Fits P ∧ Expr.FitsAll P arguments
  | .get object _ => object.Fits P
  | .set object _ value => value.Fits P ∧ object.Fits P

def Expr.FitsAll (P : Reference → Prop) : List Expr → Prop
  | [] => True
  | e :: rest => e.Fits P ∧ Expr.FitsAll P rest

end

def Expr.FitsOption (P : Reference → Prop) (e : Option Expr) : Prop := ∀ e' ∈ e, e'.Fits P

mutual

/-- The references of a statement have the property `P` in their surroundings, and what it declares are
plain names. Branches and the bodies of loops declare nothing, so that what is declared does not depend on
which of them are executed. -/
def Stmt.Fits (P : List Surrounding → Reference → Prop) (around : List Surrounding) : Stmt → Prop
  | .expression e | .print e => e.Fits (P around)
  | .var name initializer => name.Plain ∧ Expr.FitsOption (P around) initializer
  | .block body => Stmt.FitsAll P (⟨.block body, []⟩ :: around) body
  | .branch condition yes none => condition.Fits (P around) ∧ yes.Fits P around ∧ yes.declared = []
  | .branch condition yes (some no) =>
    condition.Fits (P around) ∧ (yes.Fits P around ∧ yes.declared = []) ∧
      no.Fits P around ∧ no.declared = []
  | .loop condition body => condition.Fits (P around) ∧ body.Fits P around ∧ body.declared = []
  | .function decl => decl.name.Plain ∧ decl.Fits P (declare [decl.name.text] around)
  | .classDecl name none methods =>
    name.Plain ∧ FunctionDecl.FitsAll P (declare [name.text] around) methods
  | .classDecl name (some parent) methods =>
    name.Plain ∧ (parent.name.Plain ∧ P around parent) ∧
      FunctionDecl.FitsAll P (⟨.heritage methods, ["super"]⟩ :: declare [name.text] around) methods
  | .ret _ value => Expr.FitsOption (P around) value

def Stmt.FitsAll (P : List Surrounding → Reference → Prop) (around : List Surrounding) :
    List Stmt → Prop
  | [] => True
  | s :: rest => s.Fits P around ∧ Stmt.FitsAll P (declare s.declared around) rest

def FunctionDecl.Fits (P : List Surrounding → Reference → Prop) (around : List Surrounding) :
    FunctionDecl → Prop
  | ⟨name, params, body⟩ =>
    (∀ param ∈ params, param.Plain) ∧
      Stmt.FitsAll P (⟨.body ⟨name, params, body⟩, params.map Ident.text⟩ :: around) body

def FunctionDecl.FitsAll (P : List Surrounding → Reference → Prop) (around : List Surrounding) :
    List FunctionDecl → Prop
  | [] => True
  | method :: rest =>
    method.Fits P (⟨.receiver method, ["this"]⟩ :: around) ∧ FunctionDecl.FitsAll P around rest

end

/-! ### More of the same references -/

section

variable {P Q : Reference → Prop}

mutual

theorem Expr.Fits.imp {e : Expr} (h : e.Fits P) (hQ : ∀ ref ∈ e.references, P ref → Q ref) :
    e.Fits Q := by
  cases e with
  | literal value => trivial
  | unary op line operand => exact Expr.Fits.imp (e := operand) h hQ
  | grouping inner => exact Expr.Fits.imp (e := inner) h hQ
  | get object name => exact Expr.Fits.imp (e := object) h hQ
  | binary op line left right | logical op line left right =>
    exact ⟨h.1.imp fun ref hr => hQ ref (List.mem_append_left _ hr),
      h.2.imp fun ref hr => hQ ref (List.mem_append_right _ hr)⟩
  | «variable» ref | this ref | super ref method => exact ⟨h.1, hQ ref (List.mem_singleton.2 rfl) h.2⟩
  | assign ref value =>
    exact ⟨h.1.imp fun ref hr => hQ ref (List.mem_append_left _ hr),
      h.2.1, hQ ref (List.mem_append_right _ (List.mem_singleton.2 rfl)) h.2.2⟩
  | call callee line arguments =>
    exact ⟨h.1.imp fun ref hr => hQ ref (List.mem_append_left _ hr),
      Expr.FitsAll.imp h.2 fun ref hr => hQ ref (List.mem_append_right _ hr)⟩
  | set object name value =>
    exact ⟨h.1.imp fun ref hr => hQ ref (List.mem_append_left _ hr),
      h.2.imp fun ref hr => hQ ref (List.mem_append_right _ hr)⟩

theorem Expr.FitsAll.imp {es : List Expr} (h : Expr.FitsAll P es)
    (hQ : ∀ ref ∈ Expr.referencesAll es, P ref → Q ref) : Expr.FitsAll Q es := by
  cases es with
  | nil => trivial
  | cons e rest =>
    exact ⟨h.1.imp fun ref hr => hQ ref (List.mem_append_left _ hr),
      Expr.FitsAll.imp h.2 fun ref hr => hQ ref (List.mem_append_right _ hr)⟩

end

end

section

variable {P Q : List Surrounding → Reference → Prop}

theorem Expr.Fits.imp_occurrences {around : List Surrounding} {e : Expr} (h : e.Fits (P around))
    (hQ : ∀ o ∈ e.occurrences around, P o.2 o.1 → Q o.2 o.1) : e.Fits (Q around) :=
  h.imp fun ref hr => hQ (ref, around) (List.mem_map.2 ⟨ref, hr, rfl⟩)

theorem Expr.FitsOption.imp {around : List Surrounding} {e : Option Expr} (h : Expr.FitsOption (P around) e)
    (hQ : ∀ o ∈ Expr.occurrencesOption around e, P o.2 o.1 → Q o.2 o.1) :
    Expr.FitsOption (Q around) e := by
  rintro e' he
  cases Option.mem_def.1 he
  exact Expr.Fits.imp_occurrences (h e' rfl) hQ

mutual

theorem Stmt.Fits.imp {around : List Surrounding} {s : Stmt} (h : s.Fits P around)
    (hQ : ∀ o ∈ s.occurrences around, P o.2 o.1 → Q o.2 o.1) : s.Fits Q around := by
  cases s with
  | expression e | print e => exact Expr.Fits.imp_occurrences h hQ
  | var name initializer => exact ⟨h.1, Expr.FitsOption.imp h.2 hQ⟩
  | ret line value => exact Expr.FitsOption.imp h hQ
  | block body => exact Stmt.FitsAll.imp h hQ
  | branch condition yes no =>
    cases no with
    | none =>
      exact ⟨Expr.Fits.imp_occurrences h.1 fun o ho => hQ o (List.mem_append_left _ ho),
        h.2.1.imp fun o ho => hQ o (List.mem_append_right _ ho), h.2.2⟩
    | some no =>
      obtain ⟨hcondition, ⟨hyes, hyesNone⟩, hno, hnoNone⟩ := h
      exact ⟨Expr.Fits.imp_occurrences hcondition fun o ho =>
          hQ o (List.mem_append_left _ (List.mem_append_left _ ho)),
        ⟨hyes.imp fun o ho => hQ o (List.mem_append_left _ (List.mem_append_right _ ho)), hyesNone⟩,
        hno.imp fun o ho => hQ o (List.mem_append_right _ ho), hnoNone⟩
  | loop condition body =>
    exact ⟨Expr.Fits.imp_occurrences h.1 fun o ho => hQ o (List.mem_append_left _ ho),
      h.2.1.imp fun o ho => hQ o (List.mem_append_right _ ho), h.2.2⟩
  | function decl => exact ⟨h.1, FunctionDecl.Fits.imp h.2 hQ⟩
  | classDecl name superclass methods =>
    cases superclass with
    | none => exact ⟨h.1, FunctionDecl.FitsAll.imp h.2 hQ⟩
    | some parent =>
      exact ⟨h.1, ⟨h.2.1.1, hQ (parent, around) List.mem_cons_self h.2.1.2⟩,
        FunctionDecl.FitsAll.imp h.2.2 fun o ho => hQ o (List.mem_cons_of_mem _ ho)⟩

theorem Stmt.FitsAll.imp {around : List Surrounding} {body : List Stmt} (h : Stmt.FitsAll P around body)
    (hQ : ∀ o ∈ Stmt.occurrencesAll around body, P o.2 o.1 → Q o.2 o.1) :
    Stmt.FitsAll Q around body := by
  cases body with
  | nil => trivial
  | cons s rest =>
    exact ⟨h.1.imp fun o ho => hQ o (List.mem_append_left _ ho),
      Stmt.FitsAll.imp h.2 fun o ho => hQ o (List.mem_append_right _ ho)⟩

theorem FunctionDecl.Fits.imp {around : List Surrounding} {decl : FunctionDecl} (h : decl.Fits P around)
    (hQ : ∀ o ∈ decl.occurrences around, P o.2 o.1 → Q o.2 o.1) : decl.Fits Q around := by
  obtain ⟨name, params, body⟩ := decl
  exact ⟨h.1, Stmt.FitsAll.imp h.2 hQ⟩

theorem FunctionDecl.FitsAll.imp {around : List Surrounding} {methods : List FunctionDecl}
    (h : FunctionDecl.FitsAll P around methods)
    (hQ : ∀ o ∈ FunctionDecl.occurrencesAll around methods, P o.2 o.1 → Q o.2 o.1) :
    FunctionDecl.FitsAll Q around methods := by
  cases methods with
  | nil => trivial
  | cons method rest =>
    exact ⟨h.1.imp fun o ho => hQ o (List.mem_append_left _ ho),
      FunctionDecl.FitsAll.imp h.2 fun o ho => hQ o (List.mem_append_right _ ho)⟩

end

end

/-! ## Where methods of superclasses can be named -/

namespace Surrounding

variable {around : List Surrounding}

/-- The scopes of a receiver and of a superclass, around one of the methods of a class. -/
structure Inherits (inner outer : Surrounding) (decl : FunctionDecl) (methods : List FunctionDecl) :
    Prop where
  receiver : inner.region = .receiver decl
  heritage : outer.region = .heritage methods
  hasThis : "this" ∈ inner.names
  hasSuper : "super" ∈ outer.names
  method : decl ∈ methods

/-- Scopes that have `super` are those of superclasses, and right inside of each there is that of the
receiver of a method. -/
inductive Nested : List Surrounding → Prop where
  | nil : Nested []
  | inside {scope outer} (hsuper : "super" ∉ scope.names) (houter : Nested outer) : Nested (scope :: outer)
  | method {receiver heritage outer decl methods} (hsuper : "super" ∉ receiver.names)
      (hinherits : Inherits receiver heritage decl methods) (houter : Nested outer) :
      Nested (receiver :: heritage :: outer)

theorem Nested.declare (h : Nested around) {names : List String} (hnames : "super" ∉ names) :
    Nested (declare names around) := by
  cases h with
  | nil => exact .nil
  | inside hsuper houter => exact .inside (List.not_mem_append hsuper hnames) houter
  | method hsuper hinherits houter =>
    exact .method (List.not_mem_append hsuper hnames)
      { hinherits with hasThis := List.mem_append_left _ hinherits.hasThis } houter

/-- Where there is a superclass there is a receiver. -/
theorem Nested.receiver (h : Nested around) {d : Nat} (hd : distance? "super" around = some d) :
    ∃ inner receiver heritage decl methods, d = inner + 1 ∧ around[inner]? = some receiver ∧
      around[inner + 1]? = some heritage ∧ Inherits receiver heritage decl methods := by
  unfold distance? at hd
  induction h generalizing d with
  | nil => cases hd
  | @inside scope outer hsuper _ ih =>
    rw [List.findIdx?_cons, if_neg (mt List.contains_iff_mem.1 hsuper)] at hd
    obtain ⟨d', hd', rfl⟩ := Option.map_eq_some_iff.1 hd
    obtain ⟨inner, receiver, heritage, decl, methods, rfl, hreceiver, hheritage, hinherits⟩ := ih hd'
    exact ⟨inner + 1, receiver, heritage, decl, methods, rfl, hreceiver, hheritage, hinherits⟩
  | @method receiver heritage outer decl methods hsuper hinherits _ ih =>
    rw [List.findIdx?_cons, if_neg (mt List.contains_iff_mem.1 hsuper), List.findIdx?_cons,
      if_pos (List.contains_iff_mem.2 hinherits.hasSuper)] at hd
    cases hd
    exact ⟨0, receiver, heritage, decl, methods, rfl, rfl, rfl, hinherits⟩

end Surrounding

open Surrounding (Nested)

section

variable {P : List Surrounding → Reference → Prop} {around : List Surrounding}

theorem Ident.Plain.not_mem {name : Ident} (h : name.Plain) {x : String} (hx : Reserved x) :
    x ∉ [name.text] := fun hmem => h.not_reserved (List.mem_singleton.1 hmem ▸ hx)

theorem Ident.not_mem_of_plain {names : List Ident} (h : ∀ name ∈ names, name.Plain) {x : String}
    (hx : Reserved x) : x ∉ names.map Ident.text := by
  intro hmem
  obtain ⟨name, hname, rfl⟩ := List.mem_map.1 hmem
  exact (h name hname).not_reserved hx

theorem Stmt.Fits.not_declared {s : Stmt} (h : s.Fits P around) {x : String} (hx : Reserved x) :
    x ∉ s.declared := by
  cases s with
  | var name initializer => exact h.1.not_mem hx
  | function decl => exact h.1.not_mem hx
  | classDecl name superclass methods => cases superclass <;> exact h.1.not_mem hx
  | branch condition yes no =>
    cases no with
    | none =>
      rw [Stmt.declared, h.2.2]
      exact List.not_mem_nil
    | some no =>
      rw [Stmt.declared, h.2.1.2, h.2.2.2]
      exact List.not_mem_nil
  | loop condition body =>
    rw [Stmt.declared, h.2.2]
    exact List.not_mem_nil
  | _ => exact List.not_mem_nil

theorem Expr.nested (h : Nested around) (e : Expr) : ∀ o ∈ e.occurrences around, Nested o.2 := by
  intro o ho
  obtain ⟨ref, -, rfl⟩ := List.mem_map.1 ho
  exact h

theorem Expr.nestedOption (h : Nested around) (e : Option Expr) :
    ∀ o ∈ Expr.occurrencesOption around e, Nested o.2 := by
  cases e with
  | none => nofun
  | some e => exact Expr.nested h e

mutual

theorem Stmt.nested {around : List Surrounding} {s : Stmt} (hs : s.Fits P around) (h : Nested around) :
    ∀ o ∈ s.occurrences around, Nested o.2 := by
  cases s with
  | expression e | print e => exact Expr.nested h e
  | var name initializer => exact Expr.nestedOption h initializer
  | ret line value => exact Expr.nestedOption h value
  | block body => exact Stmt.nestedAll hs (.inside List.not_mem_nil h)
  | branch condition yes no =>
    cases no with
    | none => exact List.forall_mem_append.2 ⟨Expr.nested h condition, Stmt.nested hs.2.1 h⟩
    | some no =>
      exact List.forall_mem_append.2 ⟨List.forall_mem_append.2
        ⟨Expr.nested h condition, Stmt.nested hs.2.1.1 h⟩, Stmt.nested hs.2.2.1 h⟩
  | loop condition body =>
    exact List.forall_mem_append.2 ⟨Expr.nested h condition, Stmt.nested hs.2.1 h⟩
  | function decl => exact FunctionDecl.nested hs.2 (h.declare (hs.1.not_mem (.inr rfl)))
  | classDecl name superclass methods =>
    have hdeclared : Nested (declare [name.text] around) := h.declare (Stmt.Fits.not_declared hs (.inr rfl))
    have hthis : "super" ∉ ["this"] := by decide
    cases superclass with
    | none => exact FunctionDecl.nestedAll hs.2 fun _ _ => .inside hthis hdeclared
    | some parent =>
      exact List.forall_mem_cons.2 ⟨h, FunctionDecl.nestedAll hs.2.2 fun _ hmethod =>
        .method hthis ⟨rfl, rfl, List.mem_cons_self, List.mem_cons_self, hmethod⟩ hdeclared⟩

theorem Stmt.nestedAll {around : List Surrounding} {body : List Stmt} (hs : Stmt.FitsAll P around body)
    (h : Nested around) : ∀ o ∈ Stmt.occurrencesAll around body, Nested o.2 := by
  cases body with
  | nil => nofun
  | cons s rest =>
    have hrest : Nested (declare s.declared around) := h.declare (hs.1.not_declared (.inr rfl))
    exact List.forall_mem_append.2 ⟨Stmt.nested hs.1 h, Stmt.nestedAll hs.2 hrest⟩

theorem FunctionDecl.nested {around : List Surrounding} {decl : FunctionDecl} (hs : decl.Fits P around)
    (h : Nested around) : ∀ o ∈ decl.occurrences around, Nested o.2 := by
  obtain ⟨name, params, body⟩ := decl
  exact Stmt.nestedAll hs.2 (.inside (Ident.not_mem_of_plain hs.1 (.inr rfl)) h)

theorem FunctionDecl.nestedAll {around : List Surrounding} {methods : List FunctionDecl}
    (hs : FunctionDecl.FitsAll P around methods)
    (h : ∀ method ∈ methods, Nested (⟨.receiver method, ["this"]⟩ :: around)) :
    ∀ o ∈ FunctionDecl.occurrencesAll around methods, Nested o.2 := by
  cases methods with
  | nil => nofun
  | cons method rest =>
    exact List.forall_mem_append.2 ⟨FunctionDecl.nested hs.1 (h method List.mem_cons_self),
      FunctionDecl.nestedAll hs.2 fun decl hdecl => h decl (List.mem_cons_of_mem _ hdecl)⟩

end

end

end Lox
