import Lox.Proofs.Scoping.Resolution

/-!
# Where `super` can stand

If resolution finds nothing wrong, then every `super` stands in a method of a class with a superclass. The
scope of the superclass is right outside of that of the receiver, and both are the innermost of their kind.
-/
namespace Lox

open Resolver (bracketed_faults)

namespace Surrounding

/-- The innermost class around is one with a superclass and these methods. It is entered through one of
them, the receiver of which is so many scopes away. -/
structure InMethod (around : List Surrounding) (inner : Nat) (decl : FunctionDecl)
    (methods : List FunctionDecl) : Prop where
  this : distance? "this" around = some inner
  super : distance? "super" around = some (inner + 1)
  scopes : ∃ receiver heritage, around[inner]? = some receiver ∧ around[inner + 1]? = some heritage ∧
    Inherits receiver heritage decl methods

/-- The innermost class around is one with a superclass. -/
def Derived (around : List Surrounding) : Prop := ∃ inner decl methods, InMethod around inner decl methods

variable {around : List Surrounding} {scope : Surrounding}

theorem distance?_cons_of_not_mem {name : String} (h : name ∉ scope.names) :
    distance? name (scope :: around) = (distance? name around).map (· + 1) := by
  unfold distance?
  rw [List.findIdx?_cons, if_neg (mt List.contains_iff_mem.1 h)]

theorem distance?_cons_of_mem {name : String} (h : name ∈ scope.names) :
    distance? name (scope :: around) = some 0 := by
  unfold distance?
  rw [List.findIdx?_cons, if_pos (List.contains_iff_mem.2 h)]

theorem Derived.cons (h : Derived around) (hscope : ∀ name, Reserved name → name ∉ scope.names) :
    Derived (scope :: around) := by
  obtain ⟨inner, decl, methods, hthis, hsuper, hscopes⟩ := h
  refine ⟨inner + 1, decl, methods, ?_, ?_, hscopes⟩
  · rw [distance?_cons_of_not_mem (hscope "this" (.inl rfl)), hthis]
    rfl
  · rw [distance?_cons_of_not_mem (hscope "super" (.inr rfl)), hsuper]
    rfl

theorem Derived.declare (h : Derived around) {names : List String} (hnames : ∀ name, Reserved name → name ∉ names) :
    Derived (declare names around) := by
  obtain ⟨inner, decl, methods, hthis, hsuper, receiver, heritage, hreceiver, hheritage, hinherits⟩ := h
  rw [← distance?_declare_of_not_mem (hnames "this" (.inl rfl))] at hthis
  rw [← distance?_declare_of_not_mem (hnames "super" (.inr rfl))] at hsuper
  cases around with
  | nil => cases hreceiver
  | cons scope outer =>
    cases inner with
    | zero =>
      cases hreceiver
      exact ⟨0, decl, methods, hthis, hsuper, _, heritage, rfl, hheritage,
        { hinherits with hasThis := List.mem_append_left _ hinherits.hasThis }⟩
    | succ inner =>
      exact ⟨inner + 1, decl, methods, hthis, hsuper, receiver, heritage, hreceiver, hheritage, hinherits⟩

/-- In a method of a class with a superclass. -/
theorem derived_method {decl : FunctionDecl} {methods : List FunctionDecl} (hdecl : decl ∈ methods) :
    Derived (⟨.receiver decl, ["this"]⟩ :: ⟨.heritage methods, ["super"]⟩ :: around) := by
  have hother : "super" ∉ ["this"] := by decide
  refine ⟨0, decl, methods, distance?_cons_of_mem List.mem_cons_self, ?_, _, _, rfl, rfl,
    ⟨rfl, rfl, List.mem_cons_self, List.mem_cons_self, hdecl⟩⟩
  rw [distance?_cons_of_not_mem hother, distance?_cons_of_mem List.mem_cons_self]
  rfl

end Surrounding

open Surrounding (Derived)

/-- All `super` among the occurrences stand in classes with superclasses. -/
def Occurrence.Derived (os : List Occurrence) : Prop :=
  ∀ o ∈ os, o.1.name.text = "super" → Surrounding.Derived o.2

/-- If the innermost class has a superclass, its scope is around. -/
def ClassContext.Derives (classes : ClassContext) (around : List Surrounding) : Prop :=
  classes = .derived → Derived around

namespace ClassContext

variable {classes : ClassContext} {around : List Surrounding}

theorem Derives.cons (h : classes.Derives around) {scope : Surrounding}
    (hscope : ∀ name, Reserved name → name ∉ scope.names) : classes.Derives (scope :: around) :=
  fun hderived => (h hderived).cons hscope

theorem Derives.declare (h : classes.Derives around) {names : List String}
    (hnames : ∀ name, Reserved name → name ∉ names) : classes.Derives (Surrounding.declare names around) :=
  fun hderived => (h hderived).declare hnames

theorem derives_outside : ClassContext.outside.Derives around := fun h => ClassContext.noConfusion h

theorem derives_base : ClassContext.base.Derives around := fun h => ClassContext.noConfusion h

end ClassContext

theorem Ident.Plain.not_named_super {name : Ident} {P : Prop} (h : name.Plain) (hname : name.text = "super") :
    P := absurd hname h.2

/-! ## Expressions -/

section

variable {P : Reference → Prop}

mutual

theorem Expr.derived {r : Resolver} {context : Context} {e : Expr} (he : e.Fits P)
    (hf : (e.resolve context r).faults = []) :
    ∀ ref ∈ e.references, ref.name.text = "super" → context.classes = .derived := by
  cases e with
  | literal value => nofun
  | unary op line operand => exact Expr.derived (e := operand) he hf
  | grouping inner => exact Expr.derived (e := inner) he hf
  | get object name => exact Expr.derived (e := object) he hf
  | binary op line left right | logical op line left right =>
    have hleft := Expr.resolve_steady bracketed_faults.toSteady context _ right hf
    exact List.forall_mem_append.2 ⟨Expr.derived he.1 hleft, Expr.derived he.2 hf⟩
  | «variable» ref => exact List.forall_mem_singleton.2 he.1.not_named_super
  | this ref =>
    refine List.forall_mem_singleton.2 fun hsuper => ?_
    exact absurd (he.1.symm.trans hsuper) (by decide)
  | super ref method =>
    refine List.forall_mem_singleton.2 fun _ => ?_
    rw [Expr.resolve] at hf
    split at hf
    · exact absurd hf (Resolver.faults_report r ref.name .superOutsideClass)
    · exact absurd hf (Resolver.faults_report r ref.name .noSuperclass)
    · assumption
  | assign ref value =>
    exact List.forall_mem_append.2 ⟨Expr.derived he.1 (bracketed_faults.refer _ ref hf),
      List.forall_mem_singleton.2 he.2.1.not_named_super⟩
  | call callee line arguments =>
    have hcallee := Expr.resolveAll_steady bracketed_faults.toSteady context _ arguments hf
    exact List.forall_mem_append.2 ⟨Expr.derived he.1 hcallee, Expr.derivedAll he.2 hf⟩
  | set object name value =>
    have hvalue := Expr.resolve_steady bracketed_faults.toSteady context _ object hf
    exact List.forall_mem_append.2 ⟨Expr.derived he.1 hvalue, Expr.derived he.2 hf⟩

theorem Expr.derivedAll {r : Resolver} {context : Context} {es : List Expr} (he : Expr.FitsAll P es)
    (hf : (Expr.resolveAll context r es).faults = []) :
    ∀ ref ∈ Expr.referencesAll es, ref.name.text = "super" → context.classes = .derived := by
  cases es with
  | nil => nofun
  | cons e rest =>
    have hfirst := Expr.resolveAll_steady bracketed_faults.toSteady context _ rest hf
    exact List.forall_mem_append.2 ⟨Expr.derived he.1 hfirst, Expr.derivedAll he.2 hf⟩

end

end

section

variable {P : List Surrounding → Reference → Prop} {r : Resolver} {context : Context}
  {around : List Surrounding}

theorem Expr.derived_occurrences (hc : context.classes.Derives around) {e : Expr} (he : e.Fits (P around))
    (hf : (e.resolve context r).faults = []) : Occurrence.Derived (e.occurrences around) := by
  intro o ho hsuper
  obtain ⟨ref, href, rfl⟩ := List.mem_map.1 ho
  exact hc (Expr.derived he hf ref href hsuper)

theorem Expr.derived_occurrencesOption (hc : context.classes.Derives around) {e : Option Expr}
    (he : Expr.FitsOption (P around) e) (hf : (Expr.resolveOption context r e).faults = []) :
    Occurrence.Derived (Expr.occurrencesOption around e) := by
  cases e with
  | none => nofun
  | some e => exact Expr.derived_occurrences hc (he e rfl) hf

end

/-! ## Statements -/

theorem Occurrence.Derived.append {os os' : List Occurrence} (h : Derived os) (h' : Derived os') :
    Derived (os ++ os') := List.forall_mem_append.2 ⟨h, h'⟩

mutual

theorem Stmt.derived {P : List Surrounding → Reference → Prop} {r : Resolver} {context : Context}
    {around : List Surrounding} {s : Stmt} (hs : s.Fits P around) (hc : context.classes.Derives around)
    (hf : (s.resolve context r).faults = []) : Occurrence.Derived (s.occurrences around) := by
  cases s with
  | expression e | print e => exact Expr.derived_occurrences hc hs hf
  | var name initializer =>
    rw [Stmt.resolve] at hf
    exact Expr.derived_occurrencesOption hc hs.2 (bracketed_faults.ready _ name.text hf)
  | block body =>
    rw [Stmt.resolve] at hf
    exact Stmt.derivedAll hs (hc.cons fun _ _ => List.not_mem_nil) hf
  | branch condition yes no =>
    cases no with
    | none =>
      rw [Stmt.resolve] at hf
      have hcondition := Stmt.resolve_bracketed bracketed_faults context _ yes hf
      exact (Expr.derived_occurrences hc hs.1 hcondition).append (Stmt.derived hs.2.1 hc hf)
    | some no =>
      rw [Stmt.resolve] at hf
      have hyes := Stmt.resolve_bracketed bracketed_faults context _ no hf
      have hcondition := Stmt.resolve_bracketed bracketed_faults context _ yes hyes
      exact ((Expr.derived_occurrences hc hs.1 hcondition).append (Stmt.derived hs.2.1.1 hc hyes)).append
        (Stmt.derived hs.2.2.1 hc hf)
  | loop condition body =>
    rw [Stmt.resolve] at hf
    have hcondition := Stmt.resolve_bracketed bracketed_faults context _ body hf
    exact (Expr.derived_occurrences hc hs.1 hcondition).append (Stmt.derived hs.2.1 hc hf)
  | function decl =>
    rw [Stmt.resolve] at hf
    exact FunctionDecl.derived hs.2 hf (hc.declare fun _ => hs.1.not_mem)
  | classDecl name superclass methods =>
    cases superclass with
    | none =>
      rw [Stmt.resolve] at hf
      exact FunctionDecl.derivedAll hs.2 (fun _ _ => ClassContext.derives_base) hf
    | some parent =>
      rw [Stmt.resolve] at hf
      exact List.forall_mem_cons.2 ⟨hs.2.1.1.not_named_super,
        FunctionDecl.derivedAll hs.2.2 (fun _ hmethod _ => Surrounding.derived_method hmethod) hf⟩
  | ret line value =>
    cases value with
    | none => nofun
    | some e =>
      rw [Stmt.resolve] at hf
      exact Expr.derived_occurrences hc (hs e rfl) hf

theorem Stmt.derivedAll {P : List Surrounding → Reference → Prop} {r : Resolver} {context : Context}
    {around : List Surrounding} {body : List Stmt} (hs : Stmt.FitsAll P around body)
    (hc : context.classes.Derives around) (hf : (Stmt.resolveAll context r body).faults = []) :
    Occurrence.Derived (Stmt.occurrencesAll around body) := by
  cases body with
  | nil => nofun
  | cons s rest =>
    rw [Stmt.resolveAll] at hf
    have hfirst := Stmt.resolveAll_bracketed bracketed_faults context _ rest hf
    exact (Stmt.derived hs.1 hc hfirst).append (Stmt.derivedAll hs.2 (hc.declare fun _ => hs.1.not_declared) hf)

theorem FunctionDecl.derived {P : List Surrounding → Reference → Prop} {r : Resolver} {context : Context}
    {around : List Surrounding} {decl : FunctionDecl} (hs : decl.Fits P around)
    (hf : (decl.resolve context r).faults = []) (hc : context.classes.Derives around) :
    Occurrence.Derived (decl.occurrences around) := by
  obtain ⟨name, params, body⟩ := decl
  rw [FunctionDecl.resolve] at hf
  exact Stmt.derivedAll hs.2 (hc.cons fun _ => Ident.not_mem_of_plain hs.1) hf

theorem FunctionDecl.derivedAll {P : List Surrounding → Reference → Prop} {r : Resolver} {context : Context}
    {around : List Surrounding} {methods : List FunctionDecl} (hs : FunctionDecl.FitsAll P around methods)
    (hc : ∀ method ∈ methods, context.classes.Derives (⟨.receiver method, ["this"]⟩ :: around))
    (hf : (FunctionDecl.resolveMethods context r methods).faults = []) :
    Occurrence.Derived (FunctionDecl.occurrencesAll around methods) := by
  cases methods with
  | nil => nofun
  | cons method rest =>
    rw [FunctionDecl.resolveMethods] at hf
    have hfirst := FunctionDecl.resolveMethods_bracketed bracketed_faults context _ rest hf
    obtain ⟨hc, hcs⟩ := List.forall_mem_cons.1 hc
    exact (FunctionDecl.derived hs.1 hfirst hc).append (FunctionDecl.derivedAll hs.2 hcs hf)

end

theorem derived_of_resolveProgram {P : List Surrounding → Reference → Prop} {globals : List String}
    {tree : List Stmt} {distances : List (Nat × Nat)} (hs : Stmt.FitsAll P [] tree)
    (h : resolveProgram globals tree = .ok distances) : Occurrence.Derived (Stmt.occurrencesAll [] tree) :=
  Stmt.derivedAll hs ClassContext.derives_outside (Resolver.finish_eq_ok.1 h).1

theorem derived_of_resolveExpression {P : List Surrounding → Reference → Prop} {globals : List String}
    {e : Expr} {distances : List (Nat × Nat)} (he : e.Fits (P []))
    (h : resolveExpression globals e = .ok distances) : Occurrence.Derived (e.occurrences []) :=
  Expr.derived_occurrences ClassContext.derives_outside he (Resolver.finish_eq_ok.1 h).1

end Lox
