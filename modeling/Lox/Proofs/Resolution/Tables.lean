import Lox.Proofs.Resolution.Walks
import Mathlib.Data.List.Basic

/-!
# The tables of resolution

At every point of the walk there is one table for each scope around it, and one for globals. A part of the
walk adds the names that it declares to the innermost of them and leaves the others as they are.
-/
namespace Lox

/-- The names that a statement can bind in the frame in which it is executed. -/
def Stmt.declared : Stmt → List String
  | .var name _ => [name.text]
  | .function decl => [decl.name.text]
  | .classDecl name _ _ => [name.text]
  | .branch _ yes none => yes.declared
  | .branch _ yes (some no) => yes.declared ++ no.declared
  | .loop _ body => body.declared
  | .expression _ | .print _ | .block _ | .ret .. => []

namespace Resolver

/-! ## Scopes that are left again -/

theorem refer_scopes (r : Resolver) (ref : Reference) :
    (r.refer ref).scopes = r.scopes ∧ (r.refer ref).globals = r.globals := by
  unfold refer
  dsimp only
  repeat' split
  all_goals exact ⟨rfl, rfl⟩

theorem scopes_trans {r q t : Resolver} (h : q.scopes = r.scopes ∧ q.globals = r.globals)
    (h' : t.scopes = q.scopes ∧ t.globals = q.globals) : t.scopes = r.scopes ∧ t.globals = r.globals :=
  ⟨h'.1.trans h.1, h'.2.trans h.2⟩

/-- Expressions declare nothing. -/
theorem steady_scopes : Steady fun _ r q => q.scopes = r.scopes ∧ q.globals = r.globals where
  refl _ := ⟨rfl, rfl⟩
  trans := scopes_trans
  report _ _ _ := ⟨rfl, rfl⟩
  refer := refer_scopes

/-- As many scopes are around, the outer ones as before, and the globals too if there are any. -/
structure Inside (r q : Resolver) : Prop where
  outer : q.scopes.tail = r.scopes.tail
  length : q.scopes.length = r.scopes.length
  globals : r.scopes ≠ [] → q.globals = r.globals

theorem Inside.nil {r q : Resolver} (h : Inside r q) (hr : r.scopes = []) : q.scopes = [] :=
  List.length_eq_zero_iff.1 (h.length.trans (congrArg List.length hr))

theorem Inside.ne_nil {r q : Resolver} (h : Inside r q) (hr : r.scopes ≠ []) : q.scopes ≠ [] := by
  intro hq
  have hlength := h.length
  rw [hq] at hlength
  exact hr (List.length_eq_zero_iff.1 hlength.symm)

theorem Inside.trans {r q t : Resolver} (h : Inside r q) (h' : Inside q t) : Inside r t :=
  ⟨h'.outer.trans h.outer, h'.length.trans h.length,
    fun hr => (h'.globals (h.ne_nil hr)).trans (h.globals hr)⟩

theorem Inside.leave {r q : Resolver} (h : Inside r.enter q) :
    q.leave.scopes = r.scopes ∧ q.leave.globals = r.globals :=
  ⟨h.outer, h.globals (List.cons_ne_nil _ _)⟩

theorem Inside.scope {r q : Resolver} (h : Inside r.enter q) : Inside r q.leave := by
  obtain ⟨hscopes, hglobals⟩ := h.leave
  exact ⟨congrArg _ hscopes, congrArg _ hscopes, fun _ => hglobals⟩

theorem inside_mark (r : Resolver) (text : String) (ready : Bool) : Inside r (r.mark text ready) := by
  obtain ⟨scopes, globals, distances, faults⟩ := r
  cases scopes with
  | nil => exact ⟨rfl, rfl, fun h => absurd rfl h⟩
  | cons scope outer => exact ⟨rfl, rfl, fun _ => rfl⟩

theorem inside_declare (r : Resolver) (ident : Ident) : Inside r (r.declare ident) := by
  obtain ⟨scopes, globals, distances, faults⟩ := r
  unfold declare
  dsimp only
  split
  · split
    · exact ⟨rfl, rfl, fun h => absurd rfl h⟩
    · exact ⟨rfl, rfl, fun h => absurd rfl h⟩
  · split <;> exact ⟨rfl, rfl, fun _ => rfl⟩

/-- Every scope that is entered is left again. -/
theorem bracketed_inside : Bracketed fun _ => Inside where
  refl _ := ⟨rfl, rfl, fun _ => rfl⟩
  trans := Inside.trans
  report _ _ _ := ⟨rfl, rfl, fun _ => rfl⟩
  declare := inside_declare
  ready r text := inside_mark r text true
  refer r ref := by
    obtain ⟨hscopes, hglobals⟩ := refer_scopes r ref
    exact ⟨congrArg _ hscopes, congrArg _ hscopes, fun _ => hglobals⟩
  scope := Inside.scope

/-! ## Names in tables -/

/-- The tables of all scopes, innermost first, and of globals. -/
def tables (r : Resolver) : List Scope := r.scopes ++ [r.globals]

/-- The table in which a declaration is entered. -/
def table (r : Resolver) : Scope := r.scopes.headD r.globals

/-- Some table has the name, ready or not. -/
def Holds (r : Resolver) (name : String) : Prop := ∃ t ∈ r.tables, t.contains name

/-- Some table has the name, ready for use. -/
def Reads (r : Resolver) (name : String) : Prop := ∃ t ∈ r.tables, t.find? name = some true

/-- No initializer is being resolved. -/
def Clear (r : Resolver) : Prop := ∀ t ∈ r.tables, ∀ name, t.find? name ≠ some false

variable {r q t : Resolver} {names names' : List String}

theorem tables_eq (r : Resolver) : r.tables = r.table :: r.tables.tail := by
  obtain ⟨scopes, globals, distances, faults⟩ := r
  cases scopes <;> rfl

theorem holds_iff {name : String} :
    r.Holds name ↔ r.table.contains name ∨ ∃ t ∈ r.tables.tail, t.contains name := by
  unfold Holds
  rw [tables_eq, List.exists_mem_cons_iff, List.tail_cons]

theorem reads_iff {name : String} :
    r.Reads name ↔ r.table.find? name = some true ∨ ∃ t ∈ r.tables.tail, t.find? name = some true := by
  unfold Reads
  rw [tables_eq, List.exists_mem_cons_iff, List.tail_cons]

theorem Clear.reads_iff_holds (h : r.Clear) {name : String} : r.Reads name ↔ r.Holds name := by
  constructor
  · rintro ⟨t, ht, hname⟩
    exact ⟨t, ht, Option.isSome_iff_exists.2 ⟨true, hname⟩⟩
  · rintro ⟨t, ht, hname⟩
    obtain ⟨ready, hready⟩ := Option.isSome_iff_exists.1 hname
    cases ready with
    | false => exact absurd hready (h t ht name)
    | true => exact ⟨t, ht, hready⟩

theorem tables_mark (r : Resolver) (text : String) (ready : Bool) :
    (r.mark text ready).tables = r.table.insert text ready :: r.tables.tail := by
  obtain ⟨scopes, globals, distances, faults⟩ := r
  cases scopes <;> rfl

theorem length_mark (r : Resolver) (text : String) (ready : Bool) :
    (r.mark text ready).scopes.length = r.scopes.length :=
  (inside_mark r text ready).length

/-- Globals that exist already stay readable when they are declared again. -/
theorem tables_declare_again {name : Ident} (hs : r.scopes = []) (hc : r.table.contains name.text) :
    (r.declare name).tables = r.tables := by
  obtain ⟨scopes, globals, distances, faults⟩ := r
  cases hs
  unfold declare
  dsimp only
  rw [if_pos (show globals.contains name.text = true from hc)]

theorem tables_declare {name : Ident} (h : r.scopes = [] → ¬ r.table.contains name.text) :
    (r.declare name).tables = r.table.insert name.text false :: r.tables.tail := by
  obtain ⟨scopes, globals, distances, faults⟩ := r
  cases scopes with
  | nil =>
    unfold declare
    dsimp only
    rw [if_neg (show ¬ globals.contains name.text = true from h rfl)]
    exact tables_mark _ name.text false
  | cons scope outer =>
    unfold declare
    dsimp only
    split <;> exact tables_mark _ name.text false

/-- A part of the walk that declares names in the innermost scope. All of them are ready in the end. -/
structure Adds (r q : Resolver) (names : List String) : Prop where
  outer : q.tables.tail = r.tables.tail
  length : q.scopes.length = r.scopes.length
  inner : ∀ name, q.table.contains name ↔ r.table.contains name ∨ name ∈ names
  clear : q.Clear

namespace Adds

theorem trans (h : Adds r q names) (h' : Adds q t names') : Adds r t (names ++ names') where
  outer := h'.outer.trans h.outer
  length := h'.length.trans h.length
  inner name := by rw [h'.inner, h.inner, List.mem_append, or_assoc]
  clear := h'.clear

theorem of_eq (h : r.Clear) (hq : q.scopes = r.scopes ∧ q.globals = r.globals) : Adds r q [] := by
  obtain ⟨scopes, globals, distances, faults⟩ := r
  obtain ⟨scopes', globals', distances', faults'⟩ := q
  obtain ⟨rfl, rfl⟩ := hq
  exact ⟨rfl, rfl, fun name => (or_iff_left List.not_mem_nil).symm, h⟩

theorem holds (h : Adds r q names) (name : String) : q.Holds name ↔ r.Holds name ∨ name ∈ names := by
  rw [holds_iff, holds_iff, h.outer, h.inner, or_right_comm]

end Adds

/-- If only names that are ready were declared before, all are ready when `name` is. -/
theorem adds_ready (h : r.Clear) {text : String} {t : Scope} (ht : q.tables = t :: r.tables.tail)
    (hlength : q.scopes.length = r.scopes.length)
    (hsame : ∀ name, text ≠ name → t.find? name = r.table.find? name) :
    Adds r (q.mark text true) [text] := by
  have htables : (q.mark text true).tables = t.insert text true :: r.tables.tail := by
    have hhead : q.table = t := (List.cons.inj ((tables_eq q).symm.trans ht)).1
    rw [tables_mark, ht, hhead, List.tail_cons]
  have htable : (q.mark text true).table = t.insert text true :=
    (List.cons.inj ((tables_eq _).symm.trans htables)).1
  have hr : r.table ∈ r.tables := by
    rw [tables_eq]
    exact List.mem_cons_self
  refine ⟨?_, (length_mark q text true).trans hlength, fun name => ?_, ?_⟩
  · rw [htables, List.tail_cons]
  · rw [htable, Bindings.contains_insert, List.mem_singleton]
    by_cases hname : text = name
    · simp [hname]
    · unfold Bindings.contains
      simp [hname, Ne.symm hname, hsame name hname]
  · intro t' ht' name
    rw [htables] at ht'
    cases ht' with
    | head =>
      rw [Bindings.find?_insert]
      split
      · nofun
      · next hname =>
        rw [hsame name hname]
        exact h _ hr name
    | tail _ ht' => exact h t' (List.mem_of_mem_tail ht') name

theorem Clear.adds_mark (h : r.Clear) (text : String) : Adds r (r.mark text true) [text] :=
  adds_ready h (tables_eq r) rfl fun _ _ => rfl

/-- Between declaration and definition only expressions are resolved. -/
theorem Clear.adds_define (h : r.Clear) (name : Ident)
    (hq : q.scopes = (r.declare name).scopes ∧ q.globals = (r.declare name).globals) :
    Adds r (q.define name) [name.text] := by
  have htables : q.tables = (r.declare name).tables := by
    unfold tables
    rw [hq.1, hq.2]
  have hlength : q.scopes.length = r.scopes.length :=
    (congrArg List.length hq.1).trans (inside_declare r name).length
  by_cases hagain : r.scopes = [] ∧ r.table.contains name.text = true
  · rw [tables_declare_again hagain.1 hagain.2] at htables
    exact adds_ready h (htables.trans (tables_eq r)) hlength fun _ _ => rfl
  · rw [tables_declare fun hs hc => hagain ⟨hs, hc⟩] at htables
    refine adds_ready h htables hlength fun other hother => ?_
    rw [Bindings.find?_insert, if_neg hother]

theorem Clear.adds_bind (h : r.Clear) (name : Ident) : Adds r (r.bind name) [name.text] :=
  h.adds_define name ⟨rfl, rfl⟩

theorem adds_bindAll (h : r.Clear) (params : List Ident) :
    Adds r (params.foldl Resolver.bind r) (params.map Ident.text) := by
  induction params generalizing r with
  | nil => exact .of_eq h ⟨rfl, rfl⟩
  | cons param rest ih =>
    have hfirst := h.adds_bind param
    exact hfirst.trans (ih hfirst.clear)

theorem Clear.enter (h : r.Clear) : r.enter.Clear := by
  intro t ht name
  cases ht with
  | head => nofun
  | tail _ ht => exact h t ht name

theorem find?_start (globals : List String) (name : String) :
    (start globals).globals.find? name = if name ∈ globals then some true else none := by
  have hfold : ∀ b : Scope, (globals.foldl (·.insert · true) b).find? name =
      if name ∈ globals then some true else b.find? name := by
    induction globals with
    | nil => exact fun b => rfl
    | cons x rest ih =>
      intro b
      rw [List.foldl_cons, ih, Bindings.find?_insert]
      simp only [List.mem_cons]
      by_cases hrest : name ∈ rest
      · simp [hrest]
      · by_cases hx : x = name
        · simp [hx]
        · simp [hrest, hx, Ne.symm hx]
  exact hfold Bindings.empty

end Resolver

open Resolver (Adds Clear Inside scopes_trans steady_scopes bracketed_inside inside_mark)

theorem FunctionDecl.resolve_outside (context : Context) (decl : FunctionDecl) (r : Resolver) :
    (decl.resolve context r).scopes = r.scopes ∧ (decl.resolve context r).globals = r.globals := by
  obtain ⟨name, params, body⟩ := decl
  rw [resolve]
  have hparams : Inside r.enter _ := bracketed_inside.bindAll _ params
  exact (hparams.trans (Stmt.resolveAll_bracketed bracketed_inside context _ body)).leave

/-- A statement adds the names that it declares. -/
theorem Stmt.adds_resolve (context : Context) (s : Stmt) {r : Resolver} (h : r.Clear) :
    Adds r (s.resolve context r) s.declared := by
  cases s with
  | expression e | print e => exact .of_eq h (Expr.resolve_steady steady_scopes context r e)
  | ret line value =>
    refine .of_eq h ?_
    cases value with
    | none =>
      rw [resolve]
      exact steady_scopes.reportIf [] r _ _ _
    | some e =>
      rw [resolve]
      exact scopes_trans (steady_scopes.reportIf [] r _ _ _)
        (scopes_trans (steady_scopes.reportIf [] _ _ _ _)
          (Expr.resolve_steady steady_scopes context _ e))
  | block body =>
    rw [resolve]
    exact .of_eq h (Stmt.resolveAll_bracketed bracketed_inside context _ body).leave
  | var name initializer =>
    exact h.adds_define name
      (Expr.resolveOption_steady steady_scopes context (r.declare name) initializer)
  | function decl =>
    have hbind := h.adds_bind decl.name
    rw [resolve]
    exact hbind.trans (.of_eq hbind.clear (FunctionDecl.resolve_outside _ decl _))
  | classDecl name superclass methods =>
    have hbind := h.adds_bind name
    cases superclass with
    | none =>
      rw [resolve]
      exact hbind.trans (.of_eq hbind.clear (Inside.leave ((inside_mark _ "this" true).trans
        (FunctionDecl.resolveMethods_bracketed bracketed_inside _ _ methods))))
    | some parent =>
      rw [resolve]
      refine hbind.trans (.of_eq hbind.clear (scopes_trans
        (steady_scopes.superclass (r.bind name) name parent) ?_))
      refine Inside.leave ((inside_mark _ "super" true).trans (Inside.scope ?_))
      exact (inside_mark _ "this" true).trans
        (FunctionDecl.resolveMethods_bracketed bracketed_inside _ _ methods)
  | branch condition yes no =>
    have hcondition := Adds.of_eq h (Expr.resolve_steady steady_scopes context r condition)
    have hyes := hcondition.trans (Stmt.adds_resolve context yes hcondition.clear)
    cases no with
    | none =>
      rw [resolve]
      exact hyes
    | some no =>
      rw [resolve]
      exact hyes.trans (Stmt.adds_resolve context no hyes.clear)
  | loop condition body =>
    have hcondition := Adds.of_eq h (Expr.resolve_steady steady_scopes context r condition)
    rw [resolve]
    exact hcondition.trans (Stmt.adds_resolve context body hcondition.clear)

theorem Stmt.adds_resolveAll (context : Context) (program : List Stmt) {r : Resolver} (h : r.Clear) :
    Adds r (Stmt.resolveAll context r program) (program.flatMap Stmt.declared) := by
  induction program generalizing r with
  | nil => exact .of_eq h ⟨rfl, rfl⟩
  | cons s rest ih =>
    have hfirst := Stmt.adds_resolve context s h
    rw [Stmt.resolveAll, List.flatMap_cons]
    exact hfirst.trans (ih hfirst.clear)

/-! ## The beginning of the walk -/

namespace Resolver

theorem clear_start (globals : List String) : (start globals).Clear := by
  intro t ht name
  rw [List.mem_singleton.1 ht, find?_start]
  split <;> nofun

theorem holds_start (globals : List String) (name : String) :
    (start globals).Holds name ↔ name ∈ globals := by
  have hcontains : (start globals).globals.contains name ↔ name ∈ globals := by
    unfold Bindings.contains
    rw [find?_start]
    split
    · next h => exact iff_of_true rfl h
    · next h => exact iff_of_false nofun h
  exact holds_iff.trans ((or_iff_left nofun).trans hcontains)

end Resolver

end Lox
