import Lox.Proofs.Locals.Renaming
import Lox.Proofs.Scoping.Resolution

/-!
# Resolution under other names

Resolution finds the same distances if local variables have other names, as long as nothing else has the new
name. Two walks go along: their scopes hold the same, the one by the old and the other by the new names. No
reference is caught by a scope that it has not meant before.
-/
namespace Lox

namespace Exchange

variable {ξ : Exchange} {name : String}

/-- Any other name than the new one stands for itself, or for one that nothing has. -/
theorem text_text_cases (h : name ≠ ξ.new) (mark mark' : Bool) :
    ξ.text mark (ξ.text mark' name) = name ∨ ξ.text mark (ξ.text mark' name) = ξ.new := by
  by_cases hold : name = ξ.old
  · subst hold
    cases mark <;> cases mark' <;> simp
  · simp [ξ.text_of_ne hold h]

/-- The scopes of two walks hold the same under different names, and none of the first holds the new name. -/
inductive Tables (ξ : Exchange) : List Bool → List Scope → List Scope → Prop where
  | nil : Tables ξ [] [] []
  | cons {mark marks scope scope' outer outer'} (hfind : ∀ name, scope'.find? (ξ.text mark name) = scope.find? name)
    (hnew : scope.find? ξ.new = none) (houter : Tables ξ marks outer outer') :
    Tables ξ (mark :: marks) (scope :: outer) (scope' :: outer')

variable {marks : List Bool} {mark : Bool} {scope scope' : Scope} {scopes scopes' : List Scope}

theorem find?_cases (hfind : ∀ name, scope'.find? (ξ.text mark name) = scope.find? name)
    (hnew : scope.find? ξ.new = none) (h : name ≠ ξ.new) (mark' : Bool) :
    scope'.find? (ξ.text mark' name) = scope.find? name ∨ scope'.find? (ξ.text mark' name) = none := by
  have hback := hfind (ξ.text mark (ξ.text mark' name))
  rw [text_text] at hback
  obtain heq | heq := text_text_cases h mark mark'
  · exact .inl (hback.trans (congrArg _ heq))
  · exact .inr (hback.trans ((congrArg _ heq).trans hnew))

namespace Tables

/-- The scope that has the name ready has it ready under the name that it has there. -/
theorem distance?_some (h : Tables ξ marks scopes scopes') (hname : name ≠ ξ.new) {depth d : Nat}
    (hd : Resolver.distance? name depth scopes = some d) :
    ∃ k, d = depth + k ∧ Resolver.distance? (ξ.text (isMarked marks k) name) depth scopes' = some d := by
  induction h generalizing depth with
  | nil => cases hd
  | @cons mark marks scope scope' outer outer' hfind hnew _ ih =>
    rw [Resolver.distance?] at hd
    split at hd
    · next hready =>
      cases hd
      refine ⟨0, rfl, ?_⟩
      rw [Resolver.distance?, marked_cons_zero, hfind, if_pos hready]
    · next hnot =>
      obtain ⟨k, rfl, hk⟩ := ih hd
      refine ⟨k + 1, by omega, ?_⟩
      rw [Resolver.distance?, marked_cons_succ, if_neg, hk]
      intro hready
      obtain hsame | hsame := find?_cases hfind hnew hname (isMarked marks k)
      · exact hnot (hsame.symm.trans hready)
      · cases hsame.symm.trans hready

theorem distance?_none (h : Tables ξ marks scopes scopes') (hname : name ≠ ξ.new) {depth : Nat}
    (hd : Resolver.distance? name depth scopes = none) : Resolver.distance? name depth scopes' = none := by
  induction h generalizing depth with
  | nil => rfl
  | @cons mark marks scope scope' outer outer' hfind hnew _ ih =>
    rw [Resolver.distance?] at hd ⊢
    split at hd
    · cases hd
    · next hnot =>
      rw [if_neg, ih hd]
      intro hready
      obtain hsame | hsame := find?_cases hfind hnew hname false
      · exact hnot (hsame.symm.trans hready)
      · cases hsame.symm.trans hready

theorem any_contains (h : Tables ξ marks scopes scopes') (hname : name ≠ ξ.new)
    (hnot : scopes.any (·.contains name) = false) : scopes'.any (·.contains name) = false := by
  induction h with
  | nil => rfl
  | @cons mark marks scope scope' outer outer' hfind hnew _ ih =>
    rw [List.any_cons, Bool.or_eq_false_iff] at hnot ⊢
    refine ⟨?_, ih hnot.2⟩
    unfold Bindings.contains at hnot ⊢
    obtain hsame | hsame := find?_cases hfind hnew hname false
    · exact (congrArg Option.isSome hsame).trans hnot.1
    · exact congrArg Option.isSome hsame

end Tables
end Exchange

open Exchange (Tables)
open Resolver (Within Walked bracketed_faults steady_scopes)

/-- Two walks have found the same so far, and where the first one has reported nothing the second one has not
either. -/
structure Resolver.Exchanged (ξ : Exchange) (marks : List Bool) (r q : Resolver) : Prop where
  scopes : Tables ξ marks r.scopes q.scopes
  globals : q.globals = r.globals
  distances : q.distances = r.distances
  faults : r.faults = [] → q.faults = []

/-- What is known of a reference: resolution counts its distance where it stands, and it does not have the new
name. -/
structure Exchange.Knows (ξ : Exchange) (around : List Surrounding) (ref : Reference) : Prop where
  fresh : ref.name.text ≠ ξ.new
  distance : ξ.distances ref.id = Surrounding.distance? ref.name.text around

namespace Resolver.Exchanged

variable {ξ : Exchange} {marks : List Bool} {r q : Resolver} {around : List Surrounding} {name : Ident}

theorem report (h : r.Exchanged ξ marks q) {name name' : Ident} {cause : ResolutionError} :
    (r.report name cause).Exchanged ξ marks (q.report name' cause) :=
  ⟨h.scopes, h.globals, h.distances, fun hf => absurd hf (faults_report r name cause)⟩

theorem reportIf (h : r.Exchanged ξ marks q) {c c' : Prop} [Decidable c] [Decidable c'] (hc : c' → c)
    {name name' : Ident} {cause : ResolutionError} : (if c then r.report name cause else r).Exchanged ξ marks
      (if c' then q.report name' cause else q) := by
  by_cases hc' : c'
  · rw [if_pos (hc hc'), if_pos hc']
    exact h.report
  · rw [if_neg hc']
    split
    · exact ⟨h.scopes, h.globals, h.distances, fun hf => absurd hf (faults_report r name cause)⟩
    · exact h

theorem enter (h : r.Exchanged ξ marks q) (mark : Bool) : r.enter.Exchanged ξ (mark :: marks) q.enter :=
  ⟨.cons (fun _ => rfl) rfl h.scopes, h.globals, h.distances, h.faults⟩

theorem leave {mark : Bool} (h : r.Exchanged ξ (mark :: marks) q) : r.leave.Exchanged ξ marks q.leave := by
  obtain ⟨scopes, globals, distances, faults⟩ := r
  obtain ⟨scopes', globals', distances', faults'⟩ := q
  obtain ⟨hscopes, hglobals, hdistances, hfaults⟩ := h
  cases hscopes with
  | cons hfind hnew houter => exact ⟨houter, hglobals, hdistances, hfaults⟩

theorem mark (h : r.Exchanged ξ marks q) {name : String} (hname : name ≠ ξ.new) (ready : Bool) :
    (r.mark name ready).Exchanged ξ marks (q.mark (ξ.text (isMarked marks 0) name) ready) := by
  obtain ⟨scopes, globals, distances, faults⟩ := r
  obtain ⟨scopes', globals', distances', faults'⟩ := q
  obtain ⟨hscopes, hglobals, hdistances, hfaults⟩ := h
  cases hscopes with
  | nil => exact ⟨.nil, congrArg (·.insert name ready) hglobals, hdistances, hfaults⟩
  | cons hfind hnew houter =>
    refine ⟨.cons (fun other => ?_) ?_ houter, hglobals, hdistances, hfaults⟩
    · rw [Bindings.find?_insert, Bindings.find?_insert, hfind, marked_cons_zero]
      simp only [ξ.text_inj]
    · rw [Bindings.find?_insert, if_neg hname, hnew]

theorem declare (h : r.Exchanged ξ marks q) {name : Ident} (hname : name.text ≠ ξ.new) :
    (r.declare name).Exchanged ξ marks (q.declare (name.exchange ξ (isMarked marks 0))) := by
  obtain ⟨scopes, globals, distances, faults⟩ := r
  obtain ⟨scopes', globals', distances', faults'⟩ := q
  have hmark := h.mark hname false
  obtain ⟨hscopes, hglobals, hdistances, hfaults⟩ := h
  cases hscopes with
  | nil =>
    cases show globals' = globals from hglobals
    rw [marked_nil, Ident.exchange_false]
    unfold Resolver.declare
    dsimp only
    by_cases hknown : globals.contains name.text = true
    · rw [if_pos hknown, if_pos hknown]
      exact ⟨.nil, rfl, hdistances, hfaults⟩
    · rw [if_neg hknown, if_neg hknown]
      exact hmark
  | @cons mark marks scope scope' outer outer' hfind hnew houter =>
    have hcontains : scope'.contains (ξ.text mark name.text) = scope.contains name.text :=
      congrArg Option.isSome (hfind name.text)
    unfold Resolver.declare
    dsimp only [Ident.exchange, marked_cons_zero] at hmark ⊢
    have hsame : Resolver.Exchanged ξ (mark :: marks) ⟨scope :: outer, globals, distances, faults⟩
        ⟨scope' :: outer', globals', distances', faults'⟩ :=
      ⟨.cons hfind hnew houter, hglobals, hdistances, hfaults⟩
    exact (hsame.reportIf fun hc => hcontains.symm.trans hc).mark hname false

theorem bind (h : r.Exchanged ξ marks q) {name : Ident} (hname : name.text ≠ ξ.new) :
    (r.bind name).Exchanged ξ marks (q.bind (name.exchange ξ (isMarked marks 0))) :=
  (h.declare hname).mark hname true

theorem bindAll (h : r.Exchanged ξ marks q) {names : List Ident} (hnames : ∀ name ∈ names, name.text ≠ ξ.new) :
    (names.foldl Resolver.bind r).Exchanged ξ marks
      ((names.map (Ident.exchange ξ (isMarked marks 0))).foldl Resolver.bind q) := by
  induction names generalizing r q with
  | nil => exact h
  | cons name rest ih =>
    obtain ⟨hname, hrest⟩ := List.forall_mem_cons.1 hnames
    exact ih (h.bind hname) hrest

theorem refer (h : r.Exchanged ξ marks q) (hw : r.Within around) {ref : Reference} (href : ξ.Knows around ref) :
    (r.refer ref).Exchanged ξ marks (q.refer (ref.exchange ξ marks)) := by
  have haway : distance? ref.name.text 0 r.scopes = ξ.distances ref.id := by
    rw [href.distance, distance?_eq hw]
    simp
  unfold Resolver.refer Reference.exchange
  dsimp only
  rw [haway]
  cases hd : ξ.distances ref.id with
  | some d =>
    obtain ⟨k, hk, hfound⟩ := h.scopes.distance?_some href.fresh (haway.trans hd)
    cases hk.trans (Nat.zero_add k)
    dsimp only [Ident.exchange]
    rw [hfound]
    exact ⟨h.scopes, h.globals, congrArg ((ref.id, d) :: ·) h.distances, h.faults⟩
  | none =>
    have hnot := h.scopes.distance?_none href.fresh (haway.trans hd)
    dsimp only
    rw [hnot, h.globals]
    dsimp only
    cases r.globals.find? ref.name.text with
    | some ready =>
      cases ready with
      | true => exact h
      | false => exact h.report
    | none =>
      refine h.reportIf fun hany => ?_
      by_contra hnone
      exact absurd hany (by simp [h.scopes.any_contains href.fresh (Bool.eq_false_iff.2 hnone)])

/-- A class that extends itself does so by either name. -/
theorem superclass (h : r.Exchanged ξ marks q) (hw : r.Within (Surrounding.declare [name.text] around))
    {parent : Reference} (hparent : ξ.Knows around parent) (hname : name.text ≠ ξ.new)
    (hf : (r.superclass name parent).faults = []) :
    (r.superclass name parent).Exchanged ξ marks (q.superclass name (parent.exchange ξ marks)) := by
  obtain ⟨hne, hsame⟩ := Walked.reportIf hw _ _ _ (bracketed_faults.refer _ parent hf)
  have hknows : ξ.Knows (Surrounding.declare [name.text] around) parent :=
    ⟨hparent.fresh, hparent.distance.trans
      (Surrounding.distance?_declare_of_not_mem (mt List.mem_singleton.1 hne) around).symm⟩
  have hreport : (parent.exchange ξ marks).name.text ≠ name.text := by
    unfold Reference.exchange
    cases ξ.distances parent.id with
    | none => exact hne
    | some d =>
      by_cases hold : parent.name.text = ξ.old
      · cases hmark : isMarked marks d with
        | false => simpa [Ident.exchange, hmark] using hne
        | true => simpa [Ident.exchange, hmark, hold] using hname.symm
      · simpa [Ident.exchange, ξ.text_of_ne hold hparent.fresh] using hne
  exact (h.reportIf fun heq => absurd heq hreport).refer hsame.within hknows

end Resolver.Exchanged

/-! ## The walks -/

section

variable {ξ : Exchange} {marks : List Bool} {around : List Surrounding}

theorem Resolver.Within.of_expression {r : Resolver} (h : r.Within around) (context : Context) (e : Expr) :
    (e.resolve context r).Within around := by
  unfold Resolver.Within
  rw [(Expr.resolve_steady steady_scopes context r e).1]
  exact h

mutual

theorem Expr.resolve_exchanged {r q : Resolver} (context : Context) (e : Expr) (hfits : e.Fits (ξ.Knows around))
    (hw : r.Within around) (h : r.Exchanged ξ marks q) :
    (e.resolve context r).Exchanged ξ marks ((e.exchange ξ marks).resolve context q) := by
  cases e with
  | literal value => exact h
  | unary op line operand => exact Expr.resolve_exchanged context operand hfits hw h
  | grouping inner => exact Expr.resolve_exchanged context inner hfits hw h
  | get object name => exact Expr.resolve_exchanged context object hfits hw h
  | binary op line left right | logical op line left right =>
    exact Expr.resolve_exchanged context right hfits.2 (hw.of_expression context left)
      (Expr.resolve_exchanged context left hfits.1 hw h)
  | «variable» ref => exact h.refer hw hfits.2
  | assign ref value =>
    exact (Expr.resolve_exchanged context value hfits.1 hw h).refer (hw.of_expression context value) hfits.2.2
  | call callee line arguments =>
    exact Expr.resolveAll_exchanged context arguments hfits.2 (hw.of_expression context callee)
      (Expr.resolve_exchanged context callee hfits.1 hw h)
  | set object name value =>
    exact Expr.resolve_exchanged context object hfits.2 (hw.of_expression context value)
      (Expr.resolve_exchanged context value hfits.1 hw h)
  | this ref =>
    unfold Expr.exchange Expr.resolve
    split
    · exact h.report
    · exact h.refer hw hfits.2
  | super ref method =>
    unfold Expr.exchange Expr.resolve
    split
    · exact h.report
    · exact h.report
    · exact h.refer hw hfits.2

theorem Expr.resolveAll_exchanged {r q : Resolver} (context : Context) (es : List Expr)
    (hfits : Expr.FitsAll (ξ.Knows around) es) (hw : r.Within around) (h : r.Exchanged ξ marks q) :
    (Expr.resolveAll context r es).Exchanged ξ marks (Expr.resolveAll context q (Expr.exchangeAll ξ marks es)) := by
  cases es with
  | nil => exact h
  | cons e rest =>
    exact Expr.resolveAll_exchanged context rest hfits.2 (hw.of_expression context e)
      (Expr.resolve_exchanged context e hfits.1 hw h)

end

theorem Expr.resolveOption_exchanged {r q : Resolver} (context : Context) (e : Option Expr)
    (hfits : Expr.FitsOption (ξ.Knows around) e) (hw : r.Within around) (h : r.Exchanged ξ marks q) :
    (Expr.resolveOption context r e).Exchanged ξ marks
      (Expr.resolveOption context q (e.map (Expr.exchange ξ marks))) := by
  cases e with
  | none => exact h
  | some e => exact Expr.resolve_exchanged context e (hfits e rfl) hw h

theorem Ident.exchange_eq {mark : Bool} {name : Ident} (h : ξ.text mark name.text = name.text) :
    name.exchange ξ mark = name := congrArg (Ident.mk · name.line) h

end

section

variable {ξ : Exchange}

mutual

theorem Stmt.resolve_exchanged {marks : List Bool} {around : List Surrounding} {r q : Resolver}
    (context : Context) {s s' : Stmt} (hs : s.Exchanged ξ marks s') (hfits : s.Fits ξ.Knows around)
    (hnew : ∀ binder ∈ s.binders, binder.text ≠ ξ.new) (hw : r.Within around) (h : r.Exchanged ξ marks q)
    (hf : (s.resolve context r).faults = []) : (s.resolve context r).Exchanged ξ marks (s'.resolve context q) := by
  cases s with
  | expression e | print e =>
    cases hs
    exact Expr.resolve_exchanged context e hfits hw h
  | var name value =>
    cases hs
    rw [Stmt.resolve] at hf ⊢
    obtain ⟨hname, -⟩ := List.forall_mem_cons.1 hnew
    have hresolved := bracketed_faults.ready _ name.text hf
    have hdeclare := Resolver.walked_declare hw name
      (Expr.resolveOption_steady bracketed_faults.toSteady context _ value hresolved)
    exact (Expr.resolveOption_exchanged context value hfits.2 hdeclare.within (h.declare hname)).mark hname true
  | block body =>
    cases hs with
    | block mark hbody =>
      rw [Stmt.resolve] at hf
      exact (Stmt.resolveAll_exchanged context hbody hfits hnew (Resolver.within_enter hw (.block body))
        (h.enter mark) hf).leave
  | branch condition yes no =>
    cases no with
    | none =>
      cases hs with
      | branch hyes =>
        rw [Stmt.resolve] at hf ⊢
        rw [Stmt.resolve]
        exact Stmt.resolve_exchanged context hyes hfits.2.1 hnew (hw.of_expression context condition)
          (Expr.resolve_exchanged context condition hfits.1 hw h) hf
    | some no =>
      cases hs with
      | branchElse hyes hno =>
        rw [Stmt.resolve] at hf ⊢
        rw [Stmt.resolve]
        obtain ⟨hnewYes, hnewNo⟩ := List.forall_mem_append.1 hnew
        obtain ⟨hcondition, ⟨hfitsYes, hyesNone⟩, hfitsNo, -⟩ := hfits
        have hresolved := Stmt.resolve_bracketed bracketed_faults context _ no hf
        have hentered := hw.of_expression context condition
        have hfirst := Stmt.resolve_exchanged context hyes hfitsYes hnewYes hentered
          (Expr.resolve_exchanged context condition hcondition hw h) hresolved
        have hbetween := (Stmt.walked context yes hfitsYes hentered hresolved).within
        rw [hyesNone, Surrounding.declare_nil] at hbetween
        exact Stmt.resolve_exchanged context hno hfitsNo hnewNo hbetween hfirst hf
  | loop condition body =>
    cases hs with
    | loop hbody =>
      rw [Stmt.resolve] at hf ⊢
      rw [Stmt.resolve]
      exact Stmt.resolve_exchanged context hbody hfits.2.1 hnew (hw.of_expression context condition)
        (Expr.resolve_exchanged context condition hfits.1 hw h) hf
  | function decl =>
    cases hs with
    | @function _ _ decl' hname hdecl =>
      rw [Stmt.resolve] at hf ⊢
      have hresolved := FunctionDecl.resolve_bracketed bracketed_faults _ _ decl hf
      have hbind := h.bind (hnew decl.name decl.name_mem_binders)
      rw [Ident.exchange_eq hname] at hbind
      rw [Stmt.resolve, hdecl.name]
      exact FunctionDecl.resolve_exchanged _ hdecl hfits.2 hnew (Resolver.walked_bind hw decl.name hresolved).within
        hbind hf
  | classDecl name superclass methods =>
    obtain ⟨hnewName, hnewMethods⟩ := List.forall_mem_cons.1 hnew
    have hthis : "this" ≠ ξ.new := ξ.new_plain.1.symm
    cases hs with
    | base hname hmethods =>
      rw [Stmt.resolve] at hf ⊢
      have hentered := FunctionDecl.resolveMethods_bracketed bracketed_faults _ _ methods hf
      have hbound := Resolver.walked_bind hw name (bracketed_faults.ready (r.bind name).enter "this" hentered)
      have hready := Resolver.walked_ready (Resolver.within_enter hbound.within (.heritage methods)) "this"
      have hbind := h.bind hnewName
      rw [Ident.exchange_eq hname] at hbind
      exact (FunctionDecl.resolveMethods_exchanged _ hmethods hfits.2 hnewMethods hready.within
        ((hbind.enter false).mark hthis true) hf).leave
    | @derived _ _ parent _ methods' hname hmethods =>
      rw [Stmt.resolve] at hf ⊢
      have hsuper : "super" ≠ ξ.new := ξ.new_plain.2.symm
      have hentered := FunctionDecl.resolveMethods_bracketed bracketed_faults _ _ methods hf
      have hresolved := bracketed_faults.ready ((r.bind name).superclass name parent).enter "super"
        (bracketed_faults.ready (Resolver.enter _) "this" hentered)
      have hextended := Resolver.walked_superclass hw name parent hresolved
      have hbound := Resolver.walked_bind hw name
        (bracketed_faults.superclass _ name parent hresolved)
      have hheritage := Resolver.walked_ready
        (Resolver.within_enter hextended.within (.heritage methods)) "super"
      have hready := Resolver.walked_ready (Resolver.within_enter hheritage.within (.heritage methods)) "this"
      have hbind := h.bind hnewName
      rw [Ident.exchange_eq hname] at hbind
      have hparent := (hbind.superclass hbound.within hfits.2.1.2 hnewName hresolved).enter false
      exact (FunctionDecl.resolveMethods_exchanged _ hmethods hfits.2.2 hnewMethods hready.within
        (((hparent.mark hsuper true).enter false).mark hthis true) hf).leave.leave
  | ret line value =>
    cases hs
    have houtside : (if context.function = .outside then
        r.report ⟨"return", line⟩ .topLevelReturn else r).Exchanged ξ marks
      (if context.function = .outside then q.report ⟨"return", line⟩ .topLevelReturn else q) := h.reportIf id
    cases value with
    | none => exact houtside
    | some e =>
      rw [Stmt.resolve] at hf
      have hresolved := Expr.resolve_steady bracketed_faults.toSteady context _ e hf
      have hoff := Walked.reportIf hw _ _ _ (bracketed_faults.reportIf [] _ _ _ _ hresolved)
      have hvalue := Walked.reportIf hoff.2.within _ _ _ hresolved
      exact Expr.resolve_exchanged context e (hfits e rfl) hvalue.2.within (houtside.reportIf id)
termination_by structural s

theorem Stmt.resolveAll_exchanged {marks : List Bool} {around : List Surrounding} {r q : Resolver}
    (context : Context) {body body' : List Stmt} (hs : Stmt.ExchangedAll ξ marks body body')
    (hfits : Stmt.FitsAll ξ.Knows around body) (hnew : ∀ binder ∈ Stmt.bindersAll body, binder.text ≠ ξ.new)
    (hw : r.Within around) (h : r.Exchanged ξ marks q) (hf : (Stmt.resolveAll context r body).faults = []) :
    (Stmt.resolveAll context r body).Exchanged ξ marks (Stmt.resolveAll context q body') := by
  cases body with
  | nil =>
    cases hs
    exact h
  | cons s rest =>
    cases hs with
    | cons hs hrest =>
      rw [Stmt.resolveAll] at hf ⊢
      rw [Stmt.resolveAll]
      obtain ⟨hnewFirst, hnewRest⟩ := List.forall_mem_append.1 hnew
      have hresolved := Stmt.resolveAll_bracketed bracketed_faults context _ rest hf
      exact Stmt.resolveAll_exchanged context hrest hfits.2 hnewRest
        (Stmt.walked context s hfits.1 hw hresolved).within
        (Stmt.resolve_exchanged context hs hfits.1 hnewFirst hw h hresolved) hf
termination_by structural body

theorem FunctionDecl.resolve_exchanged {marks : List Bool} {around : List Surrounding} {r q : Resolver}
    (context : Context) {decl decl' : FunctionDecl} (hd : decl.Exchanged ξ marks decl')
    (hfits : decl.Fits ξ.Knows around) (hnew : ∀ binder ∈ decl.binders, binder.text ≠ ξ.new)
    (hw : r.Within around) (h : r.Exchanged ξ marks q) (hf : (decl.resolve context r).faults = []) :
    (decl.resolve context r).Exchanged ξ marks (decl'.resolve context q) := by
  obtain ⟨name, params, body⟩ := decl
  cases hd with
  | mk mark hbody =>
    rw [FunctionDecl.resolve] at hf
    obtain ⟨hnewParams, hnewBody⟩ := List.forall_mem_append.1 (List.forall_mem_cons.1 hnew).2
    have hparams := Resolver.walked_bindAll (Resolver.within_enter hw (.body ⟨name, params, body⟩)) params
      (Stmt.resolveAll_bracketed bracketed_faults context _ body hf)
    exact (Stmt.resolveAll_exchanged context hbody hfits.2 hnewBody hparams.within
      ((h.enter mark).bindAll hnewParams) hf).leave
termination_by structural decl

theorem FunctionDecl.resolveMethods_exchanged {marks : List Bool} {around : List Surrounding} {region : Region}
    {r q : Resolver} (context : Context) {methods methods' : List FunctionDecl}
    (hm : FunctionDecl.ExchangedAll ξ marks methods methods') (hfits : FunctionDecl.FitsAll ξ.Knows around methods)
    (hnew : ∀ binder ∈ FunctionDecl.bindersAll methods, binder.text ≠ ξ.new)
    (hw : r.Within (⟨region, ["this"]⟩ :: around)) (h : r.Exchanged ξ marks q)
    (hf : (FunctionDecl.resolveMethods context r methods).faults = []) :
    (FunctionDecl.resolveMethods context r methods).Exchanged ξ marks
      (FunctionDecl.resolveMethods context q methods') := by
  cases methods with
  | nil =>
    cases hm
    exact h
  | cons method rest =>
    cases hm with
    | cons hmethod hrest =>
      rw [FunctionDecl.resolveMethods] at hf ⊢
      obtain ⟨hnewFirst, hnewRest⟩ := List.forall_mem_append.1 hnew
      have hresolved := FunctionDecl.resolveMethods_bracketed bracketed_faults context _ rest hf
      have hfirst := FunctionDecl.walked _ method hfits.1 (hw.region (.receiver method)) hresolved
      rw [FunctionDecl.resolveMethods, hmethod.name]
      exact FunctionDecl.resolveMethods_exchanged context hrest hfits.2 hnewRest (hfirst.within.region region)
        (FunctionDecl.resolve_exchanged _ hmethod hfits.1 hnewFirst (hw.region (.receiver method)) h hresolved) hf
termination_by structural methods

end

end

/-- A program that is accepted is accepted with other names, and resolution finds the same distances. -/
theorem resolveProgram_exchanged {ξ : Exchange} {globals : List String} {tree tree' : List Stmt}
    {distances : List (Nat × Nat)} (ht : Stmt.ExchangedAll ξ [] tree tree')
    (hfits : Stmt.FitsAll ξ.Knows [] tree) (hnew : ∀ binder ∈ Stmt.bindersAll tree, binder.text ≠ ξ.new)
    (h : resolveProgram globals tree = .ok distances) : resolveProgram globals tree' = .ok distances := by
  obtain ⟨hfaults, hdistances⟩ := Resolver.finish_eq_ok.1 h
  have hstart : (Resolver.start globals).Exchanged ξ [] (.start globals) := ⟨.nil, rfl, rfl, id⟩
  have hoff : (Resolver.start globals).Within [] := List.Forall₂.nil
  have hend := Stmt.resolveAll_exchanged .topLevel ht hfits hnew hoff hstart hfaults
  exact Resolver.finish_eq_ok.2 ⟨hend.faults hfaults, hend.distances.trans hdistances⟩

end Lox
