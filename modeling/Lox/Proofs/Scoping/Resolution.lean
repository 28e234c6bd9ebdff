import Lox.Proofs.Scoping.Surroundings
import Mathlib.Data.List.Forall2

/-!
# What resolution finds

If resolution finds nothing wrong with a program, it gives to every reference its distance from the
scopes around it: the one that can be read off the tree.
-/
namespace Lox

/-- The distance of an occurrence, for the reference that it is. -/
def Occurrence.distance? (o : Occurrence) : Option (Nat × Nat) :=
  (Surrounding.distance? o.1.name.text o.2).map (o.1.id, ·)

/-- The distances of occurrences, the last one first. -/
def Occurrence.distances (os : List Occurrence) : List (Nat × Nat) := (os.filterMap distance?).reverse

theorem Occurrence.distances_append (os os' : List Occurrence) :
    distances (os ++ os') = distances os' ++ distances os := by
  unfold distances
  rw [List.filterMap_append, List.reverse_append]

theorem Occurrence.distances_singleton (ref : Reference) (around : List Surrounding) :
    distances [(ref, around)] =
      ((Surrounding.distance? ref.name.text around).map (ref.id, ·)).toList := by
  unfold distances distance?
  cases hd : Surrounding.distance? ref.name.text around <;> simp [hd]

theorem Surrounding.distance?_declare_of_not_mem {name : String} {names : List String} (h : name ∉ names)
    (around : List Surrounding) : distance? name (declare names around) = distance? name around := by
  cases around with
  | nil => rfl
  | cons surrounding outer =>
    unfold distance? declare
    rw [List.findIdx?_cons, List.findIdx?_cons]
    have hcontains : (surrounding.names ++ names).contains name = surrounding.names.contains name := by
      simp [h]
    rw [hcontains]

namespace Resolver

variable {r q t : Resolver} {around around' : List Surrounding} {os os' : List Occurrence}

/-- A name is ready in a scope if the scope has it. -/
def Declares (scope : Scope) (surrounding : Surrounding) : Prop :=
  ∀ name, scope.find? name = some true ↔ name ∈ surrounding.names

/-- The walk is where these scopes are around. -/
def Within (r : Resolver) (around : List Surrounding) : Prop := List.Forall₂ Declares r.scopes around

theorem distance?_eq {scopes : List Scope} (h : List.Forall₂ Declares scopes around) (name : String)
    (depth : Nat) : distance? name depth scopes = (Surrounding.distance? name around).map (· + depth) := by
  unfold Surrounding.distance?
  induction h generalizing depth with
  | nil => rfl
  | @cons scope surrounding _ _ hscope _ ih =>
    rw [distance?, List.findIdx?_cons, ih]
    have hsame := hscope name
    by_cases hname : name ∈ surrounding.names
    · rw [if_pos (hsame.2 hname), if_pos (List.contains_iff_mem.2 hname)]
      exact congrArg some (Nat.zero_add depth).symm
    · rw [if_neg (mt hsame.1 hname), if_neg (mt List.contains_iff_mem.1 hname), Option.map_map]
      exact congrArg (Option.map · _) (funext fun d => (Nat.add_right_comm d 1 depth).symm)

/-- A part of the walk that found the distances of `os`, and ended where `around` is around. -/
structure Walked (r q : Resolver) (os : List Occurrence) (around : List Surrounding) : Prop where
  distances : q.distances = Occurrence.distances os ++ r.distances
  within : q.Within around

theorem Walked.append (h : Walked r q os around) (h' : Walked q t os' around') :
    Walked r t (os ++ os') around' := by
  refine ⟨?_, h'.within⟩
  rw [h'.distances, h.distances, Occurrence.distances_append, List.append_assoc]

/-! ## Walks without faults -/

theorem faults_report (r : Resolver) (name : Ident) (cause : ResolutionError) :
    (r.report name cause).faults ≠ [] := List.append_ne_nil_of_right_ne_nil _ (List.cons_ne_nil _ _)

theorem faults_mark (r : Resolver) (text : String) (ready : Bool) :
    (r.mark text ready).faults = r.faults := by
  unfold mark
  split <;> rfl

/-- Faults stay. -/
theorem bracketed_faults : Bracketed fun _ r q => q.faults = [] → r.faults = [] where
  refl _ h := h
  trans h h' ht := h (h' ht)
  report r name cause h := absurd h (faults_report r name cause)
  refer r ref h := by
    unfold refer at h
    dsimp only at h
    split at h
    · exact h
    · split at h
      · exact h
      · exact absurd h (faults_report r ref.name .ownInitializer)
      · split at h
        · exact absurd h (faults_report r ref.name .ownInitializer)
        · exact h
  declare r name h := by
    unfold declare at h
    split at h
    · split at h
      · exact h
      · rwa [faults_mark] at h
    · dsimp only at h
      split at h
      · rw [faults_mark] at h
        exact absurd h (faults_report r name .redeclared)
      · rwa [faults_mark] at h
  ready r text h := (faults_mark r text true).symm.trans h
  scope h := h

theorem distances_refer (r : Resolver) (ref : Reference) :
    (r.refer ref).distances =
      ((distance? ref.name.text 0 r.scopes).map (ref.id, ·)).toList ++ r.distances := by
  unfold refer
  dsimp only
  cases distance? ref.name.text 0 r.scopes with
  | some d => rfl
  | none =>
    dsimp only
    split
    · rfl
    · rfl
    · split <;> rfl

theorem walked_refer (ref : Reference) (h : r.Within around) :
    Walked r (r.refer ref) [(ref, around)] around := by
  constructor
  · rw [distances_refer, distance?_eq h, Occurrence.distances_singleton]
    simp
  · unfold Within
    rw [(refer_scopes r ref).1]
    exact h

theorem Walked.refl (h : r.Within around) : Walked r r [] around := ⟨rfl, h⟩

theorem Walked.reportIf (h : r.Within around) (c : Prop) [Decidable c] (name : Ident)
    (cause : ResolutionError) (hf : (if c then r.report name cause else r).faults = []) :
    ¬ c ∧ Walked r (if c then r.report name cause else r) [] around := by
  split at hf
  · exact absurd hf (faults_report r name cause)
  · next hc =>
    rw [if_neg hc]
    exact ⟨hc, .refl h⟩

/-- A declaration makes the name ready when it is complete. -/
theorem walked_ready (h : r.Within around) (text : String) :
    Walked r (r.mark text true) [] (Surrounding.declare [text] around) := by
  obtain ⟨scopes, globals, distances, faults⟩ := r
  cases h with
  | nil => exact ⟨rfl, .nil⟩
  | @cons scope surrounding scopes outer hscope hrest =>
    refine ⟨rfl, .cons (fun name => ?_) hrest⟩
    have hsame := hscope name
    rw [Bindings.find?_insert, List.mem_append, List.mem_singleton]
    split
    · next heq => simp [heq]
    · next hne => rw [hsame, or_iff_left (Ne.symm hne)]

theorem walked_declare (h : r.Within around) (name : Ident) (hf : (r.declare name).faults = []) :
    Walked r (r.declare name) [] around := by
  obtain ⟨scopes, globals, distances, faults⟩ := r
  unfold declare at hf ⊢
  cases h with
  | nil =>
    dsimp only
    split <;> exact ⟨rfl, .nil⟩
  | @cons scope surrounding scopes outer hscope hrest =>
    dsimp only at hf ⊢
    split at hf
    · rw [faults_mark] at hf
      exact absurd hf (faults_report _ name .redeclared)
    · next hnew =>
      rw [if_neg hnew]
      refine ⟨rfl, .cons (fun x => ?_) hrest⟩
      have hsame := hscope x
      rw [Bindings.find?_insert]
      split
      · next heq =>
        -- The scope does not have the name yet, and it is not ready before it is complete.
        subst heq
        have hnot : name.text ∉ surrounding.names := fun hname =>
          hnew (Option.isSome_iff_exists.2 ⟨true, hsame.2 hname⟩)
        exact iff_of_false nofun hnot
      · exact hsame

theorem walked_bind (h : r.Within around) (name : Ident) (hf : (r.bind name).faults = []) :
    Walked r (r.bind name) [] (Surrounding.declare [name.text] around) := by
  have hdeclare := walked_declare h name (bracketed_faults.ready _ name.text hf)
  exact hdeclare.append (walked_ready hdeclare.within name.text)

theorem walked_bindAll (h : r.Within around) (names : List Ident)
    (hf : (names.foldl Resolver.bind r).faults = []) :
    Walked r (names.foldl Resolver.bind r) [] (Surrounding.declare (names.map Ident.text) around) := by
  induction names generalizing r around with
  | nil =>
    rw [List.map_nil, Surrounding.declare_nil]
    exact .refl h
  | cons name rest ih =>
    have hbind := walked_bind h name (bracketed_faults.bindAll _ rest hf)
    have hdeclare : Surrounding.declare ((name :: rest).map Ident.text) around =
        Surrounding.declare (rest.map Ident.text) (Surrounding.declare [name.text] around) :=
      Surrounding.declare_append [name.text] _ around
    rw [hdeclare]
    exact hbind.append (ih hbind.within hf)

theorem within_enter (h : r.Within around) (region : Region) : r.enter.Within (⟨region, []⟩ :: around) := by
  refine .cons (fun name => ?_) h
  rw [Bindings.find?_empty]
  exact iff_of_false nofun List.not_mem_nil

/-- What a scope is for makes no difference to resolution. -/
theorem Within.region {region : Region} {names : List String}
    (h : r.Within (⟨region, names⟩ :: around)) (other : Region) : r.Within (⟨other, names⟩ :: around) := by
  unfold Within at h ⊢
  generalize r.scopes = scopes at h
  cases h with
  | cons hscope hrest => exact .cons hscope hrest

/-- What has been found inside of a scope is kept when the scope is left. -/
theorem Walked.leave {surrounding : Surrounding} {r' : Resolver} (h : Walked r q os (surrounding :: around'))
    (hr : r.distances = r'.distances) : Walked r' q.leave os around' := by
  obtain ⟨hdistances, hwithin⟩ := h
  obtain ⟨scopes, globals, distances, faults⟩ := q
  cases hwithin with
  | cons _ hrest => exact ⟨hdistances.trans (congrArg _ hr), hrest⟩

end Resolver

open Resolver (Within Walked bracketed_faults)

mutual

theorem Expr.walked {r : Resolver} {around : List Surrounding} (context : Context) (e : Expr)
    (h : r.Within around) (hf : (e.resolve context r).faults = []) :
    Walked r (e.resolve context r) (e.occurrences around) around := by
  cases e with
  | literal value => exact .refl h
  | unary op line operand => exact Expr.walked context operand h hf
  | grouping inner => exact Expr.walked context inner h hf
  | get object name => exact Expr.walked context object h hf
  | binary op line left right | logical op line left right =>
    have hleft := Expr.walked context left h
      (Expr.resolve_steady bracketed_faults.toSteady context _ right hf)
    have hright := Expr.walked context right hleft.within hf
    have hboth := hleft.append hright
    unfold Expr.occurrences at hboth ⊢
    rw [← List.map_append] at hboth
    exact hboth
  | «variable» ref => exact Resolver.walked_refer ref h
  | assign ref value =>
    have hvalue := Expr.walked context value h (bracketed_faults.refer _ ref hf)
    have hboth := hvalue.append (Resolver.walked_refer ref hvalue.within)
    unfold Expr.occurrences at hboth ⊢
    rw [references, List.map_append]
    exact hboth
  | call callee line arguments =>
    have hcallee := Expr.walked context callee h
      (Expr.resolveAll_steady bracketed_faults.toSteady context _ arguments hf)
    have hboth := hcallee.append (Expr.walkedAll context arguments hcallee.within hf)
    unfold Expr.occurrences at hboth ⊢
    rw [references, List.map_append]
    exact hboth
  | set object name value =>
    have hvalue := Expr.walked context value h
      (Expr.resolve_steady bracketed_faults.toSteady context _ object hf)
    have hboth := hvalue.append (Expr.walked context object hvalue.within hf)
    unfold Expr.occurrences at hboth ⊢
    rw [references, List.map_append]
    exact hboth
  | this ref =>
    rw [Expr.resolve] at hf ⊢
    split at hf
    · exact absurd hf (Resolver.faults_report r ref.name .thisOutsideClass)
    · exact Resolver.walked_refer ref h
  | super ref method =>
    rw [Expr.resolve] at hf ⊢
    split at hf
    · exact absurd hf (Resolver.faults_report r ref.name .superOutsideClass)
    · exact absurd hf (Resolver.faults_report r ref.name .noSuperclass)
    · exact Resolver.walked_refer ref h

theorem Expr.walkedAll {r : Resolver} {around : List Surrounding} (context : Context) (es : List Expr)
    (h : r.Within around) (hf : (Expr.resolveAll context r es).faults = []) :
    Walked r (Expr.resolveAll context r es) ((Expr.referencesAll es).map (·, around)) around := by
  cases es with
  | nil => exact .refl h
  | cons e rest =>
    have hfirst := Expr.walked context e h
      (Expr.resolveAll_steady bracketed_faults.toSteady context _ rest hf)
    have hboth := hfirst.append (Expr.walkedAll context rest hfirst.within hf)
    rw [referencesAll, List.map_append]
    exact hboth

end

theorem Expr.walkedOption {r : Resolver} {around : List Surrounding} (context : Context)
    (e : Option Expr) (h : r.Within around) (hf : (Expr.resolveOption context r e).faults = []) :
    Walked r (Expr.resolveOption context r e) (Expr.occurrencesOption around e) around := by
  cases e with
  | none => exact .refl h
  | some e => exact Expr.walked context e h hf

theorem Resolver.walked_superclass {r : Resolver} {around : List Surrounding} (h : r.Within around)
    (name : Ident) (parent : Reference) (hf : ((r.bind name).superclass name parent).faults = []) :
    Walked r ((r.bind name).superclass name parent) [(parent, around)]
      (Surrounding.declare [name.text] around) := by
  have hreport := bracketed_faults.refer _ parent hf
  have hbind := Resolver.walked_bind h name (bracketed_faults.reportIf [] _ _ _ _ hreport)
  obtain ⟨hne, hsame⟩ := Walked.reportIf hbind.within _ _ _ hreport
  have hrefer := (hbind.append hsame).append (Resolver.walked_refer parent hsame.within)
  -- The class is not its own superclass, so that it makes no difference whether it is declared already.
  have hdistance := Surrounding.distance?_declare_of_not_mem (mt List.mem_singleton.1 hne) around
  refine ⟨hrefer.distances.trans (congrArg (· ++ r.distances) ?_), hrefer.within⟩
  change Occurrence.distances [(parent, Surrounding.declare [name.text] around)] = _
  rw [Occurrence.distances_singleton, Occurrence.distances_singleton, hdistance]

mutual

theorem Stmt.walked {P : List Surrounding → Reference → Prop} {r : Resolver} {around : List Surrounding}
    (context : Context) (s : Stmt) (hs : s.Fits P around) (h : r.Within around)
    (hf : (s.resolve context r).faults = []) :
    Walked r (s.resolve context r) (s.occurrences around) (Surrounding.declare s.declared around) := by
  cases s with
  | expression e | print e =>
    rw [Stmt.declared, Surrounding.declare_nil]
    exact Expr.walked context e h hf
  | var name initializer =>
    rw [Stmt.resolve] at hf ⊢
    have hresolved := bracketed_faults.ready _ name.text hf
    have hdeclare := Resolver.walked_declare h name
      (Expr.resolveOption_steady bracketed_faults.toSteady context _ initializer hresolved)
    have hvalue := hdeclare.append (Expr.walkedOption context initializer hdeclare.within hresolved)
    have hready := hvalue.append (Resolver.walked_ready hvalue.within name.text)
    rw [List.append_nil] at hready
    exact hready
  | block body =>
    rw [Stmt.resolve] at hf ⊢
    rw [Stmt.declared, Surrounding.declare_nil]
    exact (Stmt.walkedAll context body hs (Resolver.within_enter h (.block body)) hf).leave rfl
  | branch condition yes no =>
    cases no with
    | none =>
      rw [Stmt.resolve] at hf ⊢
      obtain ⟨hcondition, hyes, hnone⟩ := hs
      have hfirst := Expr.walked context condition h
        (Stmt.resolve_bracketed bracketed_faults context _ yes hf)
      exact hfirst.append (Stmt.walked context yes hyes hfirst.within hf)
    | some no =>
      rw [Stmt.resolve] at hf ⊢
      obtain ⟨hcondition, ⟨hyes, hyesNone⟩, hno, hnoNone⟩ := hs
      have hresolved := Stmt.resolve_bracketed bracketed_faults context _ no hf
      have hfirst := Expr.walked context condition h
        (Stmt.resolve_bracketed bracketed_faults context _ yes hresolved)
      have hsecond := hfirst.append (Stmt.walked context yes hyes hfirst.within hresolved)
      rw [hyesNone, Surrounding.declare_nil] at hsecond
      rw [Stmt.declared, hyesNone]
      exact hsecond.append (Stmt.walked context no hno hsecond.within hf)
  | loop condition body =>
    rw [Stmt.resolve] at hf ⊢
    obtain ⟨hcondition, hbody, hnone⟩ := hs
    have hfirst := Expr.walked context condition h
      (Stmt.resolve_bracketed bracketed_faults context _ body hf)
    exact hfirst.append (Stmt.walked context body hbody hfirst.within hf)
  | function decl =>
    rw [Stmt.resolve] at hf ⊢
    have hbind := Resolver.walked_bind h decl.name
      (FunctionDecl.resolve_bracketed bracketed_faults _ _ decl hf)
    exact hbind.append (FunctionDecl.walked _ decl hs.2 hbind.within hf)
  | classDecl name superclass methods =>
    cases superclass with
    | none =>
      rw [Stmt.resolve] at hf ⊢
      have hentered := FunctionDecl.resolveMethods_bracketed bracketed_faults _ _ methods hf
      have hbind := Resolver.walked_bind h name (bracketed_faults.ready (r.bind name).enter "this" hentered)
      have hthis := Resolver.walked_ready (Resolver.within_enter hbind.within (.heritage methods)) "this"
      exact hbind.append ((hthis.append (FunctionDecl.walkedAll _ methods hs.2 hthis.within hf)).leave rfl)
    | some parent =>
      rw [Stmt.resolve] at hf ⊢
      have hentered := FunctionDecl.resolveMethods_bracketed bracketed_faults _ _ methods hf
      have hsuperclass := Resolver.walked_superclass h name parent
        (bracketed_faults.ready ((r.bind name).superclass name parent).enter "super"
          (bracketed_faults.ready (Resolver.enter _) "this" hentered))
      have hsuper := Resolver.walked_ready
        (Resolver.within_enter hsuperclass.within (.heritage methods)) "super"
      have hthis := Resolver.walked_ready (Resolver.within_enter hsuper.within (.heritage methods)) "this"
      have hmethods : Walked (((r.bind name).superclass name parent).enter.mark "super" true) _ _ _ :=
        (hthis.append (FunctionDecl.walkedAll _ methods hs.2.2 hthis.within hf)).leave rfl
      exact hsuperclass.append ((hsuper.append hmethods).leave rfl)
  | ret line value =>
    rw [Stmt.declared, Surrounding.declare_nil]
    cases value with
    | none =>
      rw [Stmt.resolve] at hf ⊢
      exact (Walked.reportIf h _ _ _ hf).2
    | some e =>
      rw [Stmt.resolve] at hf ⊢
      have hresolved := Expr.resolve_steady bracketed_faults.toSteady context _ e hf
      have houtside := Walked.reportIf h _ _ _ (bracketed_faults.reportIf [] _ _ _ _ hresolved)
      have hvalue := Walked.reportIf houtside.2.within _ _ _ hresolved
      exact (houtside.2.append hvalue.2).append (Expr.walked context e hvalue.2.within hf)

theorem Stmt.walkedAll {P : List Surrounding → Reference → Prop} {r : Resolver}
    {around : List Surrounding} (context : Context) (body : List Stmt) (hs : Stmt.FitsAll P around body)
    (h : r.Within around) (hf : (Stmt.resolveAll context r body).faults = []) :
    Walked r (Stmt.resolveAll context r body) (Stmt.occurrencesAll around body)
      (Surrounding.declare (body.flatMap Stmt.declared) around) := by
  cases body with
  | nil =>
    rw [List.flatMap_nil, Surrounding.declare_nil]
    exact .refl h
  | cons s rest =>
    rw [Stmt.resolveAll] at hf ⊢
    have hfirst := Stmt.walked context s hs.1 h
      (Stmt.resolveAll_bracketed bracketed_faults context _ rest hf)
    rw [List.flatMap_cons, Surrounding.declare_append]
    exact hfirst.append (Stmt.walkedAll context rest hs.2 hfirst.within hf)

theorem FunctionDecl.walked {P : List Surrounding → Reference → Prop} {r : Resolver}
    {around : List Surrounding} (context : Context) (decl : FunctionDecl) (hs : decl.Fits P around)
    (h : r.Within around) (hf : (decl.resolve context r).faults = []) :
    Walked r (decl.resolve context r) (decl.occurrences around) around := by
  obtain ⟨name, params, body⟩ := decl
  rw [FunctionDecl.resolve] at hf ⊢
  have hparams := Resolver.walked_bindAll (Resolver.within_enter h (.body ⟨name, params, body⟩)) params
    (Stmt.resolveAll_bracketed bracketed_faults context _ body hf)
  exact (hparams.append (Stmt.walkedAll context body hs.2 hparams.within hf)).leave rfl

theorem FunctionDecl.walkedAll {P : List Surrounding → Reference → Prop} {r : Resolver}
    {around : List Surrounding} {region : Region} (context : Context) (methods : List FunctionDecl)
    (hs : FunctionDecl.FitsAll P around methods) (h : r.Within (⟨region, ["this"]⟩ :: around))
    (hf : (FunctionDecl.resolveMethods context r methods).faults = []) :
    Walked r (FunctionDecl.resolveMethods context r methods)
      (FunctionDecl.occurrencesAll around methods) (⟨region, ["this"]⟩ :: around) := by
  cases methods with
  | nil => exact .refl h
  | cons method rest =>
    rw [FunctionDecl.resolveMethods] at hf ⊢
    have hfirst := FunctionDecl.walked _ method hs.1 (h.region (.receiver method))
      (FunctionDecl.resolveMethods_bracketed bracketed_faults context _ rest hf)
    have hsame : Walked r _ _ (⟨region, ["this"]⟩ :: around) :=
      ⟨hfirst.distances, hfirst.within.region region⟩
    exact hsame.append (FunctionDecl.walkedAll context rest hs.2 hsame.within hf)

end

/-- What resolution gives is what can be read off the tree. -/
theorem distances_of_resolveProgram {P : List Surrounding → Reference → Prop} {globals : List String}
    {tree : List Stmt} {distances : List (Nat × Nat)} (hs : Stmt.FitsAll P [] tree)
    (h : resolveProgram globals tree = .ok distances) :
    distances = Occurrence.distances (Stmt.occurrencesAll [] tree) := by
  obtain ⟨hfaults, hdistances⟩ := Resolver.finish_eq_ok.1 h
  have hstart : (Resolver.start globals).Within [] := List.Forall₂.nil
  have hwalked := Stmt.walkedAll .topLevel tree hs hstart hfaults
  exact hdistances.symm.trans (hwalked.distances.trans (List.append_nil _))

theorem distances_of_resolveExpression {globals : List String} {e : Expr}
    {distances : List (Nat × Nat)} (h : resolveExpression globals e = .ok distances) :
    distances = Occurrence.distances (e.occurrences []) := by
  obtain ⟨hfaults, hdistances⟩ := Resolver.finish_eq_ok.1 h
  have hstart : (Resolver.start globals).Within [] := List.Forall₂.nil
  have hwalked := Expr.walked .topLevel e hstart hfaults
  exact hdistances.symm.trans (hwalked.distances.trans (List.append_nil _))

end Lox
