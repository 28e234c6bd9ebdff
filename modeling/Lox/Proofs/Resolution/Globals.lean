import Lox.Proofs.Resolution.Tables

/-!
# Programs one after the other

Resolving a program after another gives what resolving it in a session gives whose globals are among
those that the first program declares: the same distances, and faults only if there are some there.
-/
namespace Lox

namespace Resolver

/-- The global can be read. -/
def Ready (r : Resolver) (name : String) : Prop := r.globals.find? name = some true

/-- The second walk knows more globals, and has found the distances `before` earlier. -/
structure Ahead (before : List (Nat × Nat)) (r q : Resolver) : Prop where
  scopes : q.scopes = r.scopes
  globals : ∀ name, q.globals.find? name = r.globals.find? name ∨ q.Ready name
  distances : q.distances = r.distances ++ before
  faults : r.faults = [] → q.faults = []

variable {before : List (Nat × Nat)} {r q : Resolver}

namespace Ahead

theorem report (h : Ahead before r q) (name : Ident) (cause : ResolutionError) (t : Resolver)
    (ht : t.scopes = q.scopes ∧ t.globals = q.globals ∧ t.distances = q.distances) :
    Ahead before (r.report name cause) t where
  scopes := ht.1.trans h.scopes
  globals x := by
    unfold Ready
    rw [ht.2.1]
    exact h.globals x
  distances := ht.2.2.trans h.distances
  faults hnil := absurd hnil (List.append_ne_nil_of_right_ne_nil _ (List.cons_ne_nil _ _))

theorem mark (h : Ahead before r q) (text : String) (ready : Bool) :
    Ahead before (r.mark text ready) (q.mark text ready) := by
  obtain ⟨scopes, globals, distances, faults⟩ := r
  obtain ⟨scopes', globals', distances', faults'⟩ := q
  have hscopes : scopes' = scopes := h.scopes
  subst hscopes
  cases scopes' with
  | cons scope outer => exact ⟨rfl, h.globals, h.distances, h.faults⟩
  | nil =>
    refine ⟨rfl, fun name => ?_, h.distances, h.faults⟩
    unfold Ready
    dsimp only [Resolver.mark]
    rw [Bindings.find?_insert, Bindings.find?_insert]
    by_cases hname : text = name
    · rw [if_pos hname, if_pos hname]
      exact .inl rfl
    · rw [if_neg hname, if_neg hname]
      exact h.globals name

theorem declare (h : Ahead before r q) (name : Ident) :
    Ahead before (r.declare name) (q.declare name) := by
  have hmark := h.mark name.text false
  unfold Resolver.declare
  rw [h.scopes]
  cases hs : r.scopes with
  | cons scope outer =>
    dsimp only
    by_cases hc : scope.contains name.text = true
    · rw [if_pos hc, if_pos hc]
      exact (h.report name .redeclared (q.report name .redeclared) ⟨rfl, rfl, rfl⟩).mark name.text false
    · rw [if_neg hc, if_neg hc]
      exact hmark
  | nil =>
    dsimp only
    unfold Bindings.contains
    obtain heq | hready := h.globals name.text
    · rw [heq]
      split
      · exact h
      · exact hmark
    · rw [show q.globals.find? name.text = some true from hready]
      rw [if_pos (show (some true).isSome = true from rfl)]
      split
      · exact h
      -- Only the first walk has to declare the name.
      · refine ⟨?_, fun x => ?_, ?_, ?_⟩
        · rw [h.scopes, hs, (inside_mark r name.text false).nil hs]
        · have hx := h.globals x
          unfold Resolver.mark
          rw [hs]
          dsimp only
          rw [Bindings.find?_insert]
          split
          · next hname => exact .inr (hname ▸ hready)
          · exact hx
        · unfold Resolver.mark
          rw [hs]
          exact h.distances
        · unfold Resolver.mark
          rw [hs]
          exact h.faults

theorem refer (h : Ahead before r q) (ref : Reference) : Ahead before (r.refer ref) (q.refer ref) := by
  unfold Resolver.refer
  dsimp only
  rw [h.scopes]
  cases distance? ref.name.text 0 r.scopes with
  | some d => exact ⟨rfl, h.globals, congrArg _ h.distances, h.faults⟩
  | none =>
    dsimp only
    have hreport : ∀ t : Resolver, t.scopes = q.scopes ∧ t.globals = q.globals ∧
        t.distances = q.distances → Ahead before (r.report ref.name .ownInitializer) t :=
      h.report ref.name .ownInitializer
    obtain heq | hready := h.globals ref.name.text
    · rw [heq]
      split
      · exact h
      · exact hreport _ ⟨rfl, rfl, rfl⟩
      · split
        · exact hreport _ ⟨rfl, rfl, rfl⟩
        · exact h
    · rw [show q.globals.find? ref.name.text = some true from hready]
      dsimp only
      split
      · exact h
      · exact hreport _ ⟨rfl, rfl, rfl⟩
      · split
        · exact hreport _ ⟨rfl, rfl, rfl⟩
        · exact h

theorem paired (before : List (Nat × Nat)) : Paired (Ahead before) where
  report h name cause := h.report name cause _ ⟨rfl, rfl, rfl⟩
  declare h name := h.declare name
  ready h text := h.mark text true
  refer h ref := h.refer ref
  enter h := ⟨congrArg (Bindings.empty :: ·) h.scopes, h.globals, h.distances, h.faults⟩
  leave h := ⟨congrArg List.tail h.scopes, h.globals, h.distances, h.faults⟩

end Ahead

theorem finish_eq_ok {r : Resolver} {distances : List (Nat × Nat)} :
    r.finish = .ok distances ↔ r.faults = [] ∧ r.distances = distances := by
  unfold finish
  split
  · next h => exact ⟨fun h' => ⟨List.isEmpty_iff.1 h, Except.ok.inj h'⟩, fun h' => congrArg _ h'.2⟩
  · next h => exact ⟨nofun, fun h' => absurd (List.isEmpty_iff.2 h'.1) h⟩

end Resolver

open Resolver (Ahead Ready find?_start finish_eq_ok clear_start holds_start)

theorem Stmt.resolveAll_append (context : Context) (r : Resolver) (above below : List Stmt) :
    Stmt.resolveAll context r (above ++ below) =
      Stmt.resolveAll context (Stmt.resolveAll context r above) below := by
  induction above generalizing r with
  | nil => rfl
  | cons s rest ih => exact ih (s.resolve context r)

/-- What resolution accepts of a program in a session, it accepts behind the programs that have declared
the globals of the session, and finds the same distances. -/
theorem resolveProgram_append {globals globals' : List String} {above below : List Stmt}
    {distances distances' : List (Nat × Nat)}
    (habove : resolveProgram globals above = .ok distances)
    (hbelow : resolveProgram globals' below = .ok distances')
    (hglobals : ∀ name ∈ globals', name ∈ globals ∨ name ∈ above.flatMap Stmt.declared) :
    resolveProgram globals (above ++ below) = .ok (distances' ++ distances) := by
  obtain ⟨hfaults, hdistances⟩ := finish_eq_ok.1 habove
  obtain ⟨hfaults', hdistances'⟩ := finish_eq_ok.1 hbelow
  have hadds := Stmt.adds_resolveAll .topLevel above (clear_start globals)
  have hscopes : (Stmt.resolveAll .topLevel (.start globals) above).scopes = [] :=
    List.length_eq_zero_iff.1 hadds.length
  have hafter : ∀ name, (Stmt.resolveAll .topLevel (.start globals) above).Ready name ↔
      name ∈ globals ∨ name ∈ above.flatMap Stmt.declared := by
    intro name
    rw [← holds_start, ← hadds.holds, ← hadds.clear.reads_iff_holds]
    unfold Ready Resolver.Reads Resolver.tables
    rw [hscopes]
    simp
  have hstart : Ahead distances (.start globals') (Stmt.resolveAll .topLevel (.start globals) above) := by
    refine ⟨hscopes, fun name => ?_, hdistances, fun _ => hfaults⟩
    by_cases hready : (Stmt.resolveAll .topLevel (.start globals) above).Ready name
    · exact .inr hready
    · have hknown : name ∉ globals' := fun h => hready ((hafter name).2 (hglobals name h))
      rw [find?_start, if_neg hknown]
      refine .inl (Option.eq_none_iff_forall_ne_some.2 fun ready hfound => ?_)
      cases ready with
      | true => exact hready hfound
      | false => exact hadds.clear _ (List.mem_append_right _ (List.mem_singleton.2 rfl)) name hfound
  have hahead := Stmt.resolveAll_paired (Ahead.paired distances) .topLevel below hstart
  unfold resolveProgram
  rw [finish_eq_ok, Stmt.resolveAll_append, hahead.distances, hdistances']
  exact ⟨hahead.faults hfaults', rfl⟩

end Lox
