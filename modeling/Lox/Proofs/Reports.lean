import Lox.Proofs.Splicing.Analysis

/-!
# What a run reports

The status of a run can be told from what it reports. A source that is rejected is rejected for one
kind of errors, and the interpreter does not notice it.
-/
namespace Lox

namespace Diagnostic

/-- Is this an error of scanning or parsing? -/
def isSyntactic : Diagnostic → Bool
  | lexical .. | grammar .. => true
  | _ => false

def isResolution : Diagnostic → Bool
  | resolution .. => true
  | _ => false

/-- Did this happen while something was executed? -/
def isDynamic : Diagnostic → Bool
  | runtime .. | output _ => true
  | _ => false

theorem isResolution_of_isSyntactic {d : Diagnostic} (h : d.isSyntactic = true) :
    d.isResolution = false := by
  cases d <;> first | rfl | cases h

theorem isDynamic_of_static {d : Diagnostic} (h : d.isSyntactic = true ∨ d.isResolution = true) :
    d.isDynamic = false := by
  cases d <;> first | rfl | exact h.elim nofun nofun

end Diagnostic

/-- There are errors, all of them of scanning and parsing or all of them of resolution. -/
def Rejects (diagnostics : List Diagnostic) : Prop :=
  diagnostics ≠ [] ∧
    ((∀ d ∈ diagnostics, d.isSyntactic = true) ∨ ∀ d ∈ diagnostics, d.isResolution = true)

theorem rejects_syntax {source : String} {faults : List SyntaxFault}
    (h : (tokenize source).2 ++ faults.map SyntaxFault.diagnostic ≠ []) :
    Rejects ((tokenize source).2 ++ faults.map SyntaxFault.diagnostic) := by
  refine ⟨h, .inl fun d hd => ?_⟩
  obtain hd | hd := List.mem_append.1 hd
  · obtain ⟨item, -, hitem⟩ := List.mem_filterMap.1 hd
    cases item with
    | token t => cases hitem
    | fault line cause =>
      cases hitem
      rfl
  · obtain ⟨fault, -, rfl⟩ := List.mem_map.1 hd
    rfl

theorem rejects_finish {r : Resolver} {faults : List ResolutionFault} (h : r.finish = .error faults) :
    Rejects (faults.map ResolutionFault.diagnostic) := by
  unfold Resolver.finish at h
  split at h
  · cases h
  · next hfaults =>
    cases h
    refine ⟨fun hnone => hfaults (List.isEmpty_iff.2 (List.map_eq_nil_iff.1 hnone)), .inr fun d hd => ?_⟩
    obtain ⟨fault, -, rfl⟩ := List.mem_map.1 hd
    rfl

namespace Session

variable {s : Session} {mode : Mode} {source : String} {fuel : Nat} {diagnostics : List Diagnostic}

theorem rejects_ofResolution {accepted : List (Nat × Nat) → Analysis}
    {resolved : Except (List ResolutionFault) (List (Nat × Nat))}
    (h : Analysis.ofResolution accepted resolved = .rejected diagnostics)
    (haccepted : ∀ distances, accepted distances ≠ .rejected diagnostics)
    (hresolved : ∀ faults, resolved = .error faults → Rejects (faults.map ResolutionFault.diagnostic)) :
    Rejects diagnostics := by
  cases resolved with
  | ok distances => exact absurd h (haccepted distances)
  | error faults =>
    cases h
    exact hresolved faults rfl

/-- A source is only rejected for errors. -/
theorem rejects_analyze (h : (s.analyze mode source).1 = .rejected diagnostics) : Rejects diagnostics := by
  unfold analyze Analysis.ofSource at h
  cases mode with
  | program =>
    dsimp only at h
    split at h
    · exact rejects_ofResolution h (fun _ => nofun) fun _ => rejects_finish
    · next hsome =>
      cases h
      exact rejects_syntax hsome
  | expression =>
    dsimp only at h
    split at h
    · exact rejects_ofResolution h (fun _ => nofun) fun _ => rejects_finish
    · next hnone =>
      cases h
      refine rejects_syntax fun hsilent => ?_
      -- Without errors there is a tree.
      have hfaults := List.map_eq_nil_iff.1 (List.append_eq_nil_iff.1 hsilent).2
      obtain ⟨e, he⟩ := Option.isSome_iff_exists.1 (Parser.parseExpression_isSome hfaults)
      exact hnone e he hsilent

/-- A run is rejected before anything is executed, or reports how execution ended. -/
theorem run_cases (fuel : Nat) (s : Session) (mode : Mode) (source : String) :
    (∃ diagnostics, Rejects diagnostics ∧ (s.run fuel mode source).1 = .static diagnostics ∧
        (s.run fuel mode source).2.interpreter = s.interpreter) ∨
      ∃ ending, (s.run fuel mode source).1 = .ofEnding ending := by
  rw [run_eq]
  cases hanalysis : (s.analyze mode source).1 with
  | rejected diagnostics => exact .inl ⟨diagnostics, rejects_analyze hanalysis, rfl, rfl⟩
  | program tree distances => exact .inr ⟨_, rfl⟩
  | expression e distances => exact .inr ⟨_, rfl⟩

/-- A run that ends with a status has succeeded if and only if it reports nothing. It has ended with a static
error if and only if it reports errors, none of which is of execution, nor of resolution beside
one of scanning or parsing; then the interpreter is as it was before. It has ended with an error at run
time if and only if it reports one error, which is of execution. -/
theorem status_of_run {status : Status} (hended : (s.run fuel mode source).1.outcome = .status status) :
    let diagnostics := (s.run fuel mode source).1.diagnostics
    (status = .ok ↔ diagnostics = []) ∧
      (status = .staticError ↔ diagnostics ≠ [] ∧
        (∀ d ∈ diagnostics, d.isSyntactic = true ∨ d.isResolution = true) ∧
        ((∃ d ∈ diagnostics, d.isSyntactic = true) → ∀ d ∈ diagnostics, d.isResolution = false)) ∧
      (status = .staticError → (s.run fuel mode source).2.interpreter = s.interpreter) ∧
      (status = .runtimeError ↔ ∃ d, diagnostics = [d] ∧ d.isDynamic = true) := by
  intro diagnostics
  obtain ⟨found, ⟨hne, hkind⟩, hreport, hsame⟩ | ⟨ending, hreport⟩ := run_cases fuel s mode source
  · have hdiagnostics : diagnostics = found := congrArg Report.diagnostics hreport
    rw [hreport] at hended
    cases hended
    rw [hdiagnostics]
    have hstatic : ∀ d ∈ found, d.isSyntactic = true ∨ d.isResolution = true := fun d hd =>
      hkind.elim (fun h => .inl (h d hd)) fun h => .inr (h d hd)
    have hapart : (∃ d ∈ found, d.isSyntactic = true) → ∀ d ∈ found, d.isResolution = false := by
      rintro ⟨d, hd, hsyntactic⟩
      obtain hall | hall := hkind
      · exact fun d' hd' => Diagnostic.isResolution_of_isSyntactic (hall d' hd')
      · have hnot := Diagnostic.isResolution_of_isSyntactic hsyntactic
        rw [hall d hd] at hnot
        cases hnot
    refine ⟨iff_of_false nofun hne, iff_of_true rfl ⟨hne, hstatic, hapart⟩, fun _ => hsame,
      iff_of_false nofun ?_⟩
    rintro ⟨d, rfl, hdynamic⟩
    rw [Diagnostic.isDynamic_of_static (hstatic d List.mem_cons_self)] at hdynamic
    cases hdynamic
  · have hdiagnostics : diagnostics = (Report.ofEnding ending).diagnostics :=
      congrArg Report.diagnostics hreport
    rw [hreport] at hended
    rw [hdiagnostics]
    cases ending with
    | completed =>
      cases hended
      exact ⟨iff_of_true rfl rfl, iff_of_false nofun fun h => h.1 rfl, nofun,
        iff_of_false nofun fun ⟨d, hd, _⟩ => absurd hd nofun⟩
    | failed failure =>
      cases hended
      have hdynamic : failure.diagnostic.isDynamic = true := by cases failure <;> rfl
      refine ⟨iff_of_false nofun (List.cons_ne_nil _ _), iff_of_false nofun ?_, nofun,
        iff_of_true rfl ⟨_, rfl, hdynamic⟩⟩
      rintro ⟨-, hstatic, -⟩
      rw [Diagnostic.isDynamic_of_static (hstatic _ List.mem_cons_self)] at hdynamic
      cases hdynamic
    | crashed => cases hended
    | exhausted => cases hended

/-- An expression that has a tree, but is rejected. -/
theorem status_of_run_target :
    let s := Session.new {} ⟨fun _ => 0, 0, 0⟩
    (s.run 9 .expression "1 = 2").1 =
        .static [.grammar 1 (.at "=") .assignmentTarget] ∧
      (s.run 9 .expression "1 = 2").2.interpreter = s.interpreter := by
  intro s
  have hreport : (s.run 9 .expression "1 = 2").1 = .static [.grammar 1 (.at "=") .assignmentTarget] := by
    decide +kernel
  obtain ⟨-, -, hsame, -⟩ := status_of_run (congrArg Report.outcome hreport)
  exact ⟨hreport, hsame rfl⟩

end Session
end Lox
