import Lox.Proofs.Reclamation.Created
import Lox.Session

/-!
# Histories

The states of the machine that a session passes through, in order. A run is only reached if all
before it ended with a status.
-/
namespace Lox

/-- The states from `m` on, the last one included. -/
def Machine.history (fuel : Nat) (m : Machine) : List Machine :=
  match fuel with
  | 0 => [m]
  | fuel + 1 => if m.isFinal then [m] else m :: Machine.history fuel m.step

def Interpreter.history (fuel : Nat) (i : Interpreter) : List Stmt → List Machine
  | [] => []
  | s :: rest =>
    Machine.history fuel ⟨.exec s, [], i⟩ ++
      match Machine.run fuel ⟨.exec s, [], i⟩ with
      | ⟨.done, [], i⟩ => i.settle.history fuel rest
      | ⟨.yield v, [], i⟩ | ⟨.returning v, [], i⟩ => (i.discard v).settle.history fuel rest
      | _ => []

namespace Session

/-- The tree of a program without lexical or syntax errors, with its distances. -/
def program? (s : Session) (source : String) : Option (List Stmt × List (Nat × Nat)) :=
  let (tokens, lexical) := tokenize source
  let parsed := parseProgram s.nextId tokens
  match lexical ++ parsed.faults.map SyntaxFault.diagnostic,
    resolveProgram s.interpreter.globalNames parsed.tree with
  | [], .ok distances => some (parsed.tree, distances)
  | _, _ => none

def expression? (s : Session) (source : String) : Option (Expr × List (Nat × Nat)) :=
  let (tokens, lexical) := tokenize source
  let parsed := parseExpression s.nextId tokens
  match parsed.tree, lexical ++ parsed.faults.map SyntaxFault.diagnostic with
  | some e, [] =>
    match resolveExpression s.interpreter.globalNames e with
    | .ok distances => some (e, distances)
    | .error _ => none
  | _, _ => none

/-- The states that one run passes through, none if nothing is executed. -/
def states (fuel : Nat) (s : Session) (mode : Mode) (source : String) : List Machine :=
  match mode with
  | .program =>
    match s.program? source with
    | some (tree, distances) => (s.interpreter.learn distances).history fuel tree
    | none => []
  | .expression =>
    match s.expression? source with
    | some (e, distances) => Machine.history fuel ⟨.eval e, [], s.interpreter.learn distances⟩
    | none => []

/-- The states that a session passes through when it is fed some sources. -/
def history (fuel : Nat) (s : Session) : List (Mode × String) → List Machine
  | [] => []
  | (mode, source) :: rest =>
    s.states fuel mode source ++
      match s.run fuel mode source with
      | (⟨.status _, _⟩, s) => s.history fuel rest
      | _ => []

/-- Feeds some sources to a session, one after the other, until one of them ends without a status. -/
def runAll (fuel : Nat) (s : Session) : List (Mode × String) → List Report × Session
  | [] => ([], s)
  | (mode, source) :: rest =>
    match s.run fuel mode source with
    | (⟨.status status, diagnostics⟩, s) =>
      let (reports, s) := s.runAll fuel rest
      (⟨.status status, diagnostics⟩ :: reports, s)
    | (report, s) => ([report], s)

end Session

/-! ## What every step keeps -/

section

variable {fuel : Nat} {Q : Machine → Prop}

theorem Machine.forall_history {m : Machine} (hstart : Q m)
    (hstep : ∀ n ∈ m.history fuel, Q n → Q n.step) : ∀ n ∈ m.history fuel, Q n := by
  induction fuel generalizing m with
  | zero =>
    intro n hn
    cases List.mem_singleton.1 hn
    exact hstart
  | succ fuel ih =>
    unfold history at hstep ⊢
    split at hstep
    · next hfinal =>
      rw [if_pos hfinal]
      intro n hn
      cases List.mem_singleton.1 hn
      exact hstart
    · next hfinal =>
      rw [if_neg hfinal]
      intro n hn
      obtain rfl | hn := List.mem_cons.1 hn
      · exact hstart
      · exact ih (hstep m List.mem_cons_self hstart)
          (fun n hn => hstep n (List.mem_cons_of_mem _ hn)) n hn

theorem Interpreter.forall_history {i : Interpreter} {program : List Stmt}
    (hexec : ∀ s ∈ program, ∀ i, Q ⟨.exec s, [], i⟩)
    (hstep : ∀ m ∈ i.history fuel program, Q m → Q m.step) : ∀ m ∈ i.history fuel program, Q m := by
  induction program generalizing i with
  | nil => exact fun m hm => absurd hm List.not_mem_nil
  | cons s rest ih =>
    obtain ⟨hs, hrest⟩ := List.forall_mem_cons.1 hexec
    unfold history at hstep ⊢
    have hfirst := Machine.forall_history (hs i) fun m hm => hstep m (List.mem_append_left _ hm)
    intro m hm
    obtain hm | hm := List.mem_append.1 hm
    · exact hfirst m hm
    · split at hm
      · next hrun =>
        rw [hrun] at hstep
        exact ih hrest (fun m hm => hstep m (List.mem_append_right _ hm)) m hm
      · next hrun =>
        rw [hrun] at hstep
        exact ih hrest (fun m hm => hstep m (List.mem_append_right _ hm)) m hm
      · next hrun =>
        rw [hrun] at hstep
        exact ih hrest (fun m hm => hstep m (List.mem_append_right _ hm)) m hm
      · cases hm

/-- A statement of a program that resolution accepts. -/
def Stmt.Accepted (s : Stmt) : Prop :=
  ∃ globals program distances, resolveProgram globals program = .ok distances ∧ s ∈ program

theorem Session.resolved_of_program? {s : Session} {source : String} {tree : List Stmt}
    {distances : List (Nat × Nat)} (h : s.program? source = some (tree, distances)) :
    resolveProgram s.interpreter.globalNames tree = .ok distances := by
  unfold program? at h
  dsimp only at h
  split at h
  · next hresolved =>
    cases h
    exact hresolved
  · cases h

variable (hexec : ∀ s : Stmt, s.Accepted → ∀ i, Q ⟨.exec s, [], i⟩) (heval : ∀ e i, Q ⟨.eval e, [], i⟩)

include hexec heval

theorem Session.forall_states {s : Session} {mode : Mode} {source : String}
    (hstep : ∀ m ∈ s.states fuel mode source, Q m → Q m.step) :
    ∀ m ∈ s.states fuel mode source, Q m := by
  unfold states at hstep ⊢
  cases mode with
  | program =>
    dsimp only at hstep ⊢
    cases hp : s.program? source with
    | none => exact fun m hm => absurd hm List.not_mem_nil
    | some p =>
      rw [hp] at hstep
      have hresolved := resolved_of_program? hp
      exact Interpreter.forall_history (fun t ht => hexec t ⟨_, p.1, p.2, hresolved, ht⟩) hstep
  | expression =>
    dsimp only at hstep ⊢
    cases he : s.expression? source with
    | none => exact fun m hm => absurd hm List.not_mem_nil
    | some e =>
      rw [he] at hstep
      exact Machine.forall_history (heval _ _) hstep

/-- What holds of every expression and accepted statement that is begun, and is kept by every step,
holds throughout. -/
theorem Session.forall_history {s : Session} {inputs : List (Mode × String)}
    (hstep : ∀ m ∈ s.history fuel inputs, Q m → Q m.step) : ∀ m ∈ s.history fuel inputs, Q m := by
  induction inputs generalizing s with
  | nil => exact fun m hm => absurd hm List.not_mem_nil
  | cons input rest ih =>
    obtain ⟨mode, source⟩ := input
    unfold history at hstep ⊢
    have hfirst := forall_states hexec heval fun m hm => hstep m (List.mem_append_left _ hm)
    intro m hm
    obtain hm | hm := List.mem_append.1 hm
    · exact hfirst m hm
    · split at hm
      · next hrun =>
        rw [hrun] at hstep
        exact ih (fun m hm => hstep m (List.mem_append_right _ hm)) m hm
      · cases hm

end

/-! ## What is reported is the failure of a state -/

namespace Machine

theorem run_mem_history (fuel : Nat) (m : Machine) : m.run fuel ∈ m.history fuel := by
  induction fuel generalizing m with
  | zero => exact List.mem_cons_self
  | succ fuel ih =>
    unfold run history
    split
    · exact List.mem_cons_self
    · exact List.mem_cons_of_mem _ (ih m.step)

end Machine

variable {fuel line : Nat} {cause : RuntimeError}

namespace Interpreter

theorem failed_of_interpret {i : Interpreter} {program : List Stmt}
    (h : (i.interpret fuel program).1 = .failed (.runtime line cause)) :
    ∃ m ∈ i.history fuel program, m.control = .failed (.runtime line cause) := by
  induction program generalizing i with
  | nil =>
    unfold interpret at h
    split at h <;> cases h
  | cons s rest ih =>
    have hlast := Machine.run_mem_history fuel ⟨.exec s, [], i⟩
    unfold interpret at h
    unfold history
    split at h
    · next hrun =>
      rw [hrun]
      obtain ⟨m, hm, hfailed⟩ := ih h
      exact ⟨m, List.mem_append_right _ hm, hfailed⟩
    · next hrun =>
      rw [hrun]
      obtain ⟨m, hm, hfailed⟩ := ih h
      exact ⟨m, List.mem_append_right _ hm, hfailed⟩
    · next hrun =>
      rw [hrun]
      obtain ⟨m, hm, hfailed⟩ := ih h
      exact ⟨m, List.mem_append_right _ hm, hfailed⟩
    · next failure j hrun =>
      rw [hrun] at hlast
      refine ⟨_, List.mem_append_left _ hlast, ?_⟩
      unfold abort at h
      dsimp only at h
      split at h <;> cases h
      rfl
    · cases h
    · cases h

end Interpreter

namespace Session

variable {s : Session}

theorem failed_of_printResult {i : Interpreter} {v : Value} :
    (printResult i v).1 ≠ .failed (.runtime line cause) := by
  unfold printResult
  intro h
  split at h
  · cases h
  · split at h <;> cases h

theorem failed_of_runExpression {i : Interpreter} {e : Expr}
    (h : (runExpression fuel i e).1 = .failed (.runtime line cause)) :
    ∃ m ∈ Machine.history fuel ⟨.eval e, [], i⟩, m.control = .failed (.runtime line cause) := by
  have hlast := Machine.run_mem_history fuel ⟨.eval e, [], i⟩
  unfold runExpression Interpreter.interpretExpression at h
  generalize Machine.run fuel ⟨.eval e, [], i⟩ = last at h hlast
  obtain ⟨control, stack, j⟩ := last
  cases control with
  | yield v =>
    cases stack with
    | nil => exact absurd h failed_of_printResult
    | cons k stack => cases h
  | failed failure =>
    cases stack with
    | nil =>
      cases h
      exact ⟨_, hlast, rfl⟩
    | cons k stack => cases h
  | _ => cases h

theorem not_runtime_of_static {source : String} {faults : List SyntaxFault} :
    .runtime line cause ∉ (tokenize source).2 ++ faults.map SyntaxFault.diagnostic := by
  intro h
  obtain h | h := List.mem_append.1 h
  · obtain ⟨item, -, hitem⟩ := List.mem_filterMap.1 h
    cases item <;> cases hitem
  · obtain ⟨fault, -, hfault⟩ := List.mem_map.1 h
    cases hfault

/-- Execution reports the failure it ended with. -/
theorem failed_of_execute {resolved : Except (List ResolutionFault) (List (Nat × Nat))}
    {body : Interpreter → Ending × Interpreter}
    (h : .runtime line cause ∈ (s.execute resolved body).1.diagnostics) :
    ∃ distances, resolved = .ok distances ∧
      (body (s.interpreter.learn distances)).1 = .failed (.runtime line cause) := by
  cases resolved with
  | error faults =>
    obtain ⟨fault, -, hfault⟩ := List.mem_map.1 h
    cases hfault
  | ok distances =>
    refine ⟨distances, rfl, ?_⟩
    change _ ∈ (Report.ofEnding (body (s.interpreter.learn distances)).1).diagnostics at h
    generalize (body (s.interpreter.learn distances)).1 = ending at h ⊢
    cases ending with
    | failed failure =>
      cases failure with
      | runtime n c =>
        cases List.mem_singleton.1 h
        rfl
      | output c => cases List.mem_singleton.1 h
    | _ => cases h

theorem failed_of_run {mode : Mode} {source : String}
    (h : .runtime line cause ∈ (s.run fuel mode source).1.diagnostics) :
    ∃ m ∈ s.states fuel mode source, m.control = .failed (.runtime line cause) := by
  unfold run at h
  unfold states
  cases mode with
  | program =>
    unfold runProgram at h
    unfold program?
    dsimp only at h ⊢
    split at h
    · next hempty =>
      obtain ⟨distances, hresolved, hfailed⟩ := failed_of_execute h
      rw [List.isEmpty_iff.1 hempty]
      rw [hresolved]
      exact Interpreter.failed_of_interpret hfailed
    · exact absurd h not_runtime_of_static
  | expression =>
    unfold runExpressionSource at h
    dsimp only at h
    split at h
    · next e htree hempty =>
      obtain ⟨distances, hresolved, hfailed⟩ := failed_of_execute h
      unfold expression?
      dsimp only
      rw [htree, hempty]
      dsimp only at hresolved ⊢
      rw [hresolved]
      exact failed_of_runExpression hfailed
    · exact absurd h not_runtime_of_static

/-- Every failure at run time that a session reports is the failure of a state it passed through. -/
theorem failed_of_runAll {inputs : List (Mode × String)} {report : Report}
    (hreport : report ∈ (s.runAll fuel inputs).1) (h : .runtime line cause ∈ report.diagnostics) :
    ∃ m ∈ s.history fuel inputs, m.control = .failed (.runtime line cause) := by
  induction inputs generalizing s with
  | nil => cases hreport
  | cons input rest ih =>
    obtain ⟨mode, source⟩ := input
    have hrun : .runtime line cause ∈ (s.run fuel mode source).1.diagnostics →
        ∃ m ∈ s.states fuel mode source, m.control = .failed (.runtime line cause) := failed_of_run
    unfold runAll at hreport
    unfold history
    split at hreport
    · next status diagnostics s' heq =>
      rw [heq] at hrun ⊢
      obtain rfl | hreport := List.mem_cons.1 hreport
      · obtain ⟨m, hm, hfailed⟩ := hrun h
        exact ⟨m, List.mem_append_left _ hm, hfailed⟩
      · obtain ⟨m, hm, hfailed⟩ := ih hreport
        exact ⟨m, List.mem_append_right _ hm, hfailed⟩
    · next report' s' hnot heq =>
      rw [heq] at hrun
      cases List.mem_singleton.1 hreport
      obtain ⟨m, hm, hfailed⟩ := hrun h
      exact ⟨m, List.mem_append_left _ hm, hfailed⟩

end Session
end Lox
