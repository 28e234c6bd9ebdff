import Lox.Proofs.Reclamation.History
import Lox.Proofs.Relabeling.Sessions
import Lox.Proofs.Resolution.Relabeling
import Lox.Proofs.Splicing.Trees
import Lox.Proofs.Syntax.Identities

/-!
# Analysis before execution

Of a session, scanning, parsing and resolving need only the names of its globals and the next identity.
A run analyzes its source and then carries out what has been accepted.
-/
namespace Lox

/-- What has become of a source before anything of it is executed. -/
inductive Analysis where
  | rejected (diagnostics : List Diagnostic)
  | program (tree : List Stmt) (distances : List (Nat × Nat))
  | expression (e : Expr) (distances : List (Nat × Nat))

namespace Analysis

/-- A tree and its distances, if resolution has accepted it. -/
def ofResolution (accepted : List (Nat × Nat) → Analysis) :
    Except (List ResolutionFault) (List (Nat × Nat)) → Analysis
  | .error faults => rejected (faults.map ResolutionFault.diagnostic)
  | .ok distances => accepted distances

/-- Analyzes a source, and gives the next identity with it. -/
def ofSource (globals : List String) (n : Nat) (mode : Mode) (source : String) : Analysis × Nat :=
  let (tokens, lexical) := tokenize source
  match mode with
  | .program =>
    let parsed := parseProgram n tokens
    (match lexical ++ parsed.faults.map SyntaxFault.diagnostic with
      | [] => ofResolution (program parsed.tree) (resolveProgram globals parsed.tree)
      | errors => rejected errors, parsed.nextId)
  | .expression =>
    let parsed := parseExpression n tokens
    (match parsed.tree, lexical ++ parsed.faults.map SyntaxFault.diagnostic with
      | some e, [] => ofResolution (expression e) (resolveExpression globals e)
      | _, errors => rejected errors, parsed.nextId)

/-- Executes what has been accepted, with at most `fuel` steps for each top-level statement. -/
def carryOut (fuel : Nat) (i : Interpreter) : Analysis → Report × Interpreter
  | rejected diagnostics => (.static diagnostics, i)
  | program tree distances =>
    let (ending, i) := (i.learn distances).interpret fuel tree
    (.ofEnding ending, i)
  | expression e distances =>
    let (ending, i) := Session.runExpression fuel (i.learn distances) e
    (.ofEnding ending, i)

end Analysis

namespace Session

/-- What the session makes of a source. -/
def analyze (s : Session) (mode : Mode) (source : String) : Analysis × Nat :=
  Analysis.ofSource s.interpreter.globalNames s.nextId mode source

theorem execute_eq (s : Session) (resolved : Except (List ResolutionFault) (List (Nat × Nat)))
    {fuel : Nat} {accepted : List (Nat × Nat) → Analysis} (body : Interpreter → Ending × Interpreter)
    (h : ∀ distances, Analysis.carryOut fuel s.interpreter (accepted distances) =
      (.ofEnding (body (s.interpreter.learn distances)).1, (body (s.interpreter.learn distances)).2)) :
    s.execute resolved body =
      ((Analysis.carryOut fuel s.interpreter (.ofResolution accepted resolved)).1,
        ⟨(Analysis.carryOut fuel s.interpreter (.ofResolution accepted resolved)).2, s.nextId⟩) := by
  cases resolved with
  | error faults => rfl
  | ok distances =>
    unfold Analysis.ofResolution
    dsimp only
    rw [h]
    rfl

/-- A run is the analysis of its source, carried out. -/
theorem run_eq (fuel : Nat) (s : Session) (mode : Mode) (source : String) :
    s.run fuel mode source =
      (((s.analyze mode source).1.carryOut fuel s.interpreter).1,
        ⟨((s.analyze mode source).1.carryOut fuel s.interpreter).2, (s.analyze mode source).2⟩) := by
  cases mode with
  | program =>
    unfold run runProgram analyze Analysis.ofSource
    dsimp only
    cases (tokenize source).2 ++ (parseProgram s.nextId (tokenize source).1).faults.map
        SyntaxFault.diagnostic with
    | cons e errors => rfl
    | nil => exact execute_eq { s with nextId := _ } _ (·.interpret fuel _) fun _ => rfl
  | expression =>
    unfold run runExpressionSource analyze Analysis.ofSource
    dsimp only
    cases (parseExpression s.nextId (tokenize source).1).tree with
    | none => rfl
    | some e =>
      cases (tokenize source).2 ++ (parseExpression s.nextId (tokenize source).1).faults.map
          SyntaxFault.diagnostic with
      | cons e errors => rfl
      | nil => exact execute_eq { s with nextId := _ } _ (runExpression fuel · e) fun _ => rfl

/-- The states of a run are those of what is carried out. -/
theorem states_eq (fuel : Nat) (s : Session) (mode : Mode) (source : String) :
    s.states fuel mode source =
      match (s.analyze mode source).1 with
      | .rejected _ => []
      | .program tree d => (s.interpreter.learn d).history fuel tree
      | .expression e d => Machine.history fuel ⟨.eval e, [], s.interpreter.learn d⟩ := by
  unfold states analyze Analysis.ofSource
  cases mode with
  | program =>
    unfold program?
    dsimp only
    cases (tokenize source).2 ++ (parseProgram s.nextId (tokenize source).1).faults.map
        SyntaxFault.diagnostic with
    | cons e errors => rfl
    | nil =>
      cases resolveProgram s.interpreter.globalNames (parseProgram s.nextId (tokenize source).1).tree <;> rfl
  | expression =>
    unfold expression?
    dsimp only
    cases (parseExpression s.nextId (tokenize source).1).tree with
    | none => rfl
    | some e =>
      cases (tokenize source).2 ++ (parseExpression s.nextId (tokenize source).1).faults.map
          SyntaxFault.diagnostic with
      | cons e errors => rfl
      | nil =>
        dsimp only
        cases resolveExpression s.interpreter.globalNames e <;> rfl

/-- Programs are executed only if nothing is wrong with them. -/
theorem analyze_program_cases (s : Session) (source : String) :
    (∃ diagnostics, (s.analyze .program source).1 = .rejected diagnostics) ∨
      ∃ tree distances, Parses s.nextId source tree (s.analyze .program source).2 ∧
        resolveProgram s.interpreter.globalNames tree = .ok distances ∧
        (s.analyze .program source).1 = .program tree distances := by
  unfold analyze Analysis.ofSource Parses
  dsimp only
  generalize parseProgram s.nextId (tokenize source).1 = parsed
  obtain ⟨tree, faults, m⟩ := parsed
  cases herrors : (tokenize source).2 ++ faults.map SyntaxFault.diagnostic with
  | cons e errors => exact .inl ⟨_, rfl⟩
  | nil =>
    obtain ⟨hlexical, hfaults⟩ := List.append_eq_nil_iff.1 herrors
    cases List.map_eq_nil_iff.1 hfaults
    cases hresolved : resolveProgram s.interpreter.globalNames tree with
    | error faults => exact .inl ⟨_, rfl⟩
    | ok distances => exact .inr ⟨tree, distances, ⟨hlexical, rfl⟩, hresolved, rfl⟩

theorem analyze_expression_cases (s : Session) (source : String) :
    (∃ diagnostics, (s.analyze .expression source).1 = .rejected diagnostics) ∨
      ∃ e distances, (tokenize source).2 = [] ∧ parseExpression s.nextId (tokenize source).1 =
          ⟨some e, [], (s.analyze .expression source).2⟩ ∧
        resolveExpression s.interpreter.globalNames e = .ok distances ∧
        (s.analyze .expression source).1 = .expression e distances := by
  unfold analyze Analysis.ofSource
  dsimp only
  generalize parseExpression s.nextId (tokenize source).1 = parsed
  obtain ⟨tree, faults, m⟩ := parsed
  cases tree with
  | none => exact .inl ⟨_, rfl⟩
  | some e =>
    cases herrors : (tokenize source).2 ++ faults.map SyntaxFault.diagnostic with
    | cons e errors => exact .inl ⟨_, rfl⟩
    | nil =>
      obtain ⟨hlexical, hfaults⟩ := List.append_eq_nil_iff.1 herrors
      cases List.map_eq_nil_iff.1 hfaults
      cases hresolved : resolveExpression s.interpreter.globalNames e with
      | error faults =>
        dsimp only
        rw [hresolved]
        exact .inl ⟨_, rfl⟩
      | ok distances =>
        dsimp only
        rw [hresolved]
        exact .inr ⟨e, distances, hlexical, rfl, hresolved, rfl⟩

theorem analyze_of_parses {s : Session} {source : String} {tree : List Stmt} {m : Nat}
    {distances : List (Nat × Nat)} (hparses : Parses s.nextId source tree m)
    (hresolved : resolveProgram s.interpreter.globalNames tree = .ok distances) :
    s.analyze .program source = (.program tree distances, m) := by
  obtain ⟨hlexical, hparsed⟩ := hparses
  unfold analyze Analysis.ofSource
  dsimp only
  rw [hparsed, hlexical]
  dsimp only [List.map_nil, List.append_nil]
  rw [hresolved]
  rfl

theorem nextId_le_analyze (s : Session) (mode : Mode) (source : String) :
    s.nextId ≤ (s.analyze mode source).2 := by
  cases mode with
  | program => exact (distinct_parseProgram s.nextId _).1
  | expression => exact (distinct_parseExpression s.nextId _).1

end Session
end Lox
