import Lox.Proofs.Reclamation.History
import Lox.Proofs.Splicing.Analysis

/-!
# Lines that move

To follow the lines of one text through all runs after it they are marked: the line `l` is written as
`2 * l + 1` if it stems from that text and as `2 * l` if not. What is reported about marked lines does
not depend on where the text stands, and marks can be taken off again.
-/
namespace Lox

namespace Labels

def unmarked : Labels := ⟨fun line => 2 * line, fun n => n⟩

def marked : Labels := ⟨fun line => 2 * line + 1, fun n => n⟩

/-- Takes the marks off, with the marked text `k` lines further down. -/
def reveal (k : Nat) : Labels := ⟨fun line => line / 2 + k * (line % 2), fun n => n⟩

end Labels

open Labels (unmarked marked reveal)

theorem line_reveal_unmarked (k line : Nat) : (reveal k).line (unmarked.line line) = line := by
  change 2 * line / 2 + k * (2 * line % 2) = line
  rw [Nat.mul_div_cancel_left line Nat.two_pos, Nat.mul_mod_right, Nat.mul_zero, Nat.add_zero]

theorem reveal_unmarked (k : Nat) : (reveal k).comp unmarked = .identity :=
  congrArg (Labels.mk · id) (funext (line_reveal_unmarked k))

theorem reveal_marked (k : Nat) : (reveal k).comp marked = ⟨(· + k), id⟩ := by
  refine congrArg (Labels.mk · id) (funext fun line => ?_)
  have hhalf : (2 * line + 1) / 2 = line := by omega
  have hrest : (2 * line + 1) % 2 = 1 := by omega
  change (2 * line + 1) / 2 + k * ((2 * line + 1) % 2) = line + k
  rw [hhalf, hrest, Nat.mul_one]

/-! ## Carrying out what is marked -/

namespace Analysis

def relabel (φ : Labels) : Analysis → Analysis
  | rejected diagnostics => rejected (diagnostics.map (Diagnostic.relabel φ))
  | program tree distances => program (tree.map (Stmt.relabel φ)) distances
  | expression e distances => expression (e.relabel φ) distances

theorem reveal_unmarked (k : Nat) (a : Analysis) : (a.relabel unmarked).relabel (reveal k) = a := by
  cases a with
  | rejected diagnostics =>
    refine congrArg rejected ?_
    rw [List.map_map]
    refine (List.map_congr_left fun d _ => ?_).trans (List.map_id diagnostics)
    cases d <;> simp [Diagnostic.relabel, line_reveal_unmarked]
  | program tree distances =>
    refine congrArg (program · distances) ?_
    rw [List.map_map]
    refine (List.map_congr_left fun s _ => ?_).trans (List.map_id tree)
    exact (Stmt.relabel_comp _ _ s).trans (Lox.reveal_unmarked k ▸ Stmt.relabel_identity s)
  | expression e distances =>
    refine congrArg (expression · distances) ?_
    exact (Expr.relabel_comp _ _ e).trans (Lox.reveal_unmarked k ▸ Expr.relabel_identity e)

theorem ofEnding_relabel (φ : Labels) (ending : Ending) :
    Report.ofEnding (ending.relabel φ) = (Report.ofEnding ending).relabel φ := by
  rcases ending with _ | (⟨line, cause⟩ | cause) | _ | _ <;> rfl

/-- What is carried out of a relabeled source in a relabeled interpreter. -/
theorem carryOut_relabel {φ : Labels} {t i : Interpreter} (h : t.Relabels φ i) (hid : φ.id = id)
    (fuel : Nat) (a : Analysis) :
    ((a.relabel φ).carryOut fuel i).1 = (a.carryOut fuel t).1.relabel φ ∧
      Interpreter.Relabels φ (a.carryOut fuel t).2 ((a.relabel φ).carryOut fuel i).2 := by
  cases a with
  | rejected diagnostics => exact ⟨rfl, h⟩
  | program tree distances =>
    obtain ⟨hending, hrun⟩ := (h.learn hid distances).interpret fuel tree
    exact ⟨(congrArg Report.ofEnding hending).trans (ofEnding_relabel φ _), hrun⟩
  | expression e distances =>
    obtain ⟨hending, hrun⟩ := (h.learn hid distances).runExpression fuel e
    exact ⟨(congrArg Report.ofEnding hending).trans (ofEnding_relabel φ _), hrun⟩

end Analysis

namespace Session

/-- The session is in the state `t` once the marks in it are taken off. -/
structure Reveals (k : Nat) (t : Interpreter) (n : Nat) (s : Session) : Prop where
  interpreter : t.Relabels (reveal k) s.interpreter
  nextId : s.nextId = n

/-- What runs have given is told by reports in which lines are marked. -/
structure Gives (k : Nat) (reports : List Report) (sink : Sink) (clock : Clock)
    (r : List Report × Session) : Prop where
  reports : r.1 = reports.map (Report.relabel (reveal k))
  sink : r.2.interpreter.sink = sink
  clock : r.2.interpreter.clock = clock

variable {fuel : Nat} {later : List (Mode × String)}

/-- If a run gives the same but for where the marked text stands, so do all runs from there on. -/
theorem runAll_cons_reveals (hlater : ∀ t n, ∃ (reports : List Report) (sink : Sink) (clock : Clock),
      ∀ k s, Reveals k t n s → Gives k reports sink clock (s.runAll fuel later))
    (report : Report) (t : Interpreter) (n : Nat) :
    ∃ (reports : List Report) (sink : Sink) (clock : Clock), ∀ k s mode source,
      (Session.run fuel s mode source).1 = report.relabel (reveal k) →
      Reveals k t n (s.run fuel mode source).2 →
      Gives k reports sink clock (s.runAll fuel ((mode, source) :: later)) := by
  obtain ⟨outcome, diagnostics⟩ := report
  have hstop : (∀ status, outcome ≠ .status status) →
      ∃ (reports : List Report) (sink : Sink) (clock : Clock), ∀ k s mode source,
        (Session.run fuel s mode source).1 = Report.relabel (reveal k) ⟨outcome, diagnostics⟩ →
        Reveals k t n (s.run fuel mode source).2 →
        Gives k reports sink clock (s.runAll fuel ((mode, source) :: later)) := by
    intro hno
    refine ⟨[⟨outcome, diagnostics⟩], t.sink, t.clock, fun k s mode source hreport hnext => ?_⟩
    have hlast : s.runAll fuel ((mode, source) :: later) =
        ([(s.run fuel mode source).1], (s.run fuel mode source).2) := by
      unfold runAll
      generalize s.run fuel mode source = r at hreport
      obtain ⟨⟨outcome', diagnostics'⟩, s'⟩ := r
      cases outcome' with
      | status status => exact absurd (congrArg Report.outcome hreport).symm (hno status)
      | _ => rfl
    rw [hlast]
    exact ⟨congrArg (fun report => [report]) hreport, hnext.interpreter.sink, hnext.interpreter.clock⟩
  cases outcome with
  | crashed | exhausted => exact hstop fun status => by simp
  | status status =>
    obtain ⟨reports, sink, clock, hrest⟩ := hlater t n
    refine ⟨⟨.status status, diagnostics⟩ :: reports, sink, clock, fun k s mode source hreport hnext => ?_⟩
    unfold runAll
    generalize s.run fuel mode source = r at hreport hnext
    obtain ⟨⟨outcome', diagnostics'⟩, s'⟩ := r
    obtain ⟨hreports, hsink, hclock⟩ := hrest k s' hnext
    cases (congrArg Report.outcome hreport : outcome' = .status status)
    dsimp only
    rw [hreports]
    exact ⟨congrArg (· :: _) hreport, hsink, hclock⟩

/-- Whatever is run then, the marked text may stand anywhere. -/
theorem runAll_reveals (fuel : Nat) (later : List (Mode × String)) (t : Interpreter) (n : Nat) :
    ∃ (reports : List Report) (sink : Sink) (clock : Clock), ∀ k s, Reveals k t n s →
      Gives k reports sink clock (s.runAll fuel later) := by
  induction later generalizing t n with
  | nil =>
    refine ⟨[], t.sink, t.clock, fun k s h => ⟨rfl, ?_, ?_⟩⟩
    · exact h.interpreter.sink
    · exact h.interpreter.clock
  | cons input rest ih =>
    obtain ⟨mode, source⟩ := input
    -- The source is the same whatever the marked text is moved by, and none of it is marked.
    let a := Analysis.ofSource t.globalNames n mode source
    let r := (a.1.relabel unmarked).carryOut fuel t
    obtain ⟨reports, sink, clock, hrest⟩ := runAll_cons_reveals ih r.1 r.2 a.2
    refine ⟨reports, sink, clock, fun k s h => ?_⟩
    have hanalyze : s.analyze mode source = a := by
      unfold analyze
      rw [h.interpreter.globalNames, h.nextId]
    have hcarry := Analysis.carryOut_relabel h.interpreter rfl fuel (a.1.relabel unmarked)
    rw [Analysis.reveal_unmarked] at hcarry
    have hrun := run_eq fuel s mode source
    rw [hanalyze] at hrun
    refine hrest k s mode source ?_ ?_
    · rw [hrun]
      exact hcarry.1
    · rw [hrun]
      exact ⟨hcarry.2, rfl⟩

end Session
end Lox
