import Lox.Proofs.Splicing.Identities
import Lox.Proofs.Splicing.Lines
import Lox.Proofs.Splicing.Names

/-!
# Two programs in one text

A session to which two programs are given one after the other cannot be told from one to which both are
given in one text, as long as the second one is accepted behind the first; only lines of the second
program are counted from where it stands.
-/
namespace Lox

/-! ## One after the other -/

namespace Interpreter

variable {i : Interpreter} {fuel : Nat} {above : List Stmt}

theorem interpret_append (h : (i.interpret fuel above).1 = .completed) (below : List Stmt) :
    i.interpret fuel (above ++ below) = (i.interpret fuel above).2.interpret fuel below := by
  induction above generalizing i with
  | nil =>
    unfold interpret at h
    rw [List.nil_append, interpret.eq_def fuel i []]
    dsimp only
    split at h
    · cases h
    · rfl
  | cons s rest ih =>
    rw [List.cons_append]
    rw [interpret.eq_def fuel i (s :: _)] at h ⊢
    rw [interpret.eq_def fuel i (s :: _)]
    dsimp only at h ⊢
    split at h
    · exact ih h
    · exact ih h
    · exact ih h
    · unfold abort at h
      dsimp only at h
      split at h <;> cases h
    · cases h
    · cases h

/-- What is known of two texts does not depend on which was resolved first. -/
theorem getElem?_learn_swap {n id : Nat} {d d' : List (Nat × Nat)} (hd : ∀ entry ∈ d, entry.1 < n)
    (hd' : ∀ entry ∈ d', n ≤ entry.1) :
    ((i.learn d').learn d).distances[id]? = ((i.learn d).learn d').distances[id]? := by
  by_cases hid : id < n
  · have hout : ∀ entry ∈ d', entry.1 ≠ id := by
      rintro entry hentry rfl
      exact absurd (hd' entry hentry) (Nat.not_le.2 hid)
    rw [getElem?_learn_of_not_mem hout]
    exact getElem?_learn_congr (getElem?_learn_of_not_mem hout) d
  · have hout : ∀ entry ∈ d, entry.1 ≠ id := by
      rintro entry hentry rfl
      exact hid (hd entry hentry)
    rw [getElem?_learn_of_not_mem hout]
    exact getElem?_learn_congr (getElem?_learn_of_not_mem hout).symm d'

end Interpreter

namespace Session

variable {s : Session} {fuel : Nat}

/-- A session that has come about by runs that have ended. -/
inductive Reached : Session → Prop where
  | new (sink : Sink) (clock : Clock) : Reached (.new sink clock)
  | run {s : Session} {status : Status} (hs : Reached s) (fuel : Nat) (mode : Mode) (source : String)
      (hended : (s.run fuel mode source).1.outcome = .status status) : Reached (s.run fuel mode source).2

theorem Reached.closed (hs : s.Reached) : s.Closed := by
  induction hs with
  | new sink clock => exact closed_new sink clock
  | run _ fuel mode source _ ih => exact ih.run fuel mode source

theorem Reached.idle (hs : s.Reached) : ∃ a b u, Idle (Recorded a b) s u := by
  induction hs with
  | new sink clock => exact ⟨_, _, _, idle_new sink clock⟩
  | run _ fuel mode source hended ih =>
    obtain ⟨a, b, u, hidle⟩ := ih
    exact ⟨_, _, _, (run_alongside hidle fuel mode source).2.idle ⟨_, hended⟩⟩

end Session

/-! ## Reports and where a text stands -/

/-- A report that tells of each error whether it is about a line of a certain text. -/
structure Template where
  outcome : Outcome
  diagnostics : List (Diagnostic × Bool)

namespace Template

/-- The report when that text stands `k` lines further down. -/
def report (k : Nat) (template : Template) : Report where
  outcome := template.outcome
  diagnostics := template.diagnostics.map fun (d, moves) => if moves then d.relabel ⟨(· + k), id⟩ else d

def ofMarked (r : Report) : Template where
  outcome := r.outcome
  diagnostics := r.diagnostics.map fun d =>
    (d.relabel ⟨(· / 2), id⟩, d.line?.any fun line => line % 2 == 1)

theorem report_ofMarked (k : Nat) (r : Report) :
    (ofMarked r).report k = r.relabel (Labels.reveal k) := by
  have hline : ∀ line : Nat, (line % 2 == 1) = true ∧ (Labels.reveal k).line line = line / 2 + k ∨
      (line % 2 == 1) = false ∧ (Labels.reveal k).line line = line / 2 := by
    intro line
    change _ ∧ line / 2 + k * (line % 2) = _ ∨ _ ∧ line / 2 + k * (line % 2) = _
    obtain h | h := Nat.mod_two_eq_zero_or_one line <;> simp [h]
  refine congrArg (Report.mk r.outcome) ?_
  unfold ofMarked
  rw [List.map_map]
  refine List.map_congr_left fun d _ => ?_
  cases d with
  | output cause => rfl
  | lexical line cause | grammar line location cause | resolution line location cause
  | runtime line cause =>
    obtain ⟨hodd, hreveal⟩ | ⟨heven, hreveal⟩ := hline line <;>
      simp [Diagnostic.relabel, Diagnostic.line?, *]

end Template

/-! ## Two texts and one -/

namespace Session

open Labels (unmarked marked reveal)

variable {s : Session} {fuel : Nat} {source above below : String} {tree : List Stmt}
  {distances : List (Nat × Nat)} {n m : Nat}

theorem run_of_parses (hparses : Parses s.nextId source tree m)
    (hresolved : resolveProgram s.interpreter.globalNames tree = .ok distances) (fuel : Nat) :
    s.run fuel .program source =
      (.ofEnding ((s.interpreter.learn distances).interpret fuel tree).1,
        ⟨((s.interpreter.learn distances).interpret fuel tree).2, m⟩) := by
  rw [run_eq, analyze_of_parses hparses hresolved]
  rfl

theorem resolveProgram_pushed {globals : List String} (k : Nat)
    (h : resolveProgram globals tree = .ok distances) :
    resolveProgram globals (tree.map (·.relabel ⟨(· + k), id⟩)) = .ok distances := by
  rw [resolveProgram_relabel, h]
  exact congrArg Except.ok (List.map_id' distances)

theorem map_reveal_marked (k : Nat) (tree : List Stmt) :
    (tree.map (Stmt.relabel marked)).map (Stmt.relabel (reveal k)) =
      tree.map (·.relabel ⟨(· + k), id⟩) := by
  rw [List.map_map]
  refine List.map_congr_left fun statement _ => ?_
  rw [Function.comp_apply, Stmt.relabel_comp, reveal_marked]

theorem relabel_reveal_unmarked (k : Nat) (i : Interpreter) :
    (i.relabel unmarked i.distances).relabel (reveal k) i.distances = i := by
  unfold Interpreter.relabel
  dsimp only
  rw [Store.relabel_comp, reveal_unmarked, Store.relabel_identity]

/-- The state in which the marked tree is executed. -/
def marking (i : Interpreter) (distances : List (Nat × Nat)) : Interpreter :=
  (i.relabel unmarked i.distances).learn distances

/-- What becomes of the marked tree, whatever else is known of identities and wherever it stands. -/
theorem interpret_marked {i : Interpreter} {D : Distances} (fuel k : Nat) (tree : List Stmt)
    (hD : ∀ x : Nat, D[x]? = (i.learn distances).distances[x]?) :
    (Interpreter.interpret fuel { i with distances := D } (tree.map (·.relabel ⟨(· + k), id⟩))).1 =
        ((marking i distances).interpret fuel (tree.map (Stmt.relabel marked))).1.relabel (reveal k) ∧
      Interpreter.Relabels (reveal k)
        ((marking i distances).interpret fuel (tree.map (Stmt.relabel marked))).2
        (Interpreter.interpret fuel { i with distances := D } (tree.map (·.relabel ⟨(· + k), id⟩))).2 := by
  have hrelabels : Interpreter.Relabels (reveal k) (marking i distances) { i with distances := D } := by
    refine ⟨D, hD, ?_⟩
    have hback := congrArg Interpreter.store (relabel_reveal_unmarked k i)
    exact congrArg (fun store => { i with store := store, distances := D }) hback.symm
  have hrun := hrelabels.interpret fuel (tree.map (Stmt.relabel marked))
  rw [map_reveal_marked] at hrun
  exact hrun

/-- The second text on its own, `k` lines further down. -/
theorem run_pushed (hparses : Parses s.nextId below tree m)
    (hresolved : resolveProgram s.interpreter.globalNames tree = .ok distances) (fuel k : Nat) :
    let r := (marking s.interpreter distances).interpret fuel (tree.map (Stmt.relabel marked))
    (s.run fuel .program (pushed k below)).1 = (Report.ofEnding r.1).relabel (reveal k) ∧
      Reveals k r.2 m (s.run fuel .program (pushed k below)).2 := by
  have hrun := run_of_parses (hparses.pushed k) (resolveProgram_pushed k hresolved) fuel
  obtain ⟨hending, hrelabels⟩ := interpret_marked (i := s.interpreter) fuel k tree fun _ => rfl
  rw [hrun]
  exact ⟨(congrArg Report.ofEnding hending).trans (Analysis.ofEnding_relabel _ _), hrelabels, rfl⟩

/-- The second text below the first one. -/
theorem run_below {tree' : List Stmt} {distances' : List (Nat × Nat)} (hs : s.Reached)
    (habove : Parses s.nextId above tree m)
    (hresolved : resolveProgram s.interpreter.globalNames tree = .ok distances)
    (hcompleted : ((s.interpreter.learn distances).interpret fuel tree).1 = .completed)
    (hbelow : Parses m below tree' n)
    (hresolved' : resolveProgram
      ((s.interpreter.learn distances).interpret fuel tree).2.globalNames tree' = .ok distances') :
    let r := (marking ((s.interpreter.learn distances).interpret fuel tree).2 distances').interpret fuel
      (tree'.map (Stmt.relabel marked))
    let k := 1 + Item.newlines above.toList
    (s.run fuel .program (above ++ "\n" ++ below)).1 = (Report.ofEnding r.1).relabel (reveal k) ∧
      Reveals k r.2 n (s.run fuel .program (above ++ "\n" ++ below)).2 := by
  intro r k
  have hglobals : ∀ name ∈ ((s.interpreter.learn distances).interpret fuel tree).2.globalNames,
      name ∈ s.interpreter.globalNames ∨ name ∈ tree.flatMap Stmt.declared := by
    obtain ⟨a, b, u, hidle⟩ := hs.idle
    have hnames := Interpreter.globalNames_interpret
      (D := s.interpreter.globalNames ++ tree.flatMap Stmt.declared) tree fuel (hidle.learn distances)
      (fun x hx => List.mem_append_left _ hx) (fun x hx => List.mem_append_right _ hx) hcompleted
    exact fun name hname => List.mem_append.1 (hnames name hname)
  have hrun := run_of_parses (habove.append hbelow)
    (resolveProgram_append hresolved (resolveProgram_pushed k hresolved') hglobals) fuel
  -- While the first text runs, nothing is looked up that is known of the second.
  have hfirst := habove.distances hresolved
  have hsecond := hbelow.distances hresolved'
  have hknown : ∀ x : Nat, (s.interpreter.learn (distances' ++ distances)).distances[x]? =
      ((s.interpreter.learn distances).learn distances').distances[x]? := by
    intro x
    rw [Interpreter.learn_append]
    exact Interpreter.getElem?_learn_swap (fun entry he => (hfirst entry he).2)
      fun entry he => (hsecond entry he).1
  have hclosed : (s.interpreter.learn distances).Closed m :=
    (hs.closed.mono habove.le).learn fun entry he => (hfirst entry he).2
  have hlast : ∀ x : Nat, n ≤ x → (s.interpreter.learn (distances' ++ distances)).distances[x]? = none := by
    intro x hx
    rw [hknown]
    exact ((hclosed.mono hbelow.le).learn fun entry he => (hsecond entry he).2).distances x hx
  have hearlier : ∀ x : Nat, x < m → (s.interpreter.learn (distances' ++ distances)).distances[x]? =
      (s.interpreter.learn distances).distances[x]? := by
    intro x hx
    rw [hknown]
    refine Interpreter.getElem?_learn_of_not_mem fun entry he => ?_
    exact Nat.ne_of_gt (Nat.lt_of_lt_of_le hx (hsecond entry he).1)
  have hlater : (s.interpreter.learn (distances' ++ distances)).interpret fuel tree =
      (((s.interpreter.learn distances).interpret fuel tree).1,
        { ((s.interpreter.learn distances).interpret fuel tree).2 with
          distances := (s.interpreter.learn (distances' ++ distances)).distances }) :=
    hclosed.interpret_later (fun φ hφ => habove.relabel hφ.line hφ.fixes) hearlier hlast fuel
  have happend := Interpreter.interpret_append (i := s.interpreter.learn (distances' ++ distances))
    ((congrArg Prod.fst hlater).trans hcompleted) (tree'.map (·.relabel ⟨(· + k), id⟩))
  obtain ⟨hending, hrelabels⟩ := interpret_marked fuel k tree' fun x => (hknown x).trans
    (Interpreter.getElem?_learn_congr
      (congrArg (·[x]?) (Interpreter.distances_interpret _ fuel tree).symm) distances')
  rw [hrun]
  dsimp only
  rw [happend, hlater]
  exact ⟨(congrArg Report.ofEnding hending).trans (Analysis.ofEnding_relabel _ _), hrelabels, rfl⟩

/-- A text that is executed is accepted. -/
theorem accepted_of_run (h : (s.run fuel .program source).1.outcome ≠ .status .staticError) :
    ∃ tree distances m, Parses s.nextId source tree m ∧
      resolveProgram s.interpreter.globalNames tree = .ok distances := by
  obtain ⟨diagnostics, hrejected⟩ | ⟨tree, distances, hparses, hresolved, -⟩ :=
    analyze_program_cases s source
  · rw [run_eq, hrejected] at h
    exact absurd rfl h
  · exact ⟨tree, distances, _, hparses, hresolved⟩

theorem completed_of_ok {ending : Ending} (h : (Report.ofEnding ending).outcome = .status .ok) :
    ending = .completed := by
  cases ending with
  | completed => rfl
  | _ => cases h

theorem pushed_zero (source : String) : pushed 0 source = source := String.empty_append

/-- A program runs in the same way whether it is given on its own or in one text with the program before
it: with the same output and outcome, the same errors, and the same in all that is run later. Only what
is about its own lines is about lines further down, by that of its first line in the text. Which lines
are its own is told by runs of it with empty lines in front. -/
theorem runAll_spliced (hs : s.Reached) (fuel : Nat)
    (habove : (s.run fuel .program above).1.outcome = .status .ok)
    (hbelow : ((s.run fuel .program above).2.run fuel .program below).1.outcome ≠ .status .staticError)
    (later : List (Mode × String)) :
    let split := (s.run fuel .program above).2.runAll fuel ((.program, below) :: later)
    let joined := s.runAll fuel ((.program, above ++ "\n" ++ below) :: later)
    joined.2.interpreter.sink = split.2.interpreter.sink ∧
      joined.2.interpreter.clock = split.2.interpreter.clock ∧
      ∃ templates : List Template, split.1 = templates.map (Template.report 0) ∧
        joined.1 = templates.map (Template.report (1 + Item.newlines above.toList)) ∧
        ∀ k, ((s.run fuel .program above).2.runAll fuel ((.program, pushed k below) :: later)).1 =
          templates.map (Template.report k) := by
  intro split joined
  have hnotStatic : (s.run fuel .program above).1.outcome ≠ .status .staticError := by
    rw [habove]
    decide
  obtain ⟨tree, distances, m, hparses, hresolved⟩ := accepted_of_run hnotStatic
  have hrun := run_of_parses hparses hresolved fuel
  rw [hrun] at habove hbelow
  have hcompleted := completed_of_ok habove
  obtain ⟨tree', distances', n, hparses', hresolved'⟩ := accepted_of_run hbelow
  have hpushed := run_pushed hparses' hresolved' fuel
  have hjoined := run_below hs hparses hresolved hcompleted hparses' hresolved'
  obtain ⟨reports, sink, clock, hgives⟩ := runAll_cons_reveals (runAll_reveals fuel later) _ _ n
  have hsplit := fun k => hgives k _ .program (pushed k below) (hpushed k).1 (hpushed k).2
  have hboth := hgives _ _ .program (above ++ "\n" ++ below) hjoined.1 hjoined.2
  have hreports : ∀ k, (reports.map Template.ofMarked).map (Template.report k) =
      reports.map (Report.relabel (reveal k)) := by
    intro k
    rw [List.map_map]
    exact List.map_congr_left fun r _ => Template.report_ofMarked k r
  rw [← hrun] at hsplit
  have hzero := hsplit 0
  rw [pushed_zero] at hzero
  refine ⟨hboth.sink.trans hzero.sink.symm, hboth.clock.trans hzero.clock.symm,
    reports.map Template.ofMarked, ?_, ?_, fun k => ?_⟩
  · rw [hreports]
    exact hzero.reports
  · rw [hreports]
    exact hboth.reports
  · rw [hreports]
    exact (hsplit k).reports

/-- What is called in the second text is declared in the first one, and cannot be called. -/
theorem runAll_spliced_failure :
    let s := Session.new {} ⟨fun _ => 0, 0, 0⟩
    let split := (s.run 9 .program "var x;").2
    (s.run 9 .program "var x;").1.outcome = .status .ok ∧
      (split.run 9 .program "x();").1 = ⟨.status .runtimeError, [.runtime 1 .notCallable]⟩ ∧
      ∃ templates : List Template,
        (split.runAll 9 [(.program, "x();"), (.expression, "x")]).1 = templates.map (Template.report 0) ∧
        (s.runAll 9 [(.program, "var x;" ++ "\n" ++ "x();"), (.expression, "x")]).1 =
          templates.map (Template.report (1 + Item.newlines "var x;".toList)) := by
  intro s split
  have habove : (s.run 9 .program "var x;").1.outcome = .status .ok := by decide +kernel
  have hbelow : (split.run 9 .program "x();").1 = ⟨.status .runtimeError, [.runtime 1 .notCallable]⟩ := by
    decide +kernel
  have hexecuted : (split.run 9 .program "x();").1.outcome ≠ .status .staticError := by
    rw [hbelow]
    decide
  obtain ⟨-, -, templates, hsplit, hjoined, -⟩ :=
    runAll_spliced (.new _ _) 9 habove hexecuted [(.expression, "x")]
  exact ⟨habove, hbelow, templates, hsplit, hjoined⟩

end Session
end Lox
