import Lox.Proofs.Output.Runs
import Lox.Proofs.Printing.Stacks
import Lox.Proofs.Splicing.Sessions

/-!
# Printing an expression

An expression on its own is shown as a program would print it that has nothing else to do. Frames are
looked after at other times: on its own an expression has its value shown when that has been done, and a
program prints it before. So both are compared to the expression in a session that frees no frame.
-/
namespace Lox

/-! ## The text of the program -/

/-- The program that prints an expression. A comment at the end of the expression ends with its line. -/
def printing (source : String) : String := "print " ++ source ++ "\n" ++ ";"

variable {source : String}

theorem pieces_print (text : List Char) :
    pieces ("print ".toList ++ text) =
      ⟨.token .kwPrint, "print".toList⟩ :: ⟨.blank, [' ']⟩ :: pieces text := by
  have hword : Piece.next 'p' ('r' :: 'i' :: 'n' :: 't' :: ' ' :: text) =
      (⟨.token .kwPrint, "print".toList⟩, ' ' :: text) := rfl
  change pieces ('p' :: 'r' :: 'i' :: 'n' :: 't' :: ' ' :: text) = _
  rw [pieces, hword, pieces]
  rfl

theorem words_print (source : String) :
    words ("print " ++ source) = ⟨.kwPrint, "print", 1⟩ :: words source := by
  unfold words
  rw [String.toList_append, pieces_print]
  rfl

theorem lexical_print (h : (tokenize source).2 = []) : (tokenize ("print " ++ source)).2 = [] := by
  rw [lexical_iff] at h ⊢
  rw [String.toList_append, pieces_print]
  simpa using h

theorem words_printing (h : (tokenize source).2 = []) :
    ∃ semicolon, semicolon.kind = .semicolon ∧
      words (printing source) = ⟨.kwPrint, "print", 1⟩ :: (words source ++ [semicolon]) := by
  have hsemicolon : words ";" = [⟨.semicolon, ";", 1⟩] := by decide +kernel
  refine ⟨Token.lower (1 + Item.newlines ("print " ++ source).toList) ⟨.semicolon, ";", 1⟩, rfl, ?_⟩
  rw [printing, words_below (lexical_print h), words_pushed, hsemicolon, words_print]
  rfl

/-- Where an expression can be read, a program that prints it can be read as well. -/
theorem parses_printing {n m : Nat} {e : Expr} (hlexical : (tokenize source).2 = [])
    (h : parseExpression n (tokenize source).1 = ⟨some e, [], m⟩) :
    Parses n (printing source) [.print e] m := by
  have hsemicolon : (tokenize ";").2 = [] := by decide +kernel
  obtain ⟨semicolon, hkind, hwords⟩ := words_printing hlexical
  have hmark : (⟨.kwPrint, "print", 1⟩ : Token).kind = .kwPrint := rfl
  have hread := Parser.parseExpression_eq_iff.1 h
  rw [rest_tokenize] at hread
  refine parses_iff.2 ⟨lexical_below (lexical_print hlexical) hsemicolon, ?_⟩
  have htree := Reading.manyCons (.declareNothing (.print hmark hread hkind)) .manyNil
  rwa [List.append_nil, ← hwords] at htree

theorem resolveProgram_print (globals : List String) (e : Expr) :
    resolveProgram globals [.print e] = resolveExpression globals e := rfl

/-! ## Runs -/

theorem Machine.flushFails_step {m : Machine} (h : m.state.sink.flushFails = false) :
    m.step.state.sink.flushFails = false := by
  cases hout : m.output? with
  | none => rwa [sink_step hout]
  | some text =>
    obtain ⟨control, stack, i, failure, -, hstep⟩ := step_of_output? hout
    have hwrite := Sink.flushFails_write m.state.sink text
    have hsame : m.step = _ := hstep m.state.sink h
    rcases hsink : m.state.sink.write text with ⟨_ | cause, sink⟩ <;> rw [hsink] at hsame hwrite <;>
      rw [hsame] <;> exact hwrite.trans h

theorem Machine.flushFails_run {m : Machine} (fuel : Nat) (h : m.state.sink.flushFails = false) :
    (m.run fuel).state.sink.flushFails = false :=
  forall_history (Q := fun n => n.state.sink.flushFails = false) h (fun _ _ => flushFails_step) _
    (run_mem_history fuel m)

namespace Interpreter

open Machine (onto concluded proceed created Fits)

variable {P : Handle → Handle → Prop} {ρ : Renaming} {i j : Interpreter} {v : Value}

/-- The value of an expression is printed at once, or shown after frames have been looked after. -/
theorem Twin.print (ht : i.Twin P ρ j [] [v] []) (hflush : i.sink.flushFails = false) (fuel : Nat) :
    Ended P (proceed fuel (Machine.step ⟨.yield v, [.print], i⟩) [])
      (concluded ⟨.yield (v.rename ρ), [], j⟩) := by
  have hactive : ({ j with active := .globals } : Interpreter) = j := by
    have himage : j.active = .globals := by
      rw [ht.image, ht.active]
      exact ht.image_globals
    rw [← himage]
  obtain ⟨hresult, hwrite⟩ := ht.showing.settle_right.writeLine
  have hkept : (i.writeLine v).2.sink.flushFails = false := (Sink.flushFails_write _ _).trans hflush
  change Ended P (proceed fuel (Machine.yieldStep v .print [] i) [])
    (Session.printResult ({ j with active := .globals } : Interpreter).settle (v.rename ρ))
  rw [hactive]
  unfold Machine.yieldStep Session.printResult
  rcases hi : i.writeLine v with ⟨cause, i'⟩
  rcases hj : j.settle.writeLine (v.rename ρ) with ⟨cause', j'⟩
  rw [hi, hj] at hresult hwrite
  rw [hi] at hkept
  dsimp only at hresult hwrite hkept ⊢
  subst hresult
  have hdiscard := hwrite.discard
  cases cause' with
  | none =>
    have hsettled : (i'.discard v).settle.sink.flushFails = false := by
      rw [sink_settle]
      exact hkept
    have hflush' : j'.sink.flush = none := Sink.flush_eq_none (by rwa [hwrite.twin.sink])
    change Ended P ((i'.discard v).settle.interpret fuel []) _
    dsimp only
    rw [interpret_nil hsettled, hflush']
    exact .of_idle hdiscard.showNothing.settle_left.twin
  | some cause =>
    have hglobals : ({ i'.discard v with active := .globals } : Interpreter) = i'.discard v := by
      rw [show Handle.globals = (i'.discard v).active from hdiscard.active.symm]
    change Ended P ((i'.discard v).abort (.output cause)) _
    rw [abort_eq (i := i'.discard v) hkept, hglobals]
    exact .of_idle hdiscard.showNothing.drain_left.twin

/-- A failure goes through a statement that prints. -/
theorem Twin.printFailure (ht : i.Twin P ρ j [] [] []) (hflush : i.sink.flushFails = false) (fuel : Nat)
    (failure : Failure) :
    Ended P (proceed fuel (Machine.step ⟨.failed failure, [.print], i⟩) [])
      (concluded ⟨.failed failure, [], j⟩) := by
  have hglobals : Interpreter.Twin P ρ { i with active := .globals } { j with active := .globals }
      [] [] [] := ⟨ht.store, rfl, ht.image_globals.symm, ht.distances, ht.sink, ht.clock⟩
  change Ended P (i.abort failure) (.failed failure, ({ j with active := .globals } : Interpreter).settle)
  rw [abort_eq hflush]
  exact .of_idle hglobals.showNothing.drain_left.settle_right.twin

/-- What an expression comes to is a value, unless it fails. -/
theorem Idle.gives_value {a b : Record} {fuel : Nat} {e : Expr} (hidle : Idle (Recorded a b) i j)
    (hfinal : (Machine.run fuel ⟨.eval e, [], i⟩).isFinal = true) :
    (Machine.run fuel ⟨.eval e, [], i⟩).control.givesValue? ≠ some false := by
  intro hgives
  obtain ⟨ρ, ht⟩ := hidle
  obtain ⟨k, -, hrun⟩ := Machine.run_onto_add [.print] hfinal
  have hstart : Machine.Twin (Recorded a b) ρ (onto ⟨.eval e, [], i⟩ [.print]) ⟨.eval e, [.print], j⟩ :=
    ⟨rfl, rfl, ⟨ht, trivial⟩, fun c hc => by cases hc; exact ⟨rfl, trivial⟩⟩
  obtain ⟨-, ρ', hlast⟩ := hstart.run k
  have hfits := hlast.fits
  rw [← Nat.add_zero k, hrun 0] at hfits
  generalize Machine.run fuel ⟨.eval e, [], i⟩ = m at hfinal hgives hfits
  obtain ⟨control, stack, i'⟩ := m
  have hfits := hfits false hgives
  cases control with
  | done | returning w =>
    cases List.isEmpty_iff.1 hfinal
    cases hfits.1
  | exec s => cases hfinal
  | _ => cases hgives

theorem printResult_ne_exhausted (i : Interpreter) (v : Value) :
    (Session.printResult i v).1 ≠ .exhausted := by
  intro h
  unfold Session.printResult at h
  split at h
  · cases h
  · split at h <;> cases h

/-- The first machine prints what the second one shows. -/
theorem ended_print {m n : Machine} (ht : Machine.Twin P ρ m n) (hfinal : m.isFinal = true)
    (hgives : m.control.givesValue? ≠ some false) (hflush : m.state.sink.flushFails = false)
    (fuel k : Nat) :
    n.concluded.1 ≠ .exhausted ∧ Ended P (proceed fuel ((m.onto [.print]).run (k + 1)) []) n.concluded := by
  obtain ⟨control, stack, i⟩ := m
  obtain ⟨control', stack', j⟩ := n
  obtain ⟨hcontrol, hstack, hs, -⟩ := ht
  dsimp only at hcontrol hstack hs hflush
  subst hcontrol hstack
  have hempty : control ≠ .crashed → stack = [] := by
    intro hcrashed
    cases control <;> first | exact absurd rfl hcrashed | exact List.isEmpty_iff.1 hfinal | cases hfinal
  have hstep : ∀ c : Machine, c.isFinal = false → c.step.isFinal = true → c.run (k + 1) = c.step :=
    fun c hc hc' => by rw [Machine.run_succ hc, Machine.run_of_isFinal hc']
  cases control with
  | eval e | exec s => cases hfinal
  | done | returning w => exact absurd rfl hgives
  | crashed =>
    rw [Machine.run_of_isFinal rfl]
    refine ⟨nofun, rfl, hs.twin.sink, hs.twin.clock, ?_⟩
    rintro (h | ⟨failure, h⟩) <;> cases h
  | yield v =>
    cases hempty nofun
    have hlast : (Machine.step ⟨.yield v, [.print], i⟩).isFinal = true := by
      change (Machine.yieldStep v .print [] i).isFinal = true
      unfold Machine.yieldStep
      dsimp only
      split <;> rfl
    refine ⟨printResult_ne_exhausted _ _, ?_⟩
    rw [hstep (onto ⟨.yield v, [], i⟩ [.print]) rfl hlast]
    exact hs.twin.print hflush fuel
  | failed failure =>
    cases hempty nofun
    refine ⟨nofun, ?_⟩
    rw [hstep (onto ⟨.failed failure, [], i⟩ [.print]) rfl rfl]
    exact hs.twin.printFailure hflush fuel failure

/-- Two more steps are taken to print an expression than to evaluate it. While it is being evaluated, the
program is one step behind. -/
theorem interpret_print {a b : Record} (hidle : Idle (Recorded a b) i j) (hflush : i.sink.flushFails = false)
    (fuel : Nat) (e : Expr) :
    let P := Recorded (a ++ (Machine.history fuel ⟨.eval e, [], i⟩).flatMap created)
      (b ++ (Machine.history fuel ⟨.eval e, [], j⟩).flatMap created)
    let shown := Session.runExpression fuel j e
    (shown.1 = .exhausted → Ended P (i.interpret (fuel + 1) [.print e]) shown) ∧
      (shown.1 ≠ .exhausted → ∀ n, fuel + 2 ≤ n → Ended P (i.interpret n [.print e]) shown) := by
  intro P shown
  obtain ⟨ρ, ht⟩ := id hidle
  obtain ⟨-, ρ', hrun⟩ := (ht.start (c := .eval e) rfl rfl).run fuel
  have hflush' := Machine.flushFails_run (m := ⟨.eval e, [], i⟩) fuel hflush
  have hshown : shown = (Machine.run fuel ⟨.eval e, [], j⟩).concluded := runExpression_eq fuel j e
  have hprogram : ∀ n, i.interpret (n + 1) [.print e] =
      proceed (n + 1) ((onto ⟨.eval e, [], i⟩ [.print]).run n) [] := by
    intro n
    rw [interpret_cons, Machine.run_succ rfl]
    rfl
  cases hfinal : (Machine.run fuel ⟨.eval e, [], i⟩).isFinal with
  | true =>
    have hgives := hidle.gives_value hfinal
    obtain ⟨k, hk, hrest⟩ := Machine.run_onto_add [.print] hfinal
    obtain ⟨hover, -⟩ := ended_print hrun hfinal hgives hflush' 0 0
    rw [hshown]
    refine ⟨fun h => absurd h hover, fun _ n hn => ?_⟩
    obtain ⟨l, rfl⟩ : ∃ l, n = k + (l + 1) + 1 := ⟨n - k - 2, by omega⟩
    rw [hprogram, hrest]
    exact (ended_print hrun hfinal hgives hflush' _ l).2
  | false =>
    have hfinal' := (Machine.isFinal_rename hrun).trans hfinal
    obtain ⟨hnone, hstopped⟩ := Machine.exhausted_of_not_final (Machine.isFinal_onto [.print] hfinal)
    rw [hshown, Machine.concluded_of_not_final hfinal']
    refine ⟨fun _ => ?_, fun h => absurd rfl h⟩
    rw [hprogram, Machine.run_onto [.print] hfinal]
    unfold proceed
    rw [hnone]
    dsimp only
    rw [hstopped]
    exact ⟨rfl, hrun.setting.twin.sink, hrun.setting.twin.clock, by simp⟩

end Interpreter

/-! ## Sessions -/

namespace Session

open Machine (created)

variable {P : Handle → Handle → Prop} {s : Session} {fuel : Nat}

/-- Two runs that nobody can tell apart, neither by what they report and write nor by anything that is run
afterwards. -/
structure Alike (r q : Report × Session) : Prop where
  report : q.1 = r.1
  sink : q.2.interpreter.sink = r.2.interpreter.sink
  clock : q.2.interpreter.clock = r.2.interpreter.clock
  later : (∃ status, r.1.outcome = .status status) → ∀ (fuel : Nat) (inputs : List (Mode × String)),
    (q.2.runAll fuel inputs).1 = (r.2.runAll fuel inputs).1 ∧
      (q.2.runAll fuel inputs).2.interpreter.sink = (r.2.runAll fuel inputs).2.interpreter.sink ∧
      (q.2.runAll fuel inputs).2.interpreter.clock = (r.2.runAll fuel inputs).2.interpreter.clock

/-- Runs that give the same as a third one. -/
theorem Alike.of_gave {a b : Record} {r q t : Report × Session} (hr : Gave (Recorded a b) r t)
    (hq : Gave (Recorded a b) q t) : Alike r q := by
  have hreport : q.1 = r.1 := hq.report.symm.trans hr.report
  refine ⟨hreport, hq.sink.symm.trans hr.sink, hq.clock.symm.trans hr.clock, fun hstatus fuel inputs => ?_⟩
  obtain ⟨hreports, hsink, hclock⟩ := runAll_eq inputs fuel (hr.idle hstatus)
  obtain ⟨hreports', hsink', hclock'⟩ := runAll_eq inputs fuel (hq.idle (hreport ▸ hstatus))
  exact ⟨hreports'.symm.trans hreports, hsink'.symm.trans hsink, hclock'.symm.trans hclock⟩

theorem outcome_eq_exhausted_iff {ending : Ending} :
    (Report.ofEnding ending).outcome = .exhausted ↔ ending = .exhausted := by
  cases ending <;> simp [Report.ofEnding]

/-- An expression that is accepted is shown as the program that prints it would print it: with the same
status, output and errors, and with the same to come of all that is run later. The program takes two steps
more than the expression, and is one step behind while the expression is being evaluated. -/
theorem run_printing (hs : s.Reached) (hflush : s.interpreter.sink.flushFails = false)
    (hexecuted : (s.run fuel .expression source).1.outcome ≠ .status .staticError) :
    ((s.run fuel .expression source).1.outcome = .exhausted →
        Alike (s.run fuel .expression source) (s.run (fuel + 1) .program (printing source))) ∧
      ((s.run fuel .expression source).1.outcome ≠ .exhausted → ∀ n, fuel + 2 ≤ n →
        Alike (s.run fuel .expression source) (s.run n .program (printing source))) := by
  obtain ⟨a, b, u, hidle⟩ := hs.idle
  obtain ⟨diagnostics, hrejected⟩ | ⟨e, distances, hlexical, hparses, hresolved, haccepted⟩ :=
    analyze_expression_cases s source
  · rw [run_eq, hrejected] at hexecuted
    exact absurd rfl hexecuted
  have hlearn := hidle.learn distances
  obtain ⟨-, hshown⟩ := Interpreter.runExpression_alongside fuel e hlearn
  obtain ⟨hbehind, hover⟩ := Interpreter.interpret_print hlearn hflush fuel e
  have hrun : s.run fuel .expression source =
      (.ofEnding (runExpression fuel (s.interpreter.learn distances) e).1,
        ⟨(runExpression fuel (s.interpreter.learn distances) e).2, (s.analyze .expression source).2⟩) := by
    rw [run_eq, haccepted]
    rfl
  have hprogram := fun n => run_of_parses (parses_printing hlexical hparses)
    ((resolveProgram_print _ e).trans hresolved) n
  have hgave := execute_alongside hshown (s.analyze .expression source).2
  have hexhausted : (s.run fuel .expression source).1.outcome = .exhausted ↔
      (runExpression fuel (u.interpreter.learn distances) e).1 = .exhausted := by
    rw [hrun, hshown.ending]
    exact outcome_eq_exhausted_iff
  refine ⟨fun h => ?_, fun h n hn => ?_⟩
  · rw [hprogram, hrun]
    exact .of_gave hgave (execute_alongside (hbehind (hexhausted.1 h)) _)
  · rw [hprogram, hrun]
    exact .of_gave hgave (execute_alongside (hover (mt hexhausted.2 h) n hn) _)

/-- An assignment with a comment behind it, in a session that knows the variable. -/
theorem run_printing_assignment :
    let s := ((Session.new {} ⟨fun _ => 0, 0, 0⟩).run 9 .program "var x;").2
    (s.run 9 .expression "x = true // now").1 = ⟨.status .ok, []⟩ ∧
      printing "x = true // now" = "print x = true // now\n;" ∧
      Alike (s.run 9 .expression "x = true // now") (s.run 11 .program (printing "x = true // now")) := by
  intro s
  have hended : ((Session.new {} ⟨fun _ => 0, 0, 0⟩).run 9 .program "var x;").1.outcome =
      .status .ok := by decide +kernel
  have hreport : (s.run 9 .expression "x = true // now").1 = ⟨.status .ok, []⟩ := by decide +kernel
  have hflush : s.interpreter.sink.flushFails = false := by decide +kernel
  obtain ⟨-, hover⟩ := run_printing (.run (.new _ _) 9 .program "var x;" hended) hflush
    (by rw [hreport]; decide)
  exact ⟨hreport, by decide, hover (by rw [hreport]; decide) 11 le_rfl⟩

end Session
end Lox
