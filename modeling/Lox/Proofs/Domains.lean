import Lox.Proofs.Output.Runs
import Lox.Proofs.Splicing.Sessions
import Lox.Proofs.Scanning.Lossless
import Lox.Proofs.Syntax.Recording

/-!
# Operations that are not always possible

Texts are cut where characters begin, tokens are looked at where there are tokens, arguments, elements and slots are
taken from where there are any. The one operation that a program can ask for in vain is a wait that is longer than
any can be. A run that is not given up ends with a status if and only if it does not ask for that.
-/
namespace Lox

/-! ## Waiting -/

/-- The next step is to wait for longer than any wait can be. -/
def Machine.Overlong (m : Machine) : Prop :=
  ∃ x : Float, m.call? = some (.native .sleep, [.number x]) ∧ x.isFinite = true ∧ 0 ≤ x ∧
    Clock.waitLimit ≤ x / 1000

theorem Clock.wait?_eq_none_iff {c : Clock} {x : Float} : c.wait? x = none ↔ waitLimit ≤ x / 1000 := by
  unfold wait?
  by_cases h : waitLimit ≤ x / 1000
  · rw [if_pos h]
    exact iff_of_true rfl h
  · rw [if_neg h]
    refine iff_of_false ?_ h
    cases Exact.ofFloat? (x * 1000) <;> exact nofun

theorem Interpreter.crash_of_callNative {i : Interpreter} {n : Native} {arguments : List Value}
    (h : (i.callNative n arguments).1 = .crash) : n = .sleep ∧ ∃ x rest, arguments = .number x :: rest ∧
      x.isFinite = true ∧ 0 ≤ x ∧ Clock.waitLimit ≤ x / 1000 := by
  unfold callNative at h
  split at h
  · cases h
  · next x rest =>
    split at h
    · next hx =>
      obtain ⟨hfinite, hle⟩ := Bool.and_eq_true_iff.1 hx
      split at h
      · cases h
      · next hwait => exact ⟨rfl, x, rest, rfl, hfinite, of_decide_eq_true hle, Clock.wait?_eq_none_iff.1 hwait⟩
    · cases h
  all_goals
    repeat' split at h
    all_goals cases h

namespace Machine

variable {m : Machine} {stack : List Cont} {i : Interpreter} {v : Value}

theorem not_crashed_of_ofResult (line : Nat) (result : Except RuntimeError Value) :
    ofResult line result ≠ .crashed := by
  cases result <;> exact nofun

theorem not_crashed_of_callFunction (line : Nat) (f : Function) (arguments : List Value) :
    (callFunction line f arguments stack i).control ≠ .crashed := by
  unfold callFunction
  dsimp only
  split <;> exact nofun

theorem overlong_of_call {line : Nat} {callee : Value} {arguments : List Value}
    (h : (call line callee arguments stack i).control = .crashed) :
    callee = .native .sleep ∧ ∃ x, arguments = [.number x] ∧ x.isFinite = true ∧ 0 ≤ x ∧
      Clock.waitLimit ≤ x / 1000 := by
  unfold call at h
  split at h
  · cases h
  · next arity harity =>
    split at h
    · next hlength =>
      split at h
      · next n =>
        cases harity
        split at h
        · cases h
        · cases h
        · next hn =>
          obtain ⟨rfl, x, rest, rfl, hx⟩ := Interpreter.crash_of_callNative (congrArg Prod.fst hn)
          obtain rfl : rest = [] := List.eq_nil_of_length_eq_zero (Nat.succ.inj hlength)
          exact ⟨rfl, x, rfl, hx⟩
      · exact absurd h (not_crashed_of_callFunction _ _ _)
      · unfold instantiate at h
        dsimp only at h
        split at h
        · cases h
        · exact absurd h (not_crashed_of_callFunction _ _ _)
      · cases h
      · cases h
    · cases h

theorem not_crashed_of_evalStep (e : Expr) : (evalStep e stack i).control ≠ .crashed := by
  unfold evalStep
  split
  all_goals
    repeat' split
    all_goals exact nofun

theorem not_crashed_of_execStep (s : Stmt) : (execStep s stack i).control ≠ .crashed := by
  unfold execStep
  split <;> exact nofun

theorem overlong_of_yieldStep {k : Cont} (h : (yieldStep v k stack i).control = .crashed) :
    Overlong ⟨.yield v, k :: stack, i⟩ := by
  cases k with
  | callee line rest =>
    cases rest with
    | cons e rest => cases h
    | nil =>
      obtain ⟨rfl, x, harguments, hx⟩ := overlong_of_call h
      cases harguments
  | argument line callee ready rest =>
    cases rest with
    | cons e rest => cases h
    | nil =>
      obtain ⟨rfl, x, harguments, hx⟩ := overlong_of_call h
      exact ⟨x, congrArg some (Prod.ext rfl harguments), hx⟩
  | unary | right | get => exact absurd h (not_crashed_of_ofResult _ _)
  | _ =>
    unfold yieldStep at h
    dsimp only at h
    repeat' split at h
    all_goals cases h

/-- Only a step that is to wait for too long crashes. -/
theorem overlong_of_step (h : m.step.control = .crashed) : m.control = .crashed ∨ m.Overlong := by
  obtain ⟨control, stack, i⟩ := m
  cases control with
  | eval e => exact absurd h (not_crashed_of_evalStep e)
  | exec s => exact absurd h (not_crashed_of_execStep s)
  | crashed => exact .inl rfl
  | yield v =>
    cases stack with
    | nil => cases h
    | cons k stack => exact .inr (overlong_of_yieldStep h)
  | done | returning v =>
    cases stack with
    | nil => cases h
    | cons k stack =>
      unfold step doneStep returnStep finishCall at *
      dsimp only at h
      repeat' split at h
      all_goals cases h
  | failed failure =>
    cases stack <;> cases h

theorem step_of_overlong (h : m.Overlong) : m.isFinal = false ∧ m.step.control = .crashed := by
  obtain ⟨x, hcall, hfinite, hle, hlimit⟩ := h
  have hcrash : ∀ (line : Nat) (stack : List Cont) (i : Interpreter),
      (call line (.native .sleep) [.number x] stack i).control = .crashed := by
    intro line stack i
    have hx : (x.isFinite && decide (0 ≤ x)) = true := by rw [hfinite, decide_eq_true hle]; rfl
    have hwait : i.clock.wait? x = none := Clock.wait?_eq_none_iff.2 hlimit
    have hnative : i.callNative .sleep [.number x] = (.crash, i) := by
      unfold Interpreter.callNative
      dsimp only
      rw [if_pos hx, hwait]
    have harity : (Value.native .sleep).arity? = some [Value.number x].length := rfl
    unfold call
    rw [harity]
    dsimp only
    rw [if_pos rfl, hnative]
  obtain ⟨control, stack, i⟩ := m
  unfold call? at hcall
  split at hcall
  · cases hcall
  · next v line callee ready k i' heq =>
    obtain ⟨hcallee, harguments⟩ := Prod.mk.inj (Option.some.inj hcall)
    cases heq
    refine ⟨rfl, ?_⟩
    change (call line callee (ready ++ [v]) _ _).control = .crashed
    rw [hcallee, harguments]
    exact hcrash _ _ _
  · cases hcall

/-! ## Runs -/

theorem history_of_mem {n : Machine} {fuel : Nat} (hn : n ∈ m.history fuel) :
    n = m.run fuel ∨ n.isFinal = false ∧ n.step ∈ m.history fuel := by
  induction fuel generalizing m with
  | zero => exact .inl (List.mem_singleton.1 hn)
  | succ fuel ih =>
    rw [history] at hn
    rw [history, run]
    by_cases hfinal : m.isFinal = true
    · rw [if_pos hfinal] at hn ⊢
      exact .inl (List.mem_singleton.1 hn)
    · rw [if_neg hfinal] at hn
      rw [if_neg hfinal, if_neg hfinal]
      obtain rfl | hn := List.mem_cons.1 hn
      · refine .inr ⟨Bool.not_eq_true _ ▸ hfinal, List.mem_cons_of_mem _ ?_⟩
        cases fuel with
        | zero => exact List.mem_singleton_self _
        | succ fuel =>
          unfold history
          split <;> exact List.mem_cons_self
      · exact (ih hn).imp_right (And.imp_right (List.mem_cons_of_mem _))

/-- Nothing comes after a state in which there is nothing left to do. -/
theorem eq_run_of_isFinal {n : Machine} {fuel : Nat} (hn : n ∈ m.history fuel) (hfinal : n.isFinal = true) :
    n = m.run fuel := by
  refine (history_of_mem hn).resolve_right fun hnot => ?_
  rw [hfinal] at hnot
  cases hnot.1

theorem isFinal_of_crashed (h : m.control = .crashed) : m.isFinal = true := by
  obtain ⟨control, stack, i⟩ := m
  cases h
  rfl

/-- A machine crashes if and only if it is to wait for too long, unless it is given up. -/
theorem crashed_run_iff {fuel : Nat} (hm : m.control ≠ .crashed) (hfinal : (m.run fuel).isFinal = true) :
    (m.run fuel).control = .crashed ↔ ∃ n ∈ m.history fuel, n.Overlong := by
  constructor
  · intro h
    by_contra hnone
    refine forall_history (Q := fun n => n.control ≠ .crashed) hm (fun n hn hcontrol hstep => ?_) _
      (run_mem_history fuel m) h
    exact (overlong_of_step hstep).elim hcontrol fun hlong => hnone ⟨n, hn, hlong⟩
  · rintro ⟨n, hn, hlong⟩
    obtain ⟨hnot, hcrash⟩ := step_of_overlong hlong
    obtain rfl | ⟨-, hstep⟩ := history_of_mem hn
    · rw [hfinal] at hnot
      cases hnot
    · rw [← eq_run_of_isFinal hstep (isFinal_of_crashed hcrash)]
      exact hcrash

theorem proceed_of_crashed {fuel : Nat} {rest : List Stmt} (h : m.control = .crashed) :
    m.proceed fuel rest = (.crashed, m.state) := by
  obtain ⟨control, _ | ⟨k, stack⟩, i⟩ := m <;> cases h <;> rfl

theorem stopped_of_not_crashed (h : m.control ≠ .crashed) : m.stopped.1 ≠ .crashed := by
  obtain ⟨control, _ | ⟨k, stack⟩, i⟩ := m
  · cases control with
    | crashed => exact absurd rfl h
    | failed failure =>
      change (i.abort failure).1 ≠ .crashed
      unfold Interpreter.abort
      dsimp only
      split <;> exact nofun
    | _ => exact nofun
  · cases control with
    | crashed => exact absurd rfl h
    | _ => exact nofun

theorem concluded_eq_crashed_iff : m.concluded.1 = .crashed ↔ m.control = .crashed := by
  obtain ⟨control, _ | ⟨k, stack⟩, i⟩ := m
  · cases control with
    | crashed => exact iff_of_true rfl rfl
    | yield v =>
      refine iff_of_false ?_ nofun
      change (Session.printResult ({ i with active := .globals } : Interpreter).settle v).1 ≠ .crashed
      unfold Session.printResult
      repeat' split
      all_goals exact nofun
    | _ => exact iff_of_false nofun nofun
  · cases control with
    | crashed => exact iff_of_true rfl rfl
    | _ => exact iff_of_false nofun nofun

end Machine

variable {fuel : Nat}

theorem Machine.not_overlong_of_nil : ¬ ∃ m ∈ ([] : List Machine), m.Overlong :=
  fun h => h.elim fun _ hm => absurd hm.1 List.not_mem_nil

theorem Interpreter.crashed_interpret_iff {i : Interpreter} {program : List Stmt}
    (hover : (i.interpret fuel program).1 ≠ .exhausted) :
    (i.interpret fuel program).1 = .crashed ↔ ∃ m ∈ i.history fuel program, m.Overlong := by
  induction program generalizing i with
  | nil =>
    refine iff_of_false ?_ Machine.not_overlong_of_nil
    rw [interpret]
    split
    · exact Ending.noConfusion
    · exact Ending.noConfusion
  | cons s rest ih =>
    rw [interpret_cons] at hover ⊢
    rw [history_cons]
    have hstart : Control.exec s ≠ .crashed := Control.noConfusion
    have hfinal : (Machine.run fuel ⟨.exec s, [], i⟩).isFinal = true := by
      by_contra hnot
      obtain ⟨hended, hexhausted⟩ := Machine.exhausted_of_not_final (Bool.not_eq_true _ ▸ hnot)
      rw [Machine.proceed, hended] at hover
      exact hover (congrArg Prod.fst hexhausted)
    have hfirst := Machine.crashed_run_iff hstart hfinal
    simp only [List.mem_append, or_and_right, exists_or]
    rw [← hfirst]
    generalize Machine.run fuel ⟨.exec s, [], i⟩ = m at hover ⊢
    by_cases hcrashed : m.control = .crashed
    · rw [Machine.proceed_of_crashed hcrashed]
      exact iff_of_true rfl (.inl hcrashed)
    · rw [or_iff_right hcrashed]
      unfold Machine.proceed Machine.further at *
      cases hended : m.ended? with
      | none => exact iff_of_false (Machine.stopped_of_not_crashed hcrashed) Machine.not_overlong_of_nil
      | some j =>
        rw [hended] at hover
        exact ih hover

theorem Session.crashed_runExpression_iff {i : Interpreter} {e : Expr}
    (hover : (runExpression fuel i e).1 ≠ .exhausted) :
    (runExpression fuel i e).1 = .crashed ↔ ∃ m ∈ Machine.history fuel ⟨.eval e, [], i⟩, m.Overlong := by
  rw [runExpression_eq] at hover ⊢
  have hfinal : (Machine.run fuel ⟨.eval e, [], i⟩).isFinal = true := by
    by_contra hnot
    exact hover (congrArg Prod.fst (Machine.concluded_of_not_final (Bool.not_eq_true _ ▸ hnot)))
  rw [Machine.concluded_eq_crashed_iff]
  exact Machine.crashed_run_iff nofun hfinal

/-! ## Cutting texts -/

open String (Pos.Raw.IsValid)

/-- The stretch of `source` that begins behind `before` and is `text`. -/
structure Slice (source : String) (before text : List Char) : Prop where
  first : Pos.Raw.IsValid source ⟨(String.ofList before).utf8ByteSize⟩
  last : Pos.Raw.IsValid source ⟨(String.ofList (before ++ text)).utf8ByteSize⟩
  bytes : source.toByteArray.extract (String.ofList before).utf8ByteSize
    (String.ofList (before ++ text)).utf8ByteSize = (String.ofList text).toByteArray

theorem Slice.of_append {source : String} {before text after : List Char}
    (h : source.toList = before ++ (text ++ after)) : Slice source before text := by
  have hsource : source = String.ofList before ++ (String.ofList text ++ String.ofList after) := by
    rw [← String.ofList_append, ← String.ofList_append, ← h, String.ofList_toList]
  have hsize : (String.ofList (before ++ text)).utf8ByteSize =
      (String.ofList before).toByteArray.size + (String.ofList text).toByteArray.size := by
    rw [String.ofList_append, String.utf8ByteSize_append]
    rfl
  refine ⟨?_, ?_, ?_⟩
  · exact String.Pos.Raw.isValid_iff_exists_append.2 ⟨_, _, hsource, rfl⟩
  · refine String.Pos.Raw.isValid_iff_exists_append.2 ⟨String.ofList (before ++ text), String.ofList after, ?_, rfl⟩
    rw [hsource, String.ofList_append, String.append_assoc]
  · have hbytes : source.toByteArray = (String.ofList before).toByteArray ++
        ((String.ofList text).toByteArray ++ (String.ofList after).toByteArray) := by
      rw [hsource, String.toByteArray_append, String.toByteArray_append]
    have hfrom : (String.ofList before).utf8ByteSize = (String.ofList before).toByteArray.size + 0 := rfl
    rw [hbytes, hsize, hfrom, ByteArray.extract_append_size_add, extract_append_of_le le_rfl,
      extract_of_size_le le_rfl]

/-- Every piece is cut out where characters begin, and so is what stands between quotes. -/
theorem slice_of_pieces {source : String} {before after : List Piece} {p : Piece}
    (h : pieces source.toList = before ++ p :: after) :
    Slice source (before.flatMap Piece.text) p.text ∧
      ∀ raw, p.text = '"' :: raw ++ ['"'] → Slice source (before.flatMap Piece.text ++ ['"']) raw := by
  have htext : source.toList = before.flatMap Piece.text ++ (p.text ++ after.flatMap Piece.text) := by
    rw [← text_pieces source.toList, h, List.flatMap_append, List.flatMap_cons]
  refine ⟨.of_append htext, fun raw hraw => ?_⟩
  have hquoted : source.toList =
      (before.flatMap Piece.text ++ ['"']) ++ (raw ++ '"' :: after.flatMap Piece.text) := by
    rw [htext, hraw]
    simp
  exact .of_append hquoted

/-! ## Looking at tokens -/

/-- Parsing begins at a token, and every production leads from one token to another. -/
structure Parser.StaysInside (tokens : List Token) : Prop where
  start : ∀ n, (Cursor.start n tokens).Tidy tokens 0
  expressions : ∀ depth, ExpressionsOrderly tokens depth
  statements : ∀ depth, StatementsOrderly tokens depth
  token : ∀ c place, Cursor.Tidy tokens place c → ∃ t, tokens[place]? = some t

theorem Parser.staysInside_tokenize (source : String) : StaysInside (tokenize source).1 := by
  obtain ⟨body, last, htokens, hbody, hlast⟩ := tokens_tokenize source
  refine ⟨fun n => ?_, expressionsOrderly _, statementsOrderly _, ?_⟩
  · rw [htokens]
    exact tidy_start hbody hlast n
  · rintro c place ⟨record, h⟩
    obtain ⟨t, ht, -⟩ := h.stands_faultAt .expression
    exact ⟨t, ht⟩

/-! ## Arguments, elements and slots -/

/-- What the next step can take from somewhere is there. -/
structure Machine.InDomain (m : Machine) : Prop where
  arguments : ∀ id method arguments, m.call? = some (.arrayMethod id method, arguments) →
    (∃ line, m.step.control = fail line (.argumentCount method.arity arguments.length)) ∨
      ∀ k < method.arity, ∃ v, arguments[k]? = some v
  elements : ∀ id index k, m.state.store.slot? id index = some k →
    ∃ elements, m.state.store.elements? id = some elements ∧ k < elements.size
  vacant : ∀ k ∈ m.state.store.arena.free, k < m.state.store.arena.slots.size
  frames : ∀ h, m.state.store.arena.contains h = true → h.index < m.state.store.arena.slots.size

theorem Store.exists_of_slot? {s : Store} {id : ObjectId} {index : Value} {k : Nat} (h : s.slot? id index = some k) :
    ∃ elements, s.elements? id = some elements ∧ k < elements.size := by
  unfold slot? at h
  split at h
  · obtain ⟨-, hk⟩ := Option.filter_eq_some_iff.1 h
    have hlt : k < s.length id := of_decide_eq_true hk
    unfold length at hlt
    cases helements : s.elements? id with
    | none =>
      rw [helements] at hlt
      exact absurd hlt (Nat.not_lt_zero k)
    | some elements =>
      rw [helements] at hlt
      exact ⟨elements, rfl, hlt⟩
  · cases h

namespace Machine

theorem arguments_of_call? {m : Machine} {id : ObjectId} {method : ArrayMethod} {arguments : List Value}
    (h : m.call? = some (.arrayMethod id method, arguments)) :
    (∃ line, m.step.control = fail line (.argumentCount method.arity arguments.length)) ∨
      ∀ k < method.arity, ∃ v, arguments[k]? = some v := by
  by_cases hlength : arguments.length = method.arity
  · exact .inr fun k hk => ⟨_, List.getElem?_eq_getElem (hlength ▸ hk)⟩
  · left
    have hcall : ∀ (line : Nat) (stack : List Cont) (i : Interpreter),
        (call line (.arrayMethod id method) arguments stack i).control =
          fail line (.argumentCount method.arity arguments.length) := by
      intro line stack i
      have harity : (Value.arrayMethod id method).arity? = some method.arity := rfl
      unfold call
      rw [harity]
      dsimp only
      rw [if_neg hlength]
    obtain ⟨control, stack, i⟩ := m
    unfold call? at h
    split at h
    · next v line k i' heq =>
      obtain ⟨rfl, rfl⟩ := Prod.mk.inj (Option.some.inj h)
      cases heq
      exact ⟨_, hcall _ _ _⟩
    · next v line callee ready k i' heq =>
      obtain ⟨rfl, rfl⟩ := Prod.mk.inj (Option.some.inj h)
      cases heq
      exact ⟨_, hcall _ _ _⟩
    · cases h

theorem inDomain_of_recycles {m : Machine} (h : m.state.store.arena.Recycles) : m.InDomain where
  arguments _ _ _ := arguments_of_call?
  elements _ _ _ := Store.exists_of_slot?
  vacant k hk := by
    obtain ⟨generation, hslot⟩ := h.vacant k hk
    exact (Array.getElem?_eq_some_iff.1 hslot).1
  frames g hg := by
    obtain ⟨frame, hframe⟩ := Arena.contains_iff.1 hg
    exact (Array.getElem?_eq_some_iff.1 (Arena.frame?_eq_some_iff.1 hframe)).1

end Machine

namespace Session

variable {s : Session}

theorem inDomain_states (hs : s.Reached) (fuel : Nat) (mode : Mode) (source : String) :
    ∀ m ∈ s.states fuel mode source, m.InDomain := by
  intro m hm
  obtain ⟨a, b, u, hidle⟩ := hs.idle
  obtain ⟨P, ρ, n, ht⟩ := (run_alongside hidle fuel mode source).1.twin hm
  exact Machine.inDomain_of_recycles ht.setting.twin.store.healthy.accounted.recycles

theorem status_iff (mode : Mode) (source : String) (hover : (s.run fuel mode source).1.outcome ≠ .exhausted) :
    (∃ status, (s.run fuel mode source).1.outcome = .status status) ↔
      ∀ m ∈ s.states fuel mode source, ¬ m.Overlong := by
  have hending : ∀ ending : Ending, (Report.ofEnding ending).outcome ≠ .exhausted → ending ≠ .exhausted ∧
      ((∃ status, (Report.ofEnding ending).outcome = .status status) ↔ ending ≠ .crashed) := by
    intro ending h
    cases ending with
    | completed | failed => exact ⟨nofun, iff_of_true ⟨_, rfl⟩ nofun⟩
    | crashed => exact ⟨nofun, iff_of_false (fun ⟨_, h⟩ => absurd h nofun) fun h => h rfl⟩
    | exhausted => exact absurd rfl h
  have hnone : ∀ states : List Machine, (∀ m ∈ states, ¬ m.Overlong) ↔ ¬ ∃ m ∈ states, m.Overlong := by
    intro states
    simp only [not_exists, not_and]
  rw [run_eq] at hover ⊢
  rw [states_eq, hnone]
  cases h : (s.analyze mode source).1 with
  | rejected diagnostics => exact iff_of_true ⟨_, rfl⟩ fun ⟨m, hm, _⟩ => absurd hm List.not_mem_nil
  | program tree d =>
    rw [h] at hover
    obtain ⟨hnot, hiff⟩ := hending _ hover
    exact hiff.trans (not_congr (Interpreter.crashed_interpret_iff hnot))
  | expression e d =>
    rw [h] at hover
    obtain ⟨hnot, hiff⟩ := hending _ hover
    exact hiff.trans (not_congr (crashed_runExpression_iff hnot))

/-- Whatever a session is fed, pieces are cut out where characters begin, tokens are looked at where there are
tokens, and arguments, elements and slots are taken from where there are any. A run that is not given up ends
with a status if and only if it does not ask for a wait of `2 ^ 64` seconds or more. -/
theorem status_or_overlong (hs : s.Reached) (fuel : Nat) (mode : Mode) (source : String) :
    (∀ before p after, pieces source.toList = before ++ p :: after →
        Slice source (before.flatMap Piece.text) p.text ∧
          ∀ raw, p.text = '"' :: raw ++ ['"'] → Slice source (before.flatMap Piece.text ++ ['"']) raw) ∧
      Parser.StaysInside (tokenize source).1 ∧
      (∀ m ∈ s.states fuel mode source, m.InDomain) ∧
      ((s.run fuel mode source).1.outcome ≠ .exhausted →
        ((∃ status, (s.run fuel mode source).1.outcome = .status status) ↔
          ∀ m ∈ s.states fuel mode source, ¬ m.Overlong)) :=
  ⟨fun _ _ _ => slice_of_pieces, Parser.staysInside_tokenize source, inDomain_states hs fuel mode source,
    status_iff mode source⟩

/-- A millisecond is not too long. -/
theorem status_or_overlong_millisecond :
    let s := Session.new {} ⟨fun _ => 0, 0, 0⟩
    s.Reached ∧ (s.run 99 .program "sleep(1);").1.outcome = .status .ok ∧
      ∀ m ∈ s.states 99 .program "sleep(1);", ¬ m.Overlong := by
  intro s
  have hended : (s.run 99 .program "sleep(1);").1.outcome = .status .ok := by decide +kernel
  have hover : (s.run 99 .program "sleep(1);").1.outcome ≠ .exhausted := fun h => by
    rw [hended] at h
    cases h
  have hs : s.Reached := .new _ _
  obtain ⟨-, -, -, hstatus⟩ := status_or_overlong hs 99 .program "sleep(1);"
  exact ⟨hs, hended, (hstatus hover).1 ⟨_, hended⟩⟩

/-- A finite number of milliseconds that no wait can be as long as. -/
theorem run_overlong :
    let s := Session.new {} ⟨fun _ => 0, 0, 0⟩
    (s.run 99 .program "sleep(9000000000000000000 * 9000000000000000000);").1 = ⟨.crashed, []⟩ := by
  decide +kernel

end Session
end Lox
