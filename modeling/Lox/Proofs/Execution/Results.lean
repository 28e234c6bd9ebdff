import Lox.Proofs.Execution.Returns

/-!
# What a call results in

The states from the beginning of a body to its end say what the call results in. A body that comes to its end
without a `return` of its own results in nil. Otherwise its first `return` decides: what is executed
after it is its expression, and then all that is around the `return` is left.
-/
namespace Lox.Machine

/-- What the states of a body, from its beginning to its end, result in. -/
inductive Results (ms : List Machine) : Value → Prop where
  | nothing (hnone : ∀ m ∈ ms, m.return? = none) : Results ms .nil
  | empty {before q after} (hms : ms = before ++ q :: after) (hfirst : ∀ m ∈ before, m.return? = none)
      (hreturn : q.return? = some none) (hafter : ∀ m ∈ after, m.control = .returning .nil) :
      Results ms .nil
  /-- The states after the `return` are those of its expression, on top of all that is around it, and then
  the value is on its way. -/
  | value {before q unwinding e v k j}
      (hms : ms = before ++ q :: ((history k ⟨.eval e, [], q.state⟩).map (onto · (.result :: q.stack)) ++
        unwinding))
      (hfirst : ∀ m ∈ before, m.return? = none) (hreturn : q.return? = some (some e))
      (hvalue : run k ⟨.eval e, [], q.state⟩ = ⟨.yield v, [], j⟩)
      (hunwinding : ∀ m ∈ unwinding, m.control = .returning v) : Results ms v

/-- The machine has come to its end, neither with a failure nor by a crash. -/
structure Completed (m : Machine) : Prop where
  final : m.isFinal = true
  failed : ∀ failure, m.control ≠ .failed failure
  crashed : m.control ≠ .crashed

variable {ρ : Renaming} {a b : Record} {m n q : Machine}
  {before after : List Machine} {below : List Cont} {fuel : Nat} {v : Value} {e : Expr}

/-! ## Parts of a history -/

/-- What follows a state of a history is the history of that state. -/
theorem history_split (hsplit : m.history fuel = before ++ q :: after) :
    ∃ k l, m.run k = q ∧ m.run fuel = q.run l ∧ q.history l = q :: after := by
  have hsingle : ∀ {m : Machine} {before : List Machine}, [m] = before ++ q :: after → q = m ∧ after = [] := by
    intro m before h
    obtain ⟨-, h⟩ | ⟨-, h⟩ := List.append_eq_singleton_iff.1 h.symm
    · exact List.cons.inj h
    · cases h
  induction fuel generalizing m before with
  | zero =>
    obtain ⟨rfl, rfl⟩ := hsingle hsplit
    exact ⟨0, 0, rfl, rfl, rfl⟩
  | succ fuel ih =>
    cases hfinal : m.isFinal with
    | true =>
      rw [history, if_pos hfinal] at hsplit
      obtain ⟨rfl, rfl⟩ := hsingle hsplit
      exact ⟨0, 0, rfl, run_of_isFinal hfinal _, rfl⟩
    | false =>
      rw [history_succ hfinal] at hsplit
      cases before with
      | nil =>
        obtain ⟨rfl, rfl⟩ := List.cons.inj hsplit
        exact ⟨0, fuel + 1, rfl, rfl, history_succ hfinal fuel⟩
      | cons first before =>
        obtain ⟨k, l, hk, hl, hafter⟩ := ih (List.cons.inj hsplit).2
        exact ⟨k + 1, l, (run_succ hfinal k).trans hk, (run_succ hfinal fuel).trans hl, hafter⟩

/-- If a machine with something below it comes to its end, it has come to its own end before that. -/
theorem history_onto (hbelow : below ≠ []) (hfinal : ((m.onto below).run fuel).isFinal = true)
    (hcrash : ((m.onto below).run fuel).control ≠ .crashed) :
    ∃ k l, (m.run k).isFinal = true ∧ (m.run k).control ≠ .crashed ∧
      (m.onto below).run fuel = ((m.run k).onto below).step.run l ∧
      (m.onto below).history fuel =
        (m.history k).map (onto · below) ++ ((m.run k).onto below).step.history l := by
  induction fuel generalizing m with
  | zero =>
    cases hm : m.isFinal with
    | true =>
      rw [run] at hfinal hcrash
      rw [isFinal_onto_of_isFinal below hm hbelow hcrash] at hfinal
      cases hfinal
    | false =>
      rw [run, isFinal_onto below hm] at hfinal
      cases hfinal
  | succ fuel ih =>
    cases hm : m.isFinal with
    | true =>
      by_cases hcrashed : m.control = .crashed
      · have hstays : (m.onto below).isFinal = true := by
          obtain ⟨control, stack, i⟩ := m
          cases hcrashed
          rfl
        rw [run_of_isFinal hstays] at hcrash
        exact absurd hcrashed hcrash
      · have hgoes := isFinal_onto_of_isFinal below hm hbelow hcrashed
        exact ⟨0, fuel, hm, hcrashed, run_succ hgoes fuel, history_succ hgoes fuel⟩
    | false =>
      have hgoes := isFinal_onto below hm
      rw [run_succ hgoes, step_onto below hm] at hfinal hcrash
      obtain ⟨k, l, hk, hk', hrun, hhistory⟩ := ih hfinal hcrash
      refine ⟨k + 1, l, ?_, ?_, ?_, ?_⟩
      · rwa [run_succ hm]
      · rwa [run_succ hm]
      · rw [run_succ hgoes, step_onto below hm, run_succ hm, hrun]
      · rw [history_succ hgoes, step_onto below hm, hhistory, run_succ hm, history_succ hm]
        rfl

/-- The control that a machine ends with is of the kind that is waited for below. -/
theorem Twin.fits_onto (ht : Twin (Recorded a b) ρ (m.onto below) n) (hfinal : (m.run fuel).isFinal = true)
    {value : Bool} (hvalue : (m.run fuel).control.givesValue? = some value) : Fits value below := by
  obtain ⟨k, -, hrun⟩ := run_onto_add below hfinal
  obtain ⟨-, ρ', hend⟩ := ht.run k
  rw [show (m.onto below).run k = _ from hrun 0] at hend
  have hempty : (m.run fuel).stack = [] := by
    refine stack_of_isFinal hfinal fun hcrash => ?_
    rw [hcrash] at hvalue
    cases hvalue
  have hfits : Fits value ((m.run fuel).stack ++ below) := hend.fits value hvalue
  rwa [hempty] at hfits

/-! ## After a `return` -/

theorem step_of_return? (h : m.return? = some none) :
    inCall m.stack = false ∧ m.step = ⟨.returning .nil, m.stack, m.state⟩ := by
  obtain ⟨control, stack, i⟩ := m
  unfold return? at h
  split at h
  · next line value hcontrol =>
    cases hcontrol
    split at h
    · cases h
    · next hout =>
      cases h
      exact ⟨Bool.eq_false_iff.2 hout, rfl⟩
  · cases h

theorem step_of_return?_some (h : m.return? = some (some e)) :
    inCall m.stack = false ∧ m.step = onto ⟨.eval e, [], m.state⟩ (.result :: m.stack) := by
  obtain ⟨control, stack, i⟩ := m
  unfold return? at h
  split at h
  · next line value hcontrol =>
    cases hcontrol
    split at h
    · cases h
    · next hout =>
      cases h
      exact ⟨Bool.eq_false_iff.2 hout, rfl⟩
  · cases h

theorem isFinal_of_return? {value : Option Expr} (h : m.return? = some value) : m.isFinal = false := by
  obtain ⟨control, stack, i⟩ := m
  unfold return? at h
  split at h
  · next hcontrol =>
    cases hcontrol
    rfl
  · cases h

/-- Outside of calls nothing stops a `return` that is on its way. -/
theorem returning_step (h : m.control = .returning v ∧ inCall m.stack = false) :
    m.step.control = .returning v ∧ inCall m.step.stack = false := by
  obtain ⟨control, stack, i⟩ := m
  obtain ⟨hcontrol, hout⟩ := h
  cases hcontrol
  cases stack with
  | nil => exact ⟨rfl, hout⟩
  | cons k stack => cases k <;> first | exact ⟨rfl, hout⟩ | cases hout

theorem returning_of_history (hcontrol : m.control = .returning v) (hout : inCall m.stack = false)
    (fuel : Nat) : ∀ r ∈ m.history fuel, r.control = .returning v := fun r hr =>
  (forall_history (Q := fun r => r.control = .returning v ∧ inCall r.stack = false) ⟨hcontrol, hout⟩
    (fun _ _ => returning_step) r hr).1

theorem failed_of_history {failure : Failure} (hcontrol : m.control = .failed failure) (fuel : Nat) :
    ∀ r ∈ m.history fuel, r.control = .failed failure := by
  refine forall_history hcontrol fun r _ hr => ?_
  obtain ⟨control, stack, i⟩ := r
  cases hr
  cases stack <;> rfl

/-- If all goes well, the expression of a `return` has a value, and nothing but its evaluation and the way to
the call comes after the `return`. -/
theorem value_of_return (hreturn : m.return? = some (some e)) (ht : Twin (Recorded a b) ρ (m.onto below) n)
    (hend : (m.step.run fuel).Completed) :
    ∃ v k j unwinding, run k ⟨.eval e, [], m.state⟩ = ⟨.yield v, [], j⟩ ∧
      m.step.history fuel =
        (history k ⟨.eval e, [], m.state⟩).map (onto · (.result :: m.stack)) ++ unwinding ∧
      (∀ r ∈ unwinding, r.control = .returning v) ∧ (m.step.run fuel).control = .returning v := by
  obtain ⟨hout, hstep⟩ := step_of_return?_some hreturn
  obtain ⟨ρ', htwin⟩ := ht.stepRecorded
  rw [step_onto below (isFinal_of_return? hreturn), hstep] at htwin
  change Twin _ ρ' (onto ⟨.eval e, [], m.state⟩ (.result :: (m.stack ++ below))) _ at htwin
  rw [hstep] at hend ⊢
  obtain ⟨k, l, hk, hkcrash, hrun, hhistory⟩ := history_onto (List.cons_ne_nil _ _) hend.final hend.crashed
  rw [hrun] at hend ⊢
  -- what comes of the expression is what a `return` takes
  have hempty := stack_of_isFinal hk hkcrash
  have htakes : ∀ value, (run k ⟨.eval e, [], m.state⟩).control.givesValue? = some value → true = value :=
    fun value hvalue => (htwin.fits_onto hk hvalue).1
  generalize heval : run k ⟨.eval e, [], m.state⟩ = r at *
  obtain ⟨control, stack, j⟩ := r
  cases hempty
  cases control with
  | yield v =>
    have hunwinding := returning_of_history (m := ⟨.returning v, m.stack, j⟩) rfl hout l
    exact ⟨v, k, j, _, heval, hhistory, hunwinding, hunwinding _ (run_mem_history l _)⟩
  | eval _ | exec _ => cases hk
  | done | returning _ => cases htakes false rfl
  | failed failure =>
    have hfails := failed_of_history (m := ⟨.failed failure, m.stack, j⟩) rfl l
    exact absurd (hfails _ (run_mem_history l _)) (hend.failed failure)
  | crashed => exact absurd rfl hkcrash

/-! ## The first `return` -/

/-- What a body results in that has come to its end. -/
theorem results_of_run (hstays : m.Stays fun _ => True) (ht : Twin (Recorded a b) ρ (m.onto below) n)
    (hbelow : ∀ value, Fits value below → value = false) (hend : (m.run fuel).Completed) :
    ∃ v, Results (m.history fuel) v ∧
      ((m.run fuel).control = .done ∧ v = .nil ∨ (m.run fuel).control = .returning v) := by
  cases hfind : (m.history fuel).find? fun q => q.return?.isSome with
  | none =>
    have hnone : ∀ q ∈ m.history fuel, q.return? = none := fun q hq =>
      Option.not_isSome_iff_eq_none.1 (List.find?_eq_none.1 hfind q hq)
    -- the body never returns, so that its end is that of its last statement
    have hclosed : Stmt.Closed fun _ => True :=
      ⟨fun _ _ _ => trivial, fun _ => ⟨trivial, fun _ _ => trivial⟩, fun _ => trivial⟩
    have hlast := forall_history hstays (fun r hr hs => hs.step hclosed (hnone r hr)) _ (run_mem_history fuel m)
    have hstays : (m.run fuel).control.Stays fun _ => True := hlast.control (by
      rw [stack_of_isFinal hend.final hend.crashed]
      rfl)
    have hkind : ∀ value, (m.run fuel).control.givesValue? = some value → value = false :=
      fun value hvalue => hbelow value (ht.fits_onto hend.final hvalue)
    refine ⟨.nil, .nothing hnone, .inl ⟨?_, rfl⟩⟩
    generalize m.run fuel = r at *
    obtain ⟨control, stack, i⟩ := r
    cases control with
    | done => rfl
    | eval _ | exec _ => cases hend.final
    | yield _ => cases hkind true rfl
    | returning _ => exact hstays.elim
    | failed failure => exact absurd rfl (hend.failed failure)
    | crashed => exact absurd rfl hend.crashed
  | some q =>
    obtain ⟨hreturn, before, after, hsplit, hfirst⟩ := List.find?_eq_some_iff_append.1 hfind
    have hfirst : ∀ r ∈ before, r.return? = none := fun r hr => by
      simpa using hfirst r hr
    obtain ⟨value, hreturn⟩ := Option.isSome_iff_exists.1 hreturn
    obtain ⟨k, l, hk, hl, hafter⟩ := history_split hsplit
    have hgoes := isFinal_of_return? hreturn
    -- there is a step after the `return`, since it is not the end
    cases l with
    | zero =>
      rw [hl, run] at hend
      exact absurd hend.final (Bool.eq_false_iff.1 hgoes)
    | succ l =>
      rw [history_succ hgoes] at hafter
      obtain ⟨-, rfl⟩ := List.cons.inj hafter
      rw [run_succ hgoes] at hl
      cases value with
      | none =>
        obtain ⟨hout, hstep⟩ := step_of_return? hreturn
        have hunwinding : ∀ r ∈ q.step.history l, r.control = .returning .nil := by
          rw [hstep]
          exact returning_of_history (m := ⟨.returning .nil, q.stack, q.state⟩) rfl hout l
        have hlast := hunwinding _ (run_mem_history l q.step)
        exact ⟨.nil, .empty hsplit hfirst hreturn hunwinding, .inr (hl ▸ hlast)⟩
      | some e =>
        obtain ⟨-, ρ', hq⟩ := ht.run k
        rw [run_onto below (hk ▸ hgoes), hk] at hq
        rw [hl] at hend
        obtain ⟨v, k, j, unwinding, hvalue, hhistory, hunwinding, hlast⟩ := value_of_return hreturn hq hend
        rw [hhistory] at hsplit
        exact ⟨v, .value hsplit hfirst hreturn hvalue hunwinding, .inr (hl ▸ hlast)⟩

end Lox.Machine
