import Lox.Proofs.Output.Runs
import Lox.Proofs.Scoping.Sessions

/-!
# One state after the other

Each state of a history has what the step before it has stored, less what has been forgotten since. So
whatever a frame binds to a name that programs cannot declare, there is a step that has made the frame for it.
-/
namespace Lox

open Arena (Fixed)

namespace Store

/-- The steps of the machines lead from the store `s` to another one. Before each of them, and after the
last, something may have been forgotten. -/
def Leads (s : Store) (ms : List Machine) (t : Store) : Prop :=
  match ms with
  | [] => t.Remains s
  | m :: rest => m.state.store.Remains s ∧ Leads m.step.state.store rest t

/-- The steps of the machines before each of them lead to it. -/
def Successive (s : Store) (ms : List Machine) : Prop :=
  match ms with
  | [] => True
  | m :: rest => m.state.store.Remains s ∧ Successive m.step.state.store rest

variable {s t u : Store} {m : Machine} {ms ns before after : List Machine}

theorem Successive.behind (h : t.Successive ms) (hremains : t.Remains s) : s.Successive ms := by
  cases ms with
  | nil => trivial
  | cons m rest => exact ⟨h.1.trans hremains, h.2⟩

theorem Leads.behind (h : t.Leads ms u) (hremains : t.Remains s) : s.Leads ms u := by
  cases ms with
  | nil => exact Remains.trans h hremains
  | cons m rest => exact ⟨h.1.trans hremains, h.2⟩

theorem Leads.ahead (h : s.Leads ms t) (hremains : u.Remains t) : s.Leads ms u := by
  induction ms generalizing s with
  | nil => exact hremains.trans h
  | cons m rest ih => exact ⟨h.1, ih h.2⟩

theorem Leads.append (h : s.Leads ms t) (h' : t.Leads ns u) : s.Leads (ms ++ ns) u := by
  induction ms generalizing s with
  | nil => exact h'.behind h
  | cons m rest ih => exact ⟨h.1, ih h.2⟩

theorem Successive.append (h : s.Successive ms) (hleads : s.Leads ms t) (h' : t.Successive ns) :
    s.Successive (ms ++ ns) := by
  induction ms generalizing s with
  | nil => exact h'.behind hleads
  | cons m rest ih => exact ⟨h.1, ih h.2 hleads.2⟩

theorem Successive.split (h : s.Successive ms) (hsplit : ms = before ++ m :: after) :
    s.Leads before m.state.store := by
  subst hsplit
  induction before generalizing s with
  | nil => exact h.1
  | cons first before ih => exact ⟨h.1, ih h.2⟩

theorem Successive.beyond (h : s.Successive ms) (hsplit : ms = before ++ m :: after) :
    m.step.state.store.Successive after := by
  subst hsplit
  induction before generalizing s with
  | nil => exact h.2
  | cons first before ih => exact ih h.2

theorem Successive.take (h : s.Successive ms) (hsplit : ms = before ++ after) : s.Successive before := by
  subst hsplit
  induction before generalizing s with
  | nil => trivial
  | cons first before ih => exact ⟨h.1, ih h.2⟩

/-- What is bound in the end has been bound before, or one of the machines has made a frame for it. -/
theorem Leads.fixed (h : s.Leads ms t)
    (hms : ∀ m ∈ ms, Fixed m.furnished m.state.store.arena m.step.state.store.arena) :
    Fixed (fun h v => ∃ m ∈ ms, m.furnished h v) s.arena t.arena := by
  induction ms generalizing s with
  | nil => exact Remains.fixed h
  | cons m rest ih =>
    obtain ⟨hm, hrest⟩ := List.forall_mem_cons.1 hms
    refine h.1.fixed.trans ((hm.mono fun g v hmade => ?_).trans ((ih h.2 hrest).mono ?_))
    · exact ⟨m, List.mem_cons_self, hmade⟩
    · rintro g v ⟨n, hn, hmade⟩
      exact ⟨n, List.mem_cons_of_mem _ hn, hmade⟩

end Store

/-! ## Runs -/

theorem Session.remains_printResult (i : Interpreter) (v : Value) :
    (printResult i v).2.store.Remains i.store := by
  have hwrite : (i.writeLine v).2.store = i.store := rfl
  unfold printResult
  split <;> rename_i heq <;> rw [heq] at hwrite
  · exact hwrite ▸ Store.remains_discard _ v
  · split <;> exact hwrite ▸ Store.remains_discard _ v

namespace Machine

variable {m : Machine} {i : Interpreter}

theorem step_of_isFinal (h : m.isFinal = true) : m.step = m := by
  obtain ⟨control, _ | ⟨k, stack⟩, i⟩ := m
  · cases control <;> first | rfl | cases h
  · cases control <;> first | rfl | cases h

theorem successive_history (fuel : Nat) (m : Machine) :
    m.state.store.Successive (m.history fuel) ∧ ((m.run fuel).isFinal = true →
      m.state.store.Leads (m.history fuel) (m.run fuel).state.store) := by
  have hlast : ∀ {m : Machine}, m.state.store.Successive [m] ∧ (m.isFinal = true →
      m.state.store.Leads [m] m.state.store) := by
    intro m
    refine ⟨⟨.refl _, trivial⟩, fun hfinal => ⟨.refl _, ?_⟩⟩
    rw [step_of_isFinal hfinal]
    exact .refl _
  induction fuel generalizing m with
  | zero => exact hlast
  | succ fuel ih =>
    unfold Machine.history Machine.run
    by_cases hfinal : m.isFinal = true
    · rw [if_pos hfinal, if_pos hfinal]
      exact hlast
    · rw [if_neg hfinal, if_neg hfinal]
      obtain ⟨hrest, hend⟩ := ih m.step
      exact ⟨⟨.refl _, hrest⟩, fun h => ⟨.refl _, hend h⟩⟩

theorem remains_ended? (h : m.ended? = some i) : m.isFinal = true ∧ i.store.Remains m.state.store := by
  obtain ⟨control, _ | ⟨k, stack⟩, j⟩ := m
  · cases control with
    | done =>
      cases h
      exact ⟨rfl, j.remains_settle⟩
    | yield v | returning v =>
      cases h
      exact ⟨rfl, (j.discard v).remains_settle.trans (Store.remains_discard j.store v)⟩
    | _ => cases h
  · cases control <;> cases h

theorem remains_stopped (h : m.stopped.1.isOver = true) :
    m.isFinal = true ∧ m.stopped.2.store.Remains m.state.store := by
  obtain ⟨control, _ | ⟨k, stack⟩, i⟩ := m
  · cases control with
    | failed failure =>
      refine ⟨rfl, ?_⟩
      change (i.abort failure).2.store.Remains i.store
      unfold Interpreter.abort
      dsimp only
      split <;> exact Store.remains_drain i.store
    | _ => cases h
  · cases control <;> cases h

theorem remains_concluded (h : m.concluded.1.isOver = true) :
    m.isFinal = true ∧ m.concluded.2.store.Remains m.state.store := by
  obtain ⟨control, _ | ⟨k, stack⟩, i⟩ := m
  · have hsettle := ({ i with active := .globals } : Interpreter).remains_settle
    cases control with
    | yield v => exact ⟨rfl, (Session.remains_printResult _ v).trans hsettle⟩
    | failed failure => exact ⟨rfl, hsettle⟩
    | _ => cases h
  · cases control <;> cases h

end Machine

theorem Interpreter.successive_history (fuel : Nat) (i : Interpreter) (program : List Stmt) :
    i.store.Successive (i.history fuel program) ∧ ((i.interpret fuel program).1.isOver = true →
      i.store.Leads (i.history fuel program) (i.interpret fuel program).2.store) := by
  induction program generalizing i with
  | nil =>
    refine ⟨trivial, fun _ => ?_⟩
    unfold Interpreter.interpret
    split <;> exact Store.Remains.refl _
  | cons s rest ih =>
    obtain ⟨hsuccessive, hleads⟩ := Machine.successive_history fuel ⟨.exec s, [], i⟩
    rw [history_cons, interpret_cons]
    generalize Machine.run fuel ⟨.exec s, [], i⟩ = m at hleads
    unfold Machine.further Machine.proceed
    cases hended : m.ended? with
    | none =>
      dsimp only
      rw [List.append_nil]
      refine ⟨hsuccessive, fun hover => ?_⟩
      obtain ⟨hfinal, hremains⟩ := Machine.remains_stopped hover
      exact (hleads hfinal).ahead hremains
    | some j =>
      obtain ⟨hfinal, hremains⟩ := Machine.remains_ended? hended
      have hled := (hleads hfinal).ahead hremains
      obtain ⟨hrest, hend⟩ := ih j
      exact ⟨hsuccessive.append hled hrest, fun hover => hled.append (hend hover)⟩

namespace Session

theorem successive_states (fuel : Nat) (s : Session) (mode : Mode) (source : String) :
    s.interpreter.store.Successive (s.states fuel mode source) ∧
      ∀ status, (s.run fuel mode source).1.outcome = .status status →
        s.interpreter.store.Leads (s.states fuel mode source) (s.run fuel mode source).2.interpreter.store := by
  rw [states_eq, run_eq]
  cases (s.analyze mode source).1 with
  | rejected diagnostics => exact ⟨trivial, fun _ _ => Store.Remains.refl _⟩
  | program tree distances =>
    obtain ⟨hsuccessive, hleads⟩ := (s.interpreter.learn distances).successive_history fuel tree
    exact ⟨hsuccessive, fun status h => hleads (isOver_of_status h)⟩
  | expression e distances =>
    obtain ⟨hsuccessive, hleads⟩ :=
      Machine.successive_history fuel ⟨.eval e, [], s.interpreter.learn distances⟩
    refine ⟨hsuccessive, fun status h => ?_⟩
    have hover : (Session.runExpression fuel (s.interpreter.learn distances) e).1.isOver = true :=
      isOver_of_status h
    change s.interpreter.store.Leads _ (Session.runExpression fuel (s.interpreter.learn distances) e).2.store
    rw [runExpression_eq] at hover ⊢
    obtain ⟨hfinal, hremains⟩ := Machine.remains_concluded hover
    exact (hleads hfinal).ahead hremains

/-- The states of a session follow one another from one source to the next. -/
theorem successive_history (fuel : Nat) (s : Session) (inputs : List (Mode × String)) :
    s.interpreter.store.Successive (s.history fuel inputs) := by
  induction inputs generalizing s with
  | nil => trivial
  | cons input rest ih =>
    obtain ⟨mode, source⟩ := input
    obtain ⟨hsuccessive, hleads⟩ := successive_states fuel s mode source
    unfold Session.history
    rcases hrun : s.run fuel mode source with ⟨⟨outcome, diagnostics⟩, s'⟩
    rw [hrun] at hleads
    cases outcome with
    | status status => exact hsuccessive.append (hleads status rfl) (ih s')
    | crashed | exhausted =>
      dsimp only
      rwa [List.append_nil]

end Session
end Lox
