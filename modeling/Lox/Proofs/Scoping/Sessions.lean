import Lox.Proofs.Scoping.Resolution
import Lox.Proofs.Scoping.Runs
import Lox.Proofs.Scoping.Trees
import Lox.Proofs.Splicing.Sessions
import Lox.Proofs.Store.WellFormed

/-!
# Scopes agree with frames

Whatever a session is fed, every reference that it follows has been resolved from where it stands, and
resolution has counted the links to the frame which has been made for the scope of the name. The identities
of the references are different, so that what is learned from one source leaves that from others alone.
-/
namespace Lox

open Machine (SoundFrom)
open Surrounding (Nested)

variable {os os' : List Occurrence} {past : Past} {n m : Nat}

/-! ## What is learned of references -/

theorem Occurrence.mem_distances {entry : Nat × Nat} :
    entry ∈ distances os ↔ ∃ o ∈ os, o.distance? = some entry := by
  unfold distances
  rw [List.mem_reverse, List.mem_filterMap]

namespace Interpreter

variable {i : Interpreter}

/-- What is said of an identity in one way only is what is known of it then. -/
theorem getElem?_learn_of_mem {d : List (Nat × Nat)} {id x : Nat} (hmem : (id, x) ∈ d)
    (hunique : ∀ entry ∈ d, entry.1 = id → entry.2 = x) : (i.learn d).distances[id]? = some x := by
  induction d generalizing i with
  | nil => cases hmem
  | cons entry rest ih =>
    have hrest : ∀ e ∈ rest, e.1 = id → e.2 = x := fun e he => hunique e (List.mem_cons_of_mem _ he)
    by_cases hlater : (id, x) ∈ rest
    · exact ih (i := i.learn [entry]) hlater hrest
    · have hnot : ∀ e ∈ rest, e.1 ≠ id := by
        rintro ⟨id', x'⟩ he rfl
        exact hlater (hrest _ he rfl ▸ he)
      obtain rfl | h := List.mem_cons.1 hmem
      · refine (getElem?_learn_of_not_mem (i := i.learn [(id, x)]) hnot).trans ?_
        exact Std.TreeMap.getElem?_insert_self
      · exact absurd h hlater

/-- New references are learned, and the others stay known. -/
theorem Knows.learn (hknows : i.Knows os) (hbounds : ∀ o ∈ os, o.1.id < n)
    (hnone : ∀ id, n ≤ id → i.distances[id]? = none) (hdistinct : Distinct n m (os'.map Prod.fst))
    (hnested : ∀ o ∈ os', Nested o.2) : (i.learn (Occurrence.distances os')).Knows (os ++ os') := by
  have hid : ∀ entry ∈ Occurrence.distances os', ∃ o ∈ os', o.1.id = entry.1 ∧
      Surrounding.distance? o.1.name.text o.2 = some entry.2 := by
    intro entry hentry
    obtain ⟨o, ho, hd⟩ := Occurrence.mem_distances.1 hentry
    obtain ⟨d, haway, rfl⟩ := Option.map_eq_some_iff.1 hd
    exact ⟨o, ho, rfl, haway⟩
  have hbelow : ∀ o ∈ os', n ≤ o.1.id := fun o ho => (hdistinct.bounds o.1 (List.mem_map_of_mem ho)).1
  have hnodup : (os'.map fun o => o.1.id).Nodup := by
    have h := hdistinct.nodup
    rwa [List.map_map] at h
  refine ⟨List.forall_mem_append.2 ⟨fun o ho => ?_, fun o ho => ?_⟩,
    List.forall_mem_append.2 ⟨hknows.nested, hnested⟩⟩
  · rw [getElem?_learn_of_not_mem, hknows.distances o ho]
    intro entry hentry heq
    obtain ⟨o', ho', hsame, -⟩ := hid entry hentry
    have := hbounds o ho
    have := hbelow o' ho'
    omega
  · have hsame : ∀ entry ∈ Occurrence.distances os', entry.1 = o.1.id →
        Surrounding.distance? o.1.name.text o.2 = some entry.2 := by
      intro entry hentry heq
      obtain ⟨o', ho', hid, hd⟩ := hid entry hentry
      obtain rfl : o' = o := List.inj_on_of_nodup_map hnodup ho' ho (hid.trans heq)
      exact hd
    cases hd : Surrounding.distance? o.1.name.text o.2 with
    | none =>
      rw [getElem?_learn_of_not_mem, hnone _ (hbelow o ho)]
      intro entry hentry heq
      exact absurd (hd.symm.trans (hsame entry hentry heq)) nofun
    | some d =>
      refine getElem?_learn_of_mem (Occurrence.mem_distances.2 ⟨o, ho, ?_⟩) fun entry hentry heq => ?_
      · unfold Occurrence.distance?
        rw [hd]
        rfl
      · exact (Option.some.inj (hd.symm.trans (hsame entry hentry heq))).symm

/-- More references are known. -/
theorem Orderly.learn (h : i.Orderly os past) {d : List (Nat × Nat)} (hos : os ⊆ os')
    (hknows : (i.learn d).Knows os') : (i.learn d).Orderly os' past :=
  ⟨h.store.mono fun _ hv => hv.imp fun _ _ hr => hos hr, h.issued, hknows⟩

end Interpreter

/-! ## Sources -/

/-- The references of what is executed. -/
def Analysis.occurrences : Analysis → List Occurrence
  | rejected _ => []
  | program tree _ => Stmt.occurrencesAll [] tree
  | expression e _ => e.occurrences []

namespace Session

/-- The references of what the session executes when it is fed some sources. -/
def occurrences (fuel : Nat) (s : Session) : List (Mode × String) → List Occurrence
  | [] => []
  | (mode, source) :: rest =>
    (s.analyze mode source).1.occurrences ++
      match s.run fuel mode source with
      | (⟨.status _, _⟩, s) => s.occurrences fuel rest
      | _ => []

variable {s : Session}

/-- The session is between runs, and what is known is about references that it has been fed. -/
structure Orderly (os : List Occurrence) (past : Past) (s : Session) : Prop where
  interpreter : s.interpreter.Orderly os past
  bounds : ∀ o ∈ os, o.1.id < s.nextId

/-- Every source has references of its own. -/
theorem distinct_analyze (s : Session) (mode : Mode) (source : String) :
    Distinct s.nextId (s.analyze mode source).2 ((s.analyze mode source).1.occurrences.map Prod.fst) := by
  cases mode with
  | program =>
    obtain ⟨diagnostics, h⟩ | ⟨tree, distances, hparses, -, h⟩ := analyze_program_cases s source
    · rw [h]
      exact .nil
    · rw [h]
      change Distinct _ _ ((Stmt.occurrencesAll [] tree).map Prod.fst)
      rw [Stmt.occurrencesAll_fst]
      have h := (distinct_parseProgram s.nextId (tokenize source).1).2
      rwa [hparses.2] at h
  | expression =>
    obtain ⟨diagnostics, h⟩ | ⟨e, distances, -, hparses, -, h⟩ := analyze_expression_cases s source
    · rw [h]
      exact .nil
    · rw [h]
      change Distinct _ _ ((e.occurrences []).map Prod.fst)
      rw [Expr.occurrences_fst]
      have h := (distinct_parseExpression s.nextId (tokenize source).1).2
      rwa [hparses] at h

theorem distinct_occurrences (fuel : Nat) (s : Session) (inputs : List (Mode × String)) :
    ∃ k, s.nextId ≤ k ∧ Distinct s.nextId k ((s.occurrences fuel inputs).map Prod.fst) := by
  induction inputs generalizing s with
  | nil => exact ⟨s.nextId, le_rfl, .nil⟩
  | cons input rest ih =>
    obtain ⟨mode, source⟩ := input
    have hle := nextId_le_analyze s mode source
    have hfirst := distinct_analyze s mode source
    have hnext : (s.run fuel mode source).2.nextId = (s.analyze mode source).2 :=
      congrArg (fun r : Report × Session => r.2.nextId) (run_eq fuel s mode source)
    unfold Session.occurrences
    rw [List.map_append]
    rcases hrun : s.run fuel mode source with ⟨⟨outcome, diagnostics⟩, s'⟩
    rw [hrun] at hnext
    cases outcome with
    | status status =>
      obtain ⟨k, hk, hrest⟩ := ih s'
      dsimp only at hnext
      rw [hnext] at hk hrest
      exact ⟨k, hle.trans hk, hfirst.append hrest hle hk⟩
    | crashed | exhausted => exact ⟨_, hle, hfirst.append .nil hle le_rfl⟩

/-- The references of a source that is accepted are known when it is executed. -/
theorem Orderly.accept {d : List (Nat × Nat)} (hs : s.Reached) (ho : s.Orderly os past)
    (hd : d = Occurrence.distances os') (hdistinct : Distinct s.nextId m (os'.map Prod.fst))
    (hle : s.nextId ≤ m) (hnested : ∀ o ∈ os', Nested o.2) :
    (s.interpreter.learn d).Orderly (os ++ os') past ∧ ∀ o ∈ os ++ os', o.1.id < m := by
  subst hd
  have hknows := ho.interpreter.knows.learn ho.bounds hs.closed.distances hdistinct hnested
  exact ⟨ho.interpreter.learn (List.subset_append_left _ _) hknows, List.forall_mem_append.2
    ⟨fun o hmem => (ho.bounds o hmem).trans_le hle, fun o hmem =>
      (hdistinct.bounds o.1 (List.mem_map_of_mem hmem)).2⟩⟩

theorem isOver_of_status {ending : Ending} {status : Status}
    (h : (Report.ofEnding ending).outcome = .status status) : ending.isOver = true := by
  cases ending <;> first | rfl | cases h

theorem orderly_run (fuel : Nat) (mode : Mode) (source : String) (hs : s.Reached) (ho : s.Orderly os past) :
    let os' := os ++ (s.analyze mode source).1.occurrences
    SoundFrom os' past (s.states fuel mode source) ∧
      ∀ status, (s.run fuel mode source).1.outcome = .status status →
        (s.run fuel mode source).2.Orderly os' (past.after (s.states fuel mode source)) := by
  intro os'
  obtain ⟨a, b, u, hidle⟩ := hs.idle
  have hle := nextId_le_analyze s mode source
  have hdistinct := distinct_analyze s mode source
  rw [states_eq, run_eq]
  have hrejected : ∀ diagnostics, (s.analyze mode source).1 = .rejected diagnostics →
      s.interpreter.Orderly os' past ∧ ∀ o ∈ os', o.1.id < (s.analyze mode source).2 := by
    intro diagnostics h
    have hsame : os' = os := (congrArg (os ++ ·.occurrences) h).trans (List.append_nil os)
    rw [hsame]
    exact ⟨ho.interpreter, fun o hmem => (ho.bounds o hmem).trans_le hle⟩
  cases mode with
  | program =>
    obtain ⟨diagnostics, h⟩ | ⟨tree, distances, hparses, hresolved, h⟩ := analyze_program_cases s source
    · obtain ⟨hinterpreter, hbounds⟩ := hrejected diagnostics h
      rw [h]
      exact ⟨trivial, fun _ _ => ⟨hinterpreter, hbounds⟩⟩
    · have hnew : os' = os ++ Stmt.occurrencesAll [] tree := congrArg (os ++ ·.occurrences) h
      rw [h] at hdistinct
      obtain ⟨hlearn, hbounds⟩ := ho.accept hs (distances_of_resolveProgram hparses.fits hresolved) hdistinct
        hle (Stmt.nestedAll hparses.fits .nil)
      rw [← hnew] at hlearn hbounds
      have hfits : Stmt.FitsAll (Among os') [] tree := hparses.fits.imp fun o hmem _ =>
        hnew ▸ List.mem_append_right os hmem
      obtain ⟨hsound, hover⟩ := Interpreter.orderly_interpret fuel tree (hidle.learn distances) hlearn hfits
      rw [h]
      exact ⟨hsound, fun status hstatus => ⟨hover (isOver_of_status hstatus), hbounds⟩⟩
  | expression =>
    obtain ⟨diagnostics, h⟩ | ⟨e, distances, -, hparses, hresolved, h⟩ := analyze_expression_cases s source
    · obtain ⟨hinterpreter, hbounds⟩ := hrejected diagnostics h
      rw [h]
      exact ⟨trivial, fun _ _ => ⟨hinterpreter, hbounds⟩⟩
    · have hnew : os' = os ++ e.occurrences [] := congrArg (os ++ ·.occurrences) h
      have hread := reading_of_parseExpression hparses
      rw [h] at hdistinct
      obtain ⟨hlearn, hbounds⟩ := ho.accept hs (distances_of_resolveExpression hresolved) hdistinct hle
        (Expr.nested .nil e)
      rw [← hnew] at hlearn hbounds
      have hany : e.Fits fun _ => True := hread.fits spelled_words
      have hfits : e.Fits (Among os' []) := Expr.Fits.imp_occurrences (P := Anywhere) hany fun o hmem _ =>
        hnew ▸ List.mem_append_right os hmem
      obtain ⟨hsound, hover⟩ := Interpreter.orderly_runExpression fuel (hidle.learn distances) hlearn hfits
      rw [h]
      exact ⟨hsound, fun status hstatus => ⟨hover (isOver_of_status hstatus), hbounds⟩⟩

theorem soundFrom_history (fuel : Nat) (inputs : List (Mode × String)) (hs : s.Reached)
    (ho : s.Orderly os past) :
    SoundFrom (os ++ s.occurrences fuel inputs) past (s.history fuel inputs) := by
  induction inputs generalizing s os past with
  | nil => trivial
  | cons input rest ih =>
    obtain ⟨mode, source⟩ := input
    obtain ⟨hsound, hended⟩ := orderly_run fuel mode source hs ho
    have hreached : ∀ status, (s.run fuel mode source).1.outcome = .status status →
        (s.run fuel mode source).2.Reached := fun status h => hs.run fuel mode source h
    unfold Session.history Session.occurrences
    rw [← List.append_assoc]
    refine (hsound.mono (List.subset_append_left _ _)).append ?_
    rcases hrun : s.run fuel mode source with ⟨⟨outcome, diagnostics⟩, s'⟩
    rw [hrun] at hended hreached
    cases outcome with
    | status status => exact ih (hreached status rfl) (hended status rfl)
    | crashed | exhausted => trivial

/-- A new session stores built-in functions only. -/
theorem each_new (sink : Sink) (clock : Clock) {V : Value → Prop} (hV : ∀ n : Native, V (.native n)) :
    (Session.new sink clock).interpreter.store.Each V := by
  have hempty : Store.empty.Each V := by
    refine ⟨fun h f hf name v hv => ?_, nofun⟩
    obtain ⟨-, rfl⟩ := Arena.frame?_new hf
    cases hv
  have hnames : ∀ n : Native, n.name ≠ "this" ∧ n.name ≠ "super" := by
    intro n
    cases n <;> decide
  have hdefine : ∀ (natives : List Native) (t : Store), t.Each V →
      (natives.foldl (fun s n => s.define .globals n.name (.native n)) t).Each V := by
    intro natives
    induction natives with
    | nil => exact fun t ht => ht
    | cons n rest ih =>
      obtain ⟨hthis, hsuper⟩ := hnames n
      exact fun t ht => ih _ (ht.define .globals (hV n) ⟨fun h => absurd h hthis, fun h => absurd h hsuper⟩)
  exact hdefine Native.all Store.empty hempty

theorem orderly_new (sink : Sink) (clock : Clock) : (Session.new sink clock).Orderly [] .empty := by
  have hstore := each_new sink clock (V := Value.Placed (Among [])
    (Past.empty.standing (Session.new sink clock).interpreter.store.arena)) fun _ => trivial
  exact ⟨⟨hstore, List.forall_mem_nil _, List.forall_mem_nil _, List.forall_mem_nil _⟩, List.forall_mem_nil _⟩

/-- Whatever a session is fed, all references of its sources are different, and so are the frames that are
made. Every reference that is followed leads to where it belongs, and frames and functions are made where
the code stands that is executed. A variable is undefined only if resolution has found no scope for it and
the global frame does not bind it. -/
theorem references_of_history (sink : Sink) (clock : Clock) (fuel : Nat) (inputs : List (Mode × String)) :
    let s := Session.new sink clock
    ((s.occurrences fuel inputs).map fun o => o.1.id).Nodup ∧
      ((Past.empty.after (s.history fuel inputs)).openings.map Opening.frame).Nodup ∧
      ∀ before m after, s.history fuel inputs = before ++ m :: after →
        (∀ ref, m.reference? = some ref → ∃ around h,
          m.Follows (s.occurrences fuel inputs) (Past.empty.after before) ref around h) ∧
        m.Lexical (Past.empty.after before) ∧
        ∀ line name, m.step.control = .failed (.runtime line (.undefinedVariable name)) →
          m.control = .failed (.runtime line (.undefinedVariable name)) ∨
            ∃ ref, m.reference? = some ref ∧ name = ref.name.text ∧
              m.state.distances[ref.id]? = none ∧ m.state.store.arena.find? .globals name = none := by
  intro s
  obtain ⟨k, -, hdistinct⟩ := distinct_occurrences fuel s inputs
  have hids := hdistinct.nodup
  rw [List.map_map] at hids
  have hsound := soundFrom_history fuel inputs (.new sink clock) (orderly_new sink clock)
  rw [List.nil_append] at hsound
  refine ⟨hids, hsound.nodup List.nodup_nil, fun before m after hsplit => ?_⟩
  have hm := hsound.split hsplit
  refine ⟨hm.references, hm.lexical, fun line name hfailed => ?_⟩
  obtain hbefore | ⟨ref, href, hlookup, hcause⟩ | ⟨callee, arguments, k, -, hstep⟩ :=
    Machine.raises_step hfailed rfl
  · exact .inl hbefore
  · cases hcause
    obtain ⟨around, h, hfollows⟩ := hm.references ref href
    have hnone := hfollows.reads.symm.trans hlookup
    refine .inr ⟨ref, href, rfl, ?_⟩
    cases hd : m.state.distances[ref.id]? with
    | none => exact ⟨rfl, hfollows.global hd ▸ hnone⟩
    | some d =>
      obtain ⟨-, scope, v, -, -, -, hv⟩ := hfollows.found d hd
      exact absurd (hv.symm.trans hnone) nofun
  · rw [hstep] at hfailed
    obtain ⟨other, hother⟩ := Machine.outlived_of_call hfailed rfl
    cases hother

/-- A variable of a function that has returned. -/
theorem references_of_history_returned :
    let s := Session.new {} ⟨fun _ => 0, 0, 0⟩
    let inputs := [(Mode.program, "fun f() { var a = 1; fun g() { return a; } return g; } f()();")]
    ∃ before m after ref around h, s.history 99 inputs = before ++ m :: after ∧
      m.reference? = some ref ∧ m.state.distances[ref.id]? = some 1 ∧
      m.Follows (s.occurrences 99 inputs) (Past.empty.after before) ref around h := by
  intro s inputs
  have hsome : ((s.history 99 inputs).any fun m =>
      m.reference?.any fun ref => m.state.distances[ref.id]? == some 1) = true := by decide +kernel
  obtain ⟨m, hm, hany⟩ := List.any_eq_true.1 hsome
  obtain ⟨ref, href, hd⟩ := (Option.any_eq_true _ _).1 hany
  obtain ⟨before, after, hsplit⟩ := List.append_of_mem hm
  obtain ⟨-, -, hall⟩ := references_of_history {} ⟨fun _ => 0, 0, 0⟩ 99 inputs
  obtain ⟨around, h, hfollows⟩ := (hall before m after hsplit).1 ref href
  exact ⟨before, m, after, ref, around, h, hsplit, href, eq_of_beq hd, hfollows⟩

end Session
end Lox
