import Lox.Proofs.Reclamation.History
import Lox.Proofs.Reclamation.Steps

/-!
# Twin sessions

Between the top-level statements the two stores are swept, each at its own times; nothing is held
then. What both made is recorded, so that a frame and its image are known to be made for the same
part of the program.
-/
namespace Lox

abbrev Record := List (Handle × Region)

/-- The frames were made for the same region. -/
def Recorded (a b : Record) (h g : Handle) : Prop :=
  h = .globals ∧ g = .globals ∨ ∃ r, (h, r) ∈ a ∧ (g, r) ∈ b

namespace Recorded

theorem mono {a b a' b' : Record} {h g : Handle} (hr : Recorded a b h g) (ha : a ⊆ a') (hb : b ⊆ b') :
    Recorded a' b' h g :=
  hr.imp_right fun ⟨r, hh, hg⟩ => ⟨r, ha hh, hb hg⟩

end Recorded

section mono

variable {P Q : Handle → Handle → Prop} {ρ : Renaming} {extra : List ObjectId}
  {held : List Value} {acts : List Activation}

theorem Store.Mirror.mono {s u : Store} (hm : Store.Mirror P ρ s u held) (hPQ : ∀ h g, P h g → Q h g) :
    Store.Mirror Q ρ s u held :=
  ⟨hm.globals, hm.frames, hm.apart, fun h hc => hPQ _ _ (hm.paired h hc), hm.objects, hm.size, hm.nextStamp⟩

theorem Interpreter.Twin.mono {i j : Interpreter} (ht : i.Twin P ρ j extra held acts)
    (hPQ : ∀ h g, P h g → Q h g) : i.Twin Q ρ j extra held acts :=
  ⟨⟨ht.store.healthy, ht.store.shadow, ht.store.mirror.mono hPQ, ht.store.keeps⟩, ht.active, ht.image,
    ht.distances, ht.sink, ht.clock⟩

theorem Machine.Twin.mono {m n : Machine} (ht : Machine.Twin P ρ m n) (hPQ : ∀ h g, P h g → Q h g) :
    Machine.Twin Q ρ m n :=
  ⟨ht.control, ht.stack, ⟨ht.setting.twin.mono hPQ, ht.setting.chained⟩, ht.fits⟩

end mono

namespace Machine

/-- One step, with what it makes recorded. -/
theorem Twin.stepRecorded {a b : Record} {ρ : Renaming} {m n : Machine}
    (ht : Twin (Recorded a b) ρ m n) :
    ∃ ρ', Twin (Recorded (a ++ m.created) (b ++ n.created)) ρ' m.step n.step := by
  have hwide : Twin (Recorded (a ++ m.created) (b ++ n.created)) ρ m n :=
    ht.mono fun _ _ hr => hr.mono (List.subset_append_left _ _) (List.subset_append_left _ _)
  exact hwide.step fun h g r hh hg =>
    .inr ⟨r, List.mem_append_right _ hh, List.mem_append_right _ hg⟩

/-- The machines of two histories are twins, each with what was made before. -/
inductive Alongside : Record → Record → List Machine → List Machine → Prop where
  | nil {a b} : Alongside a b [] []
  | cons {a b ρ m n ms ns} (ht : Twin (Recorded a b) ρ m n)
      (hrest : Alongside (a ++ m.created) (b ++ n.created) ms ns) : Alongside a b (m :: ms) (n :: ns)

theorem Alongside.append {a b : Record} {ms ns ms' ns' : List Machine} (h : Alongside a b ms ns)
    (h' : Alongside (a ++ ms.flatMap created) (b ++ ns.flatMap created) ms' ns') :
    Alongside a b (ms ++ ms') (ns ++ ns') := by
  induction h with
  | nil =>
    rw [List.flatMap_nil, List.append_nil, List.append_nil] at h'
    exact h'
  | cons ht _ ih =>
    rw [List.flatMap_cons, List.flatMap_cons, ← List.append_assoc, ← List.append_assoc] at h'
    exact .cons ht (ih h')

/-- Every state of the one history has its twin in the other. -/
theorem Alongside.split {a b : Record} {ms ns before after : List Machine} {m : Machine}
    (h : Alongside a b ms ns) (hsplit : ms = before ++ m :: after) :
    ∃ before' n after' ρ, ns = before' ++ n :: after' ∧
      Twin (Recorded (a ++ before.flatMap created) (b ++ before'.flatMap created)) ρ m n := by
  induction h generalizing before with
  | nil => simp at hsplit
  | @cons a b ρ m' n ms ns ht _ ih =>
    cases before with
    | nil =>
      obtain ⟨rfl, rfl⟩ := List.cons.inj hsplit
      refine ⟨[], n, ns, ρ, rfl, ?_⟩
      rw [List.flatMap_nil, List.append_nil, List.append_nil]
      exact ht
    | cons first before =>
      obtain ⟨rfl, htail⟩ := List.cons.inj hsplit
      obtain ⟨before', n', after', ρ', rfl, ht'⟩ := ih htail
      refine ⟨n :: before', n', after', ρ', rfl, ?_⟩
      rw [List.flatMap_cons, List.flatMap_cons, ← List.append_assoc, ← List.append_assoc]
      exact ht'

theorem isFinal_rename {P : Handle → Handle → Prop} {ρ : Renaming} {m n : Machine}
    (ht : Twin P ρ m n) : n.isFinal = m.isFinal := by
  obtain ⟨control, stack, i⟩ := m
  obtain ⟨control', stack', j⟩ := n
  obtain ⟨hcontrol, hstack, -, -⟩ := ht
  dsimp only at hcontrol hstack
  subst hcontrol hstack
  cases control <;> first | rfl | exact List.isEmpty_map

/-- Both machines run alongside each other. -/
theorem Twin.run {a b : Record} {ρ : Renaming} {m n : Machine} (ht : Twin (Recorded a b) ρ m n)
    (fuel : Nat) :
    Alongside a b (m.history fuel) (n.history fuel) ∧
      ∃ ρ', Twin (Recorded (a ++ (m.history fuel).flatMap created) (b ++ (n.history fuel).flatMap created))
        ρ' (m.run fuel) (n.run fuel) := by
  have hlast : ∀ {a b : Record} {ρ : Renaming} {m n : Machine}, Twin (Recorded a b) ρ m n →
      Alongside a b [m] [n] ∧ ∃ ρ', Twin (Recorded (a ++ [m].flatMap created) (b ++ [n].flatMap created))
        ρ' m n := fun ht => ⟨.cons ht .nil, _, ht.mono fun _ _ hr =>
          hr.mono (List.subset_append_left _ _) (List.subset_append_left _ _)⟩
  induction fuel generalizing a b ρ m n with
  | zero => exact hlast ht
  | succ fuel ih =>
    unfold Machine.history Machine.run
    rw [isFinal_rename ht]
    by_cases hfinal : m.isFinal = true
    · rw [if_pos hfinal, if_pos hfinal, if_pos hfinal, if_pos hfinal]
      exact hlast ht
    · rw [if_neg hfinal, if_neg hfinal, if_neg hfinal, if_neg hfinal]
      obtain ⟨ρ', hstep⟩ := ht.stepRecorded
      obtain ⟨halong, ρ'', hrun⟩ := ih hstep
      refine ⟨.cons ht halong, ρ'', ?_⟩
      rw [List.flatMap_cons, List.flatMap_cons, ← List.append_assoc, ← List.append_assoc]
      exact hrun

end Machine

namespace Interpreter

open Store (Pinned Mirror)

/-- Nothing is held and nothing runs. -/
abbrev Idle (P : Handle → Handle → Prop) (i j : Interpreter) : Prop := ∃ ρ, i.Twin P ρ j [] [] []

variable {P : Handle → Handle → Prop} {ρ : Renaming} {i j : Interpreter} {extra : List ObjectId}
  {v : Value}

/-- What is shown stays on both sides as long as somebody counts it. -/
structure Showing (P : Handle → Handle → Prop) (ρ : Renaming) (i j : Interpreter)
    (extra : List ObjectId) (shown : List Value) : Prop where
  twin : i.Twin P ρ j extra [] []
  mirror : Mirror P ρ i.store j.store shown
  counted : ∀ id ∈ Value.objects shown, id ∈ extra

namespace Showing

variable {shown : List Value}

/-- Frames and objects go on either side. -/
theorem remains {s u : Store} (hs : Showing P ρ i j extra shown)
    (hstore : Store.Twin P ρ s u extra [] []) (hleft : s.Remains i.store) (hright : u.Remains j.store)
    (hframes : ∀ h f, j.store.arena.frame? h = some f → u.arena.frame? h = some f) :
    Showing P ρ { i with store := s } { j with store := u } extra shown :=
  ⟨⟨hstore, hs.twin.active, hs.twin.image, hs.twin.distances, hs.twin.sink, hs.twin.clock⟩,
    hs.mirror.remains hleft hright hframes hstore.shadow.accounted
      (fun id hid => List.mem_append_left _ (hs.counted id hid)) fun _ hw => .held hw, hs.counted⟩

theorem drain_left (hs : Showing P ρ i j extra shown) : Showing P ρ i.drain j extra shown := by
  refine hs.remains ?_ (Store.remains_drain _) (.refl _) fun _ _ h => h
  exact hs.twin.store.remains (Store.remains_drain _) (.refl _) (fun _ => rfl) rfl
    (hs.twin.store.healthy.drain nofun) hs.twin.store.shadow nofun

theorem drain_right (hs : Showing P ρ i j extra shown) : Showing P ρ i j.drain extra shown := by
  have hkeeps : j.store.drain.2.arena = j.store.arena := by
    rw [Store.drain_of_not_reclaims hs.twin.store.keeps]
  refine hs.remains ?_ (.refl _) (Store.remains_drain _) fun _ _ h => hkeeps ▸ h
  exact hs.twin.store.remains (.refl _) (Store.remains_drain _) (fun _ => by rw [hkeeps])
    (by rw [hkeeps]) hs.twin.store.healthy (hs.twin.store.shadow.drain nofun) nofun

theorem collect_left (hs : Showing P ρ i j extra shown) (roots : List Handle) :
    Showing P ρ { i with store := (i.store.collect roots).2 } j extra shown :=
  hs.remains (hs.twin.store.collect_left roots) (Store.remains_collect _ _) (.refl _) fun _ _ h => h

theorem collect_right (hs : Showing P ρ i j extra shown) (roots : List Handle) :
    Showing P ρ i { j with store := (j.store.collect roots).2 } extra shown := by
  refine hs.remains (hs.twin.store.collect_right roots) (.refl _) (Store.remains_collect _ _)
    fun h f hf => ?_
  rw [Store.collect_of_not_reclaims hs.twin.store.keeps]
  exact hf

theorem settle_cases (i : Interpreter) :
    i.settle = i.drain ∨ ∃ roots, i.settle = { i.drain with store := (i.drain.store.collect roots).2 } := by
  unfold Interpreter.settle
  dsimp only
  split
  · exact .inr ⟨_, rfl⟩
  · exact .inl rfl

theorem settle_left (hs : Showing P ρ i j extra shown) : Showing P ρ i.settle j extra shown := by
  obtain hi | ⟨roots, hi⟩ := settle_cases i
  · exact hi ▸ hs.drain_left
  · exact hi ▸ hs.drain_left.collect_left roots

theorem settle_right (hs : Showing P ρ i j extra shown) : Showing P ρ i j.settle extra shown := by
  obtain hj | ⟨roots, hj⟩ := settle_cases j
  · exact hj ▸ hs.drain_right
  · exact hj ▸ hs.drain_right.collect_right roots

/-- Each side is settled at its own times. -/
theorem settle (hs : Showing P ρ i j extra shown) : Showing P ρ i.settle j.settle extra shown :=
  hs.settle_left.settle_right

end Showing

/-- Nothing is shown. -/
theorem Twin.showNothing (ht : i.Twin P ρ j extra [] []) : Showing P ρ i j extra [] :=
  ⟨ht, ht.store.mirror, nofun⟩

theorem Twin.settle (ht : i.Twin P ρ j extra [] []) : i.settle.Twin P ρ j.settle extra [] [] :=
  ht.showNothing.settle.twin

/-- What is held is counted by somebody who makes no use of it any more. -/
theorem Twin.showing (ht : i.Twin P ρ j [] [v] []) : Showing P ρ i j (Value.objects [v]) [v] := by
  have hnone : i.Twin P ρ j [] [] [] := ht.forget
  have hcount : ∀ id, (Value.objects [v] ++ Value.objects []).count id ≤
      ([] ++ Value.objects [v]).count id := fun id => by
    rw [show Value.objects [] = [] from rfl, List.append_nil, List.nil_append]
  have healthy : i.store.Healthy (Value.objects [v]) [] [] :=
    ht.store.healthy.rearrange hcount nofun
  rw [← Value.objects_rename ρ [v]] at hcount
  have shadow : j.store.Healthy (Value.objects ([v].map (Value.rename ρ))) [] [] :=
    ht.store.shadow.rearrange hcount nofun
  rw [Value.objects_rename] at shadow
  exact ⟨⟨⟨healthy, shadow, hnone.store.mirror, ht.store.keeps⟩, ht.active, ht.image, ht.distances,
    ht.sink, ht.clock⟩, ht.store.mirror, fun _ h => h⟩

theorem Showing.discard (hs : Showing P ρ i j (Value.objects [v]) [v]) :
    (i.discard v).Twin P ρ (j.discard (v.rename ρ)) [] [] [] := by
  have healthy : i.store.Healthy (Value.objects [v] ++ []) [] [] := by
    rw [List.append_nil]
    exact hs.twin.store.healthy
  have shadow : j.store.Healthy (Value.objects [v.rename ρ] ++ []) [] [] := by
    rw [List.append_nil, show [v.rename ρ] = [v].map (Value.rename ρ) from rfl, Value.objects_rename]
    exact hs.twin.store.shadow
  refine ⟨?_, hs.twin.active, hs.twin.image, hs.twin.distances, hs.twin.sink, hs.twin.clock⟩
  change Store.Twin P ρ (i.store.discard v) (j.store.discard (v.rename ρ)) [] [] []
  rw [← Store.discardAll_singleton, ← Store.discardAll_singleton]
  exact hs.twin.store.remains (Store.remains_discardObjects _ _) (Store.remains_discardObjects _ _)
    (fun _ => rfl) rfl healthy.discardObjects shadow.discardObjects nofun

theorem Showing.writeLine (hs : Showing P ρ i j (Value.objects [v]) [v]) :
    (j.writeLine (v.rename ρ)).1 = (i.writeLine v).1 ∧
      Showing P ρ (i.writeLine v).2 (j.writeLine (v.rename ρ)).2 (Value.objects [v]) [v] := by
  have hdisplay := hs.mirror.display hs.twin.store.healthy.accounted
    (fun id hid => List.mem_append_left _ (hs.counted id hid)) (.held List.mem_cons_self)
  unfold Interpreter.writeLine Interpreter.write
  rw [hdisplay, hs.twin.sink]
  exact ⟨rfl, ⟨hs.twin.store, hs.twin.active, hs.twin.image, hs.twin.distances, rfl, hs.twin.clock⟩,
    hs.mirror, hs.counted⟩

/-! ## Runs -/

open Machine (Alongside created)

/-- Both runs ended in the same way. After a failure and at the end of a program nothing is left
running. -/
structure Ended (P : Handle → Handle → Prop) (r q : Ending × Interpreter) : Prop where
  ending : q.1 = r.1
  sink : q.2.sink = r.2.sink
  clock : q.2.clock = r.2.clock
  idle : r.1 = .completed ∨ (∃ failure, r.1 = .failed failure) → Idle P r.2 q.2

theorem Ended.of_idle {e : Ending} (ht : i.Twin P ρ j [] [] []) : Ended P (e, i) (e, j) :=
  ⟨rfl, ht.sink, ht.clock, fun _ => ⟨ρ, ht⟩⟩

/-- A machine that nothing has been done by yet, or that has come to its end. -/
theorem Twin.start {c : Control} (ht : i.Twin P ρ j [] [] []) (hheld : c.held = [])
    (hc : c.rename ρ = c) : Machine.Twin P ρ ⟨c, [], i⟩ ⟨c, [], j⟩ := by
  refine ⟨hc.symm, rfl, ⟨?_, trivial⟩, fun _ _ => trivial⟩
  dsimp only
  rw [hheld]
  exact ht

theorem Twin.abort (ht : i.Twin P ρ j [] [] []) (failure : Failure) :
    Ended P (i.abort failure) (j.abort failure) := by
  have hglobals : Interpreter.Twin P ρ { i with active := .globals } { j with active := .globals }
      [] [] [] := ⟨ht.store, rfl, ht.image_globals.symm, ht.distances, ht.sink, ht.clock⟩
  have hdrain := hglobals.drain (fun a ha => by cases ha)
  unfold Interpreter.abort
  dsimp only
  rw [hdrain.sink]
  cases (({ i with active := .globals } : Interpreter).drain).sink.flush with
  | none => exact .of_idle hdrain
  | some cause => exact .of_idle hdrain

theorem interpret_alongside {a b : Record} (program : List Stmt) (fuel : Nat)
    (hidle : Idle (Recorded a b) i j) :
    Alongside a b (i.history fuel program) (j.history fuel program) ∧
      Ended (Recorded (a ++ (i.history fuel program).flatMap created)
        (b ++ (j.history fuel program).flatMap created))
        (i.interpret fuel program) (j.interpret fuel program) := by
  induction program generalizing i j a b with
  | nil =>
    obtain ⟨ρ, ht⟩ := hidle
    refine ⟨.nil, ?_⟩
    have ht := ht.mono fun _ _ hr => hr.mono
      (List.subset_append_left a ((i.history fuel []).flatMap created))
      (List.subset_append_left b ((j.history fuel []).flatMap created))
    unfold Interpreter.interpret
    rw [ht.sink]
    cases i.sink.flush with
    | none => exact .of_idle ht
    | some cause => exact .of_idle ht
  | cons s rest ih =>
    obtain ⟨ρ, ht⟩ := hidle
    obtain ⟨halong, ρ', hrun⟩ := (ht.start (c := .exec s) rfl rfl).run fuel
    unfold Interpreter.history Interpreter.interpret
    generalize Machine.run fuel ⟨.exec s, [], i⟩ = m at hrun ⊢
    generalize Machine.run fuel ⟨.exec s, [], j⟩ = n at hrun ⊢
    generalize Machine.history fuel ⟨.exec s, [], i⟩ = ms at halong hrun ⊢
    generalize Machine.history fuel ⟨.exec s, [], j⟩ = ns at halong hrun ⊢
    obtain ⟨control, stack, i'⟩ := m
    obtain ⟨control', stack', j'⟩ := n
    obtain ⟨hcontrol, hstack, hs, -⟩ := hrun
    dsimp only at hcontrol hstack
    subst hcontrol hstack
    have hgo : ∀ {i'' j'' : Interpreter} {ρ' : Renaming},
        i''.Twin (Recorded (a ++ ms.flatMap created) (b ++ ns.flatMap created)) ρ' j'' [] [] [] →
        Alongside a b (ms ++ i''.history fuel rest) (ns ++ j''.history fuel rest) ∧
          Ended (Recorded (a ++ (ms ++ i''.history fuel rest).flatMap created)
            (b ++ (ns ++ j''.history fuel rest).flatMap created))
            (i''.interpret fuel rest) (j''.interpret fuel rest) := by
      intro i'' j'' ρ' ht
      obtain ⟨hrest, hended⟩ := ih ⟨ρ', ht⟩
      refine ⟨halong.append hrest, ?_⟩
      rw [List.flatMap_append, List.flatMap_append, ← List.append_assoc, ← List.append_assoc]
      exact hended
    have hstop : ∀ {r q : Ending × Interpreter},
        Ended (Recorded (a ++ ms.flatMap created) (b ++ ns.flatMap created)) r q →
        Alongside a b (ms ++ []) (ns ++ []) ∧
          Ended (Recorded (a ++ (ms ++ []).flatMap created) (b ++ (ns ++ []).flatMap created)) r q := by
      intro r q hended
      rw [List.append_nil, List.append_nil]
      exact ⟨halong, hended⟩
    have hexhausted : Ended (Recorded (a ++ ms.flatMap created) (b ++ ns.flatMap created))
        (.exhausted, i') (.exhausted, j') := ⟨rfl, hs.twin.sink, hs.twin.clock, by simp⟩
    have hcrashed : Ended (Recorded (a ++ ms.flatMap created) (b ++ ns.flatMap created))
        (.crashed, i') (.crashed, j') := ⟨rfl, hs.twin.sink, hs.twin.clock, by simp⟩
    cases control with
    | eval e | exec e => exact hstop hexhausted
    | crashed => exact hstop hcrashed
    | yield v =>
      cases stack with
      | nil => exact hgo hs.twin.discard.settle
      | cons k stack => exact hstop hexhausted
    | returning v =>
      cases stack with
      | nil => exact hgo hs.twin.discard.settle
      | cons k stack => exact hstop hexhausted
    | done =>
      cases stack with
      | nil => exact hgo hs.twin.settle
      | cons k stack => exact hstop hexhausted
    | failed failure =>
      cases stack with
      | nil => exact hstop (hs.twin.abort failure)
      | cons k stack => exact hstop hexhausted

theorem Showing.printResult (hs : Showing P ρ i j (Value.objects [v]) [v]) :
    Ended P (Session.printResult i v) (Session.printResult j (v.rename ρ)) := by
  obtain ⟨hresult, hwrite⟩ := hs.writeLine
  unfold Session.printResult
  rcases hi : i.writeLine v with ⟨cause, i'⟩
  rcases hj : j.writeLine (v.rename ρ) with ⟨cause', j'⟩
  rw [hi, hj] at hresult hwrite
  dsimp only at hresult hwrite
  subst hresult
  cases cause' with
  | some cause => exact .of_idle hwrite.discard
  | none =>
    dsimp only
    rw [hwrite.twin.sink]
    cases i'.sink.flush with
    | none => exact .of_idle hwrite.discard
    | some cause => exact .of_idle hwrite.discard

/-- Evaluation of an expression, whose value is shown when nothing else holds it any more. -/
theorem runExpression_alongside {a b : Record} (fuel : Nat) (e : Expr)
    (hidle : Idle (Recorded a b) i j) :
    Alongside a b (Machine.history fuel ⟨.eval e, [], i⟩) (Machine.history fuel ⟨.eval e, [], j⟩) ∧
      Ended (Recorded (a ++ (Machine.history fuel ⟨.eval e, [], i⟩).flatMap created)
        (b ++ (Machine.history fuel ⟨.eval e, [], j⟩).flatMap created))
        (Session.runExpression fuel i e) (Session.runExpression fuel j e) := by
  obtain ⟨ρ, ht⟩ := hidle
  obtain ⟨halong, ρ', hrun⟩ := (ht.start (c := .eval e) rfl rfl).run fuel
  refine ⟨halong, ?_⟩
  unfold Session.runExpression Interpreter.interpretExpression
  generalize Recorded _ _ = P at hrun ⊢
  generalize Machine.run fuel ⟨.eval e, [], i⟩ = m at hrun ⊢
  generalize Machine.run fuel ⟨.eval e, [], j⟩ = n at hrun ⊢
  obtain ⟨control, stack, i'⟩ := m
  obtain ⟨control', stack', j'⟩ := n
  obtain ⟨hcontrol, hstack, hs, -⟩ := hrun
  dsimp only at hcontrol hstack
  subst hcontrol hstack
  have hexhausted : Ended P (.exhausted, i') (.exhausted, j') :=
    ⟨rfl, hs.twin.sink, hs.twin.clock, by simp⟩
  have hglobals : ∀ {held : List Value}, i'.Twin P ρ' j' [] held [] →
      Interpreter.Twin P ρ' { i' with active := .globals } { j' with active := .globals } [] held [] :=
    fun ht => ⟨ht.store, rfl, ht.image_globals.symm, ht.distances, ht.sink, ht.clock⟩
  cases control with
  | eval e | exec e | done | returning v => exact hexhausted
  | crashed => exact ⟨rfl, hs.twin.sink, hs.twin.clock, by simp⟩
  | yield v =>
    cases stack with
    | nil =>
      have hshow := (hglobals hs.twin).showing.settle
      exact hshow.printResult
    | cons k stack => exact hexhausted
  | failed failure =>
    cases stack with
    | nil => exact .of_idle (hglobals hs.twin).settle
    | cons k stack => exact hexhausted

end Interpreter
namespace Session

open Machine (Alongside created)

variable {P : Handle → Handle → Prop} {s u : Session}

/-- Sessions between runs. -/
structure Idle (P : Handle → Handle → Prop) (s u : Session) : Prop where
  interpreter : Interpreter.Idle P s.interpreter u.interpreter
  nextId : u.nextId = s.nextId

theorem Idle.globalNames (hi : Idle P s u) : u.interpreter.globalNames = s.interpreter.globalNames := by
  obtain ⟨ρ, ht⟩ := hi.interpreter
  have hnames := ht.store.mirror.names ht.contains_globals
  rw [ht.image_globals] at hnames
  exact hnames

theorem Idle.learn (hi : Idle P s u) (distances : List (Nat × Nat)) :
    Interpreter.Idle P (s.interpreter.learn distances) (u.interpreter.learn distances) := by
  obtain ⟨ρ, ht⟩ := hi.interpreter
  refine ⟨ρ, ht.store, ht.active, ht.image, ?_, ht.sink, ht.clock⟩
  unfold Interpreter.learn
  dsimp only
  rw [ht.distances]

/-- What a run gives. Nothing is said of a session that has crashed or was given up. -/
structure Gave (P : Handle → Handle → Prop) (r q : Report × Session) : Prop where
  report : q.1 = r.1
  sink : q.2.interpreter.sink = r.2.interpreter.sink
  clock : q.2.interpreter.clock = r.2.interpreter.clock
  idle : (∃ status, r.1.outcome = .status status) → Idle P r.2 q.2

theorem Idle.gave (hi : Idle P s u) (report : Report) : Gave P (report, s) (report, u) := by
  obtain ⟨ρ, ht⟩ := hi.interpreter
  exact ⟨rfl, ht.sink, ht.clock, fun _ => hi⟩

/-- What resolution has accepted is executed on both sides. -/
theorem execute_alongside {r q : Ending × Interpreter} (h : Interpreter.Ended P r q) (n : Nat) :
    Gave P (.ofEnding r.1, ⟨r.2, n⟩) (.ofEnding q.1, ⟨q.2, n⟩) := by
  refine ⟨congrArg Report.ofEnding h.ending, h.sink, h.clock, ?_⟩
  rintro ⟨status, hstatus⟩
  refine ⟨h.idle ?_, rfl⟩
  cases he : r.1 with
  | completed => exact .inl rfl
  | failed failure => exact .inr ⟨failure, rfl⟩
  | crashed | exhausted =>
    rw [he] at hstatus
    cases hstatus

theorem Gave.grow {a b : Record} {r q : Report × Session} (h : Gave (Recorded a b) r q) :
    Gave (Recorded (a ++ List.flatMap created []) (b ++ List.flatMap created [])) r q := by
  rw [List.flatMap_nil, List.append_nil, List.append_nil]
  exact h

theorem Idle.step (hi : Idle P s u) (n : Nat) : Idle P { s with nextId := n } { u with nextId := n } :=
  ⟨hi.interpreter, rfl⟩

theorem run_alongside {a b : Record} (hi : Idle (Recorded a b) s u) (fuel : Nat) (mode : Mode)
    (source : String) :
    Alongside a b (s.states fuel mode source) (u.states fuel mode source) ∧
      Gave (Recorded (a ++ (s.states fuel mode source).flatMap created)
        (b ++ (u.states fuel mode source).flatMap created))
        (s.run fuel mode source) (u.run fuel mode source) := by
  unfold Session.states Session.run
  cases mode with
  | program =>
    unfold Session.program? Session.runProgram Session.execute
    dsimp only
    rw [hi.nextId, hi.globalNames]
    generalize parseProgram s.nextId (tokenize source).1 = parsed
    cases (tokenize source).2 ++ parsed.faults.map SyntaxFault.diagnostic with
    | cons e errors => exact ⟨.nil, ((hi.step _).gave _).grow⟩
    | nil =>
      cases resolveProgram s.interpreter.globalNames parsed.tree with
      | error faults => exact ⟨.nil, ((hi.step _).gave _).grow⟩
      | ok distances =>
        obtain ⟨halong, hended⟩ :=
          Interpreter.interpret_alongside parsed.tree fuel (hi.learn distances)
        exact ⟨halong, execute_alongside hended _⟩
  | expression =>
    unfold Session.expression? Session.runExpressionSource Session.execute
    dsimp only
    rw [hi.nextId, hi.globalNames]
    generalize parseExpression s.nextId (tokenize source).1 = parsed
    cases parsed.tree with
    | none => exact ⟨.nil, ((hi.step _).gave _).grow⟩
    | some e =>
      cases (tokenize source).2 ++ parsed.faults.map SyntaxFault.diagnostic with
      | cons e errors => exact ⟨.nil, ((hi.step _).gave _).grow⟩
      | nil =>
        dsimp only
        cases resolveExpression s.interpreter.globalNames e with
        | error faults => exact ⟨.nil, ((hi.step _).gave _).grow⟩
        | ok distances =>
          obtain ⟨halong, hended⟩ :=
            Interpreter.runExpression_alongside fuel e (hi.learn distances)
          exact ⟨halong, execute_alongside hended _⟩

theorem history_alongside {a b : Record} (inputs : List (Mode × String)) (fuel : Nat)
    (hi : Idle (Recorded a b) s u) :
    Alongside a b (s.history fuel inputs) (u.history fuel inputs) := by
  induction inputs generalizing s u a b with
  | nil => exact .nil
  | cons input rest ih =>
    obtain ⟨mode, source⟩ := input
    obtain ⟨halong, hgave⟩ := run_alongside hi fuel mode source
    unfold Session.history
    refine halong.append ?_
    rcases hs : s.run fuel mode source with ⟨⟨outcome, diagnostics⟩, s'⟩
    rcases hu : u.run fuel mode source with ⟨report, u'⟩
    rw [hs, hu] at hgave
    have hreport := hgave.report
    dsimp only at hreport
    subst hreport
    cases outcome with
    | status status => exact ih (hgave.idle ⟨status, rfl⟩)
    | crashed | exhausted => exact .nil

theorem runAll_eq {a b : Record} (inputs : List (Mode × String)) (fuel : Nat)
    (hi : Idle (Recorded a b) s u) :
    (u.runAll fuel inputs).1 = (s.runAll fuel inputs).1 ∧
      (u.runAll fuel inputs).2.interpreter.sink = (s.runAll fuel inputs).2.interpreter.sink ∧
      (u.runAll fuel inputs).2.interpreter.clock = (s.runAll fuel inputs).2.interpreter.clock := by
  induction inputs generalizing s u a b with
  | nil =>
    obtain ⟨ρ, ht⟩ := hi.interpreter
    exact ⟨rfl, ht.sink, ht.clock⟩
  | cons input rest ih =>
    obtain ⟨mode, source⟩ := input
    obtain ⟨-, hgave⟩ := run_alongside hi fuel mode source
    unfold Session.runAll
    rcases hs : s.run fuel mode source with ⟨⟨outcome, diagnostics⟩, s'⟩
    rcases hu : u.run fuel mode source with ⟨report, u'⟩
    rw [hs, hu] at hgave
    have hreport := hgave.report
    dsimp only at hreport
    subst hreport
    cases outcome with
    | status status =>
      obtain ⟨hreports, hsink, hclock⟩ := ih (hgave.idle ⟨status, rfl⟩)
      dsimp only
      rw [hreports]
      exact ⟨rfl, hsink, hclock⟩
    | crashed | exhausted => exact ⟨rfl, hgave.sink, hgave.clock⟩

/-! ## The first run -/

/-- The session in which no frame is ever freed. -/
def keeping (s : Session) : Session :=
  { s with interpreter.store.arena.reclaims := false }

end Session

namespace Store

/-- The global frame alone, in a store that frees frames or does not. -/
def start (reclaims : Bool) : Store := { Store.empty with arena.reclaims := reclaims }

theorem frame?_start {reclaims : Bool} {h : Handle} {f : Frame}
    (hf : (start reclaims).arena.frame? h = some f) : h = .globals ∧ f = ⟨Bindings.empty, none, true⟩ := by
  obtain ⟨index, generation⟩ := h
  have hs := Arena.frame?_eq_some_iff.1 hf
  cases index with
  | zero =>
    cases hs
    exact ⟨rfl, rfl⟩
  | succ index => cases hs

theorem not_accessible_start {reclaims : Bool} {v : Value} : ¬ (start reclaims).Accessible [] v := by
  intro hv
  induction hv with
  | held h => cases h
  | bound hf hv =>
    obtain ⟨-, rfl⟩ := frame?_start hf
    cases hv
  | inside _ _ _ _ ih => exact ih

theorem healthy_start (reclaims : Bool) : (start reclaims).Healthy [] [] [] := by
  refine ⟨⟨fun id => Nat.zero_le _, fun h => Nat.zero_le _, fun h hpos => absurd hpos (Nat.lt_irrefl 0),
    ⟨List.nodup_nil, nofun⟩⟩, ⟨⟨_, rfl, rfl, rfl⟩, fun h f e hf he => ?_, fun h f e hf _ he => ?_,
    fun h f e _ hf he => ?_, nofun, fun a outer hs => ?_, fun v hv => absurd hv not_accessible_start⟩⟩
  · obtain ⟨-, rfl⟩ := frame?_start hf
    cases he
  · obtain ⟨-, rfl⟩ := frame?_start hf
    cases he
  · obtain ⟨-, rfl⟩ := frame?_start hf
    cases he
  · have hnil := hs.length_le
    simp at hnil

theorem twin_start {a b : Record} :
    Store.Twin (Recorded a b) id (start true) (start false) [] [] [] := by
  refine ⟨healthy_start true, healthy_start false, ⟨rfl, fun h f hf => ?_, fun h h' _ _ heq => heq,
    fun h hc => ?_, fun v id p hv => absurd hv not_accessible_start, rfl, rfl⟩, rfl⟩
  · obtain ⟨rfl, rfl⟩ := frame?_start hf
    exact ⟨_, rfl, rfl, rfl⟩
  · obtain ⟨f, hf⟩ := Arena.contains_iff.1 hc
    obtain ⟨rfl, -⟩ := frame?_start hf
    exact .inl ⟨rfl, rfl⟩

end Store

namespace Session

theorem twin_foldl_define {P : Handle → Handle → Prop} {ρ : Renaming} {s u : Store}
    (ht : Store.Twin P ρ s u [] [] []) (natives : List Native) :
    Store.Twin P ρ (natives.foldl (fun s n => s.define .globals n.name (.native n)) s)
      (natives.foldl (fun s n => s.define .globals n.name (.native n)) u) [] [] [] := by
  induction natives generalizing s u with
  | nil => exact ht
  | cons n rest ih =>
    have hhold := ht.hold (v := .native n) rfl trivial trivial
    have hdefine := hhold.define (h := .globals) (by
      obtain ⟨f, hf, -⟩ := ht.healthy.intact.globals
      exact Arena.contains_iff.2 ⟨f, hf⟩) n.name
    rw [ht.mirror.globals] at hdefine
    exact ih hdefine

theorem idle_new (sink : Sink) (clock : Clock) :
    Idle (Recorded [] []) (Session.new sink clock) (Session.new sink clock).keeping := by
  have hstart : Store.Twin (Recorded [] []) id (.start true) (.start false) [] [] [] := Store.twin_start
  have hstore := twin_foldl_define hstart Native.all
  exact ⟨⟨id, hstore, rfl, rfl, rfl, rfl, rfl⟩, rfl⟩

end Session
end Lox
