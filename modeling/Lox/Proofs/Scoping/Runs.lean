import Lox.Proofs.Ownership.Runs
import Lox.Proofs.Scoping.Fixtures
import Lox.Proofs.Scoping.NewFrames
import Lox.Proofs.Splicing.Names

/-!
# Runs find their frames

All states of a run follow references to where they belong, since every step leaves code in its place.
Between the statements of a program and between programs nothing is executed, and what is stored stays
where it is.
-/
namespace Lox

open Arena (Grows)

variable {os os' : List Occurrence} {past : Past}

/-- What is stored is placed, and frames are never given a handle that has been recorded. -/
structure Interpreter.Orderly (os : List Occurrence) (past : Past) (i : Interpreter) : Prop where
  store : i.store.Each (Value.Placed (Among os) (past.standing i.store.arena))
  issued : ∀ o ∈ past.openings, i.store.arena.Issued o.frame
  knows : i.Knows os

namespace Machine

/-- The code of the machine is where it belongs, with what has been recorded before. -/
structure Orderly (os : List Occurrence) (past : Past) (m : Machine) : Prop where
  placed : m.Placed (Among os) (past.standing m.state.store.arena)
  issued : ∀ o ∈ past.openings, m.state.store.arena.Issued o.frame
  knows : m.state.Knows os

/-- References are followed to where they belong, and what is made is made where it belongs. Its frames
have not been there before. What comes of the control is what the stack takes. -/
structure Sound (os : List Occurrence) (past : Past) (m : Machine) : Prop where
  references : ∀ ref, m.reference? = some ref → ∃ around h, m.Follows os past ref around h
  lexical : m.Lexical past
  issued : ∀ o ∈ past.openings, m.state.store.arena.Issued o.frame
  created : Made m.state.store.arena m.step.state.store.arena m.created
  fixed : Arena.Fixed m.furnished m.state.store.arena m.step.state.store.arena
  recycles : m.state.store.arena.Recycles
  superNamed : ∀ ref method, m.super? = some (ref, method) → ref.name.text = "super"
  fits : ∀ b, m.control.givesValue? = some b → Fits b m.stack
  orderly : ∃ os, m.Orderly os past

/-- The states are sound, one after the other, each with what was made before. -/
def SoundFrom (os : List Occurrence) : Past → List Machine → Prop
  | _, [] => True
  | past, m :: rest => m.Sound os past ∧ SoundFrom os (past.add m) rest

variable {m n : Machine} {ms ns before after : List Machine} {P : Handle → Handle → Prop} {ρ : Renaming}

theorem Follows.mono {ref : Reference} {around : List Surrounding} {h : Handle}
    (hf : m.Follows os past ref around h) (hos : os ⊆ os') : m.Follows os' past ref around h :=
  { hf with known := hos hf.known }

theorem Sound.mono (hm : m.Sound os past) (hos : os ⊆ os') : m.Sound os' past := by
  refine ⟨fun ref href => ?_, hm.lexical, hm.issued, hm.created, hm.fixed,
    hm.recycles, hm.superNamed, hm.fits, hm.orderly⟩
  obtain ⟨around, h, hfollows⟩ := hm.references ref href
  exact ⟨around, h, hfollows.mono hos⟩

namespace SoundFrom

theorem mono (h : SoundFrom os past ms) (hos : os ⊆ os') : SoundFrom os' past ms := by
  induction ms generalizing past with
  | nil => trivial
  | cons m rest ih => exact ⟨h.1.mono hos, ih h.2⟩

theorem append (h : SoundFrom os past ms) (h' : SoundFrom os (past.after ms) ns) :
    SoundFrom os past (ms ++ ns) := by
  induction ms generalizing past with
  | nil => exact h'
  | cons m rest ih => exact ⟨h.1, ih h.2 h'⟩

theorem split (h : SoundFrom os past ms) (hsplit : ms = before ++ m :: after) :
    m.Sound os (past.after before) := by
  subst hsplit
  induction before generalizing past with
  | nil => exact h.1
  | cons first before ih => exact ih h.2

theorem take (h : SoundFrom os past ms) (hsplit : ms = before ++ after) : SoundFrom os past before := by
  subst hsplit
  induction before generalizing past with
  | nil => trivial
  | cons first before ih => exact ⟨h.1, ih h.2⟩

/-- All frames have different handles. -/
theorem nodup (h : SoundFrom os past ms) (hpast : (past.openings.map Opening.frame).Nodup) :
    ((past.after ms).openings.map Opening.frame).Nodup := by
  induction ms generalizing past with
  | nil => exact hpast
  | cons m rest ih =>
    obtain ⟨hm, hrest⟩ := h
    refine ih hrest ?_
    have hframes : m.opened.map Opening.frame = m.created.map Prod.fst := by
      rw [← created_opened, List.map_map]
      rfl
    change ((past.openings ++ m.opened).map Opening.frame).Nodup
    rw [List.map_append, hframes]
    refine hpast.append hm.created.nodup fun g hg hg' => ?_
    obtain ⟨o, ho, rfl⟩ := List.mem_map.1 hg
    exact hm.created.new o.frame hg' (hm.issued o ho)

end SoundFrom

/-! ## Machines -/

theorem Orderly.sound (h : m.Orderly os past) (ht : Twin P ρ m n) : m.Sound os past := by
  have hr := ht.setting.twin.store.healthy.accounted.recycles
  exact ⟨fun _ href => h.placed.follows h.knows ht href, h.placed.lexical hr, h.issued, made_step m hr,
    h.placed.fixed hr, hr, fun _ _ => h.placed.goes.named_super, ht.fits, os, h⟩

theorem Orderly.step (h : m.Orderly os past) (ht : Twin P ρ m n) :
    m.step.Orderly os (past.add m) := by
  have hr := ht.setting.twin.store.healthy.accounted.recycles
  refine ⟨h.placed.step hr ht.fits, ?_, ?_⟩
  · refine List.forall_mem_append.2 ⟨fun o ho => (grows_step m hr).issued _ (h.issued o ho), fun o ho => ?_⟩
    have hcreated : (o.frame, o.region) ∈ m.created := created_opened m ▸ List.mem_map_of_mem ho
    exact (made_step m hr).issued _ (List.mem_map_of_mem hcreated)
  · exact ⟨fun o ho => (congrArg (·[o.1.id]?) (distances_step m)).trans (h.knows.distances o ho),
      h.knows.nested⟩

theorem Orderly.state (h : m.Orderly os past) : m.state.Orderly os past :=
  ⟨h.placed.store, h.issued, h.knows⟩

/-- Nothing is made any more in the end. -/
theorem add_of_isFinal (past : Past) (h : m.isFinal = true) : past.add m = past := by
  have hnothing : m.opened = [] ∧ m.functions = [] := by
    obtain ⟨control, stack, i⟩ := m
    cases control with
    | eval e | exec s => cases h
    | crashed => exact ⟨rfl, rfl⟩
    | yield v =>
      cases List.isEmpty_iff.1 h
      cases v <;> exact ⟨rfl, rfl⟩
    | done | returning v | failed failure =>
      cases List.isEmpty_iff.1 h
      exact ⟨rfl, rfl⟩
  unfold Past.add
  rw [hnothing.1, hnothing.2, List.append_nil, List.append_nil]

theorem Orderly.run {a b : Record} (h : m.Orderly os past) (ht : Twin (Recorded a b) ρ m n) (fuel : Nat) :
    SoundFrom os past (m.history fuel) ∧ ((m.run fuel).isFinal = true →
      (m.run fuel).Orderly os (past.after (m.history fuel))) := by
  have hlast : ∀ {past : Past} {a b : Record} {ρ : Renaming} {m n : Machine}, m.Orderly os past →
      Twin (Recorded a b) ρ m n → SoundFrom os past [m] ∧
        (m.isFinal = true → m.Orderly os (past.after [m])) := by
    intro past a b ρ m n h ht
    refine ⟨⟨h.sound ht, trivial⟩, fun hfinal => ?_⟩
    change m.Orderly os (past.add m)
    rw [add_of_isFinal past hfinal]
    exact h
  induction fuel generalizing past a b ρ m n with
  | zero => exact hlast h ht
  | succ fuel ih =>
    unfold Machine.history Machine.run
    by_cases hfinal : m.isFinal = true
    · rw [if_pos hfinal, if_pos hfinal]
      exact hlast h ht
    · rw [if_neg hfinal, if_neg hfinal]
      obtain ⟨ρ', hstep⟩ := ht.stepRecorded
      obtain ⟨hrest, hend⟩ := ih (h.step ht) hstep
      exact ⟨⟨h.sound ht, hrest⟩, hend⟩

end Machine

/-! ## Programs -/

namespace Interpreter

open Machine (SoundFrom created)

variable {i j : Interpreter}

theorem remains_settle (i : Interpreter) : i.settle.store.Remains i.store := by
  have hdrain : i.drain.store.Remains i.store := Store.remains_drain i.store
  obtain h | ⟨roots, h⟩ := Showing.settle_cases i
  · exact h ▸ hdrain
  · exact h ▸ (Store.remains_collect i.drain.store roots).trans hdrain

namespace Orderly

theorem change {B : Binds} (h : i.Orderly os past) (hremains : j.store.Remains i.store)
    (hgrows : Grows B i.store.arena j.store.arena) (hdistances : j.distances = i.distances) :
    j.Orderly os past := by
  refine ⟨(h.store.remains hremains).mono fun v hv => hv.mono (Past.standing_within hgrows (.refl past)),
    fun o ho => hgrows.issued _ (h.issued o ho), ?_⟩
  exact ⟨fun o ho => (congrArg (·[o.1.id]?) hdistances).trans (h.knows.distances o ho), h.knows.nested⟩

theorem discard (h : i.Orderly os past) (hr : i.store.arena.Recycles) (v : Value) :
    (i.discard v).Orderly os past :=
  h.change (Store.remains_discard i.store v) (Store.grows_discard (B := fun _ _ => True) hr v) rfl

theorem drain (h : i.Orderly os past) (hr : i.store.arena.Recycles) : i.drain.Orderly os past :=
  h.change (Store.remains_drain i.store) (Store.grows_drain (B := fun _ _ => True) hr) rfl

theorem settle (h : i.Orderly os past) (hr : i.store.arena.Recycles) : i.settle.Orderly os past :=
  h.change (remains_settle i) (grows_settle (B := fun _ _ => True) hr) i.distances_settle

theorem abort (h : i.Orderly os past) (hr : i.store.arena.Recycles) (failure : Failure) :
    (i.abort failure).2.Orderly os past := by
  have hglobals : ({ i with active := .globals } : Interpreter).Orderly os past :=
    ⟨h.store, h.issued, h.knows.distances, h.knows.nested⟩
  unfold Interpreter.abort
  dsimp only
  split <;> exact hglobals.drain hr

/-- Code that stands outside of all scopes can be executed. -/
theorem exec (h : i.Orderly os past) (hactive : i.active = .globals) {s : Stmt}
    (hs : s.Fits (Among os) []) : Machine.Orderly os past ⟨.exec s, [], i⟩ :=
  ⟨⟨⟨[], hactive, hs, trivial⟩, nofun, h.store⟩, h.issued, h.knows⟩

theorem eval (h : i.Orderly os past) (hactive : i.active = .globals) {e : Expr}
    (he : e.Fits (Among os [])) : Machine.Orderly os past ⟨.eval e, [], i⟩ :=
  ⟨⟨⟨[], hactive, he, trivial⟩, nofun, h.store⟩, h.issued, h.knows⟩

end Orderly

theorem orderly_interpret {a b : Record} (fuel : Nat) (program : List Stmt) (hidle : Idle (Recorded a b) i j)
    (h : i.Orderly os past) (hfits : Stmt.FitsAll (Among os) [] program) :
    SoundFrom os past (i.history fuel program) ∧ ((i.interpret fuel program).1.isOver = true →
      (i.interpret fuel program).2.Orderly os (past.after (i.history fuel program))) := by
  induction program generalizing i j a b past with
  | nil =>
    refine ⟨trivial, fun _ => ?_⟩
    change Interpreter.Orderly os past _
    unfold Interpreter.interpret
    split <;> exact h
  | cons s rest ih =>
    obtain ⟨ρ, ht⟩ := hidle
    have hstart := ht.start (c := .exec s) rfl rfl
    obtain ⟨hsound, hend⟩ := (h.exec ht.active hfits.1).run hstart fuel
    obtain ⟨-, ρ', hrun⟩ := hstart.run fuel
    unfold Interpreter.history Interpreter.interpret
    generalize Machine.run fuel ⟨.exec s, [], i⟩ = m at hend hrun ⊢
    generalize Machine.run fuel ⟨.exec s, [], j⟩ = n at hrun
    generalize Machine.history fuel ⟨.exec s, [], i⟩ = ms at hsound hend hrun ⊢
    generalize (Machine.history fuel ⟨.exec s, [], j⟩).flatMap created = shadows at hrun
    obtain ⟨control, stack, i'⟩ := m
    obtain ⟨control', stack', j'⟩ := n
    obtain ⟨hcontrol, hstack, hs, -⟩ := hrun
    dsimp only at hcontrol hstack
    subst hcontrol hstack
    have hr := hs.twin.store.healthy.accounted.recycles
    -- either the next statement is executed, or nothing is left to do
    have hgo : ∀ {i'' j'' : Interpreter} {ρ' : Renaming}, i''.Twin (Recorded (a ++ ms.flatMap created)
        (b ++ shadows)) ρ' j'' [] [] [] → i''.Orderly os (past.after ms) →
        SoundFrom os past (ms ++ i''.history fuel rest) ∧
          ((i''.interpret fuel rest).1.isOver = true → (i''.interpret fuel rest).2.Orderly os
            (past.after (ms ++ i''.history fuel rest))) := by
      intro i'' j'' ρ' ht h
      obtain ⟨hrest, hover⟩ := ih ⟨ρ', ht⟩ h hfits.2
      refine ⟨hsound.append hrest, ?_⟩
      rw [Past.after_append]
      exact hover
    have hstop : ∀ {r : Ending × Interpreter},
        (r.1.isOver = true → r.2.Orderly os (past.after ms)) →
        SoundFrom os past (ms ++ []) ∧ (r.1.isOver = true →
          r.2.Orderly os (past.after (ms ++ []))) := by
      intro r h
      rw [List.append_nil]
      exact ⟨hsound, h⟩
    cases control with
    | eval e | exec e | crashed => exact hstop Bool.noConfusion
    | yield v | returning v =>
      cases stack with
      | nil =>
        have hdiscard := (hend rfl).state.discard hr v
        have hrecycles := (Store.grows_discard (B := fun _ _ => True) hr v).recycles
        exact hgo hs.twin.discard.settle (hdiscard.settle hrecycles)
      | cons k stack => exact hstop Bool.noConfusion
    | done =>
      cases stack with
      | nil => exact hgo hs.twin.settle ((hend rfl).state.settle hr)
      | cons k stack => exact hstop Bool.noConfusion
    | failed failure =>
      cases stack with
      | nil => exact hstop fun _ => (hend rfl).state.abort hr failure
      | cons k stack => exact hstop Bool.noConfusion

/-! ## Expressions -/

theorem orderly_printResult (h : i.Orderly os past) (hr : i.store.arena.Recycles) (v : Value) :
    (Session.printResult i v).2.Orderly os past := by
  have hwrite : (i.writeLine v).2.Orderly os past := ⟨h.store, h.issued, h.knows.distances, h.knows.nested⟩
  have hsame : (i.writeLine v).2.store.arena.Recycles := hr
  unfold Session.printResult
  split <;> rename_i heq <;> rw [heq] at hwrite hsame
  · exact hwrite.discard hsame v
  · split <;> exact hwrite.discard hsame v

theorem orderly_runExpression {a b : Record} (fuel : Nat) {e : Expr} (hidle : Idle (Recorded a b) i j)
    (h : i.Orderly os past) (hfits : e.Fits (Among os [])) :
    SoundFrom os past (Machine.history fuel ⟨.eval e, [], i⟩) ∧
      ((Session.runExpression fuel i e).1.isOver = true → (Session.runExpression fuel i e).2.Orderly os
        (past.after (Machine.history fuel ⟨.eval e, [], i⟩))) := by
  obtain ⟨ρ, ht⟩ := hidle
  have hstart := ht.start (c := .eval e) rfl rfl
  obtain ⟨hsound, hend⟩ := (h.eval ht.active hfits).run hstart fuel
  obtain ⟨-, ρ', hrun⟩ := hstart.run fuel
  refine ⟨hsound, ?_⟩
  unfold Session.runExpression interpretExpression
  generalize Machine.run fuel ⟨.eval e, [], i⟩ = m at hend hrun ⊢
  have hr := hrun.setting.twin.store.healthy.accounted.recycles
  obtain ⟨control, stack, i'⟩ := m
  have hrecycles : ({ i' with active := .globals } : Interpreter).settle.store.arena.Recycles :=
    (grows_settle (i := { i' with active := .globals }) (B := fun _ _ => True) hr).recycles
  have hsettle : Machine.isFinal ⟨control, stack, i'⟩ = true →
      ({ i' with active := .globals } : Interpreter).settle.Orderly os
        (past.after (Machine.history fuel ⟨.eval e, [], i⟩)) := fun hfinal => by
    have hlast := (hend hfinal).state
    exact Orderly.settle (i := { i' with active := .globals })
      ⟨hlast.store, hlast.issued, hlast.knows.distances, hlast.knows.nested⟩ hr
  cases control with
  | eval e | exec e | done | returning v | crashed => nofun
  | yield v =>
    cases stack with
    | nil => exact fun _ => orderly_printResult (hsettle rfl) hrecycles v
    | cons k stack => nofun
  | failed failure =>
    cases stack with
    | nil => exact fun _ => hsettle rfl
    | cons k stack => nofun

end Interpreter
end Lox
