import Lox.Proofs.Growth
import Lox.Proofs.Printing.Stacks
import Lox.Proofs.Reclamation.Unobservable
import Lox.Proofs.Store.Captures

/-!
# Executing code gives back the frames it was given

Whatever an expression or a statement does and however it ends, the active frame is afterwards what it
was before, and the frames around it are still there, inside of each other as before. Frames are freed
meanwhile, but none that the calls and blocks around the code have yet to go back to.
-/
namespace Lox

open Arena (Grows)

/-- An expression to be evaluated or a statement to be executed. -/
inductive Control.IsCode : Control → Prop where
  | eval (e : Expr) : IsCode (.eval e)
  | exec (s : Stmt) : IsCode (.exec s)

namespace Arena.Grows

variable {B : Binds} {a b : Arena} {g h : Handle} {f : Frame}

/-- The frames around a frame are still around it, if all live frames have theirs. -/
theorem ancestor (hg : Grows B a b) {d : Nat} (ha : a.ancestor? g d = some h) (hf : a.frame? h = some f)
    (hc : b.contains g = true)
    (hlive : ∀ h f e, b.frame? h = some f → f.enclosing = some e → b.contains e = true) :
    ∃ f', b.frame? h = some f' ∧ f'.enclosing = f.enclosing ∧
      ∀ x ∈ f.bindings.names, x ∈ f'.bindings.names := by
  induction d generalizing g with
  | zero =>
    obtain ⟨-, rfl⟩ := ancestor?_zero_iff.1 ha
    obtain ⟨f', hf'⟩ := contains_iff.1 hc
    obtain ⟨f₀, hf₀, he, hnames, -⟩ := hg.frames g f' (issued_of_frame? hf) hf'
    obtain rfl := Option.some.inj (hf.symm.trans hf₀)
    exact ⟨f', hf', he, hnames⟩
  | succ d ih =>
    obtain ⟨fg, e, hfg, he, ha⟩ := ancestor?_succ_iff.1 ha
    obtain ⟨fg', hfg'⟩ := contains_iff.1 hc
    obtain ⟨f₀, hf₀, he', -⟩ := hg.frames g fg' (issued_of_frame? hfg) hfg'
    obtain rfl := Option.some.inj (hfg.symm.trans hf₀)
    exact ih ha (hlive g fg' e hfg' (he'.trans he))

end Arena.Grows

namespace Machine

variable {P : Handle → Handle → Prop} {ρ : Renaming} {m n : Machine} {c : Control}

theorem grows_run (m : Machine) (hr : m.state.store.arena.Recycles) (fuel : Nat) :
    Grows (fun _ _ => True) m.state.store.arena (m.run fuel).state.store.arena := by
  induction fuel generalizing m with
  | zero => exact .refl hr
  | succ fuel ih =>
    unfold run
    split
    · exact .refl hr
    · have hstep := grows_step m hr
      exact hstep.trans (ih m.step hstep.recycles) fun _ _ _ _ => trivial

/-! ## Other code in the same place -/

/-- The calls and blocks that a stack is in the midst of, with nothing else to be done in them. -/
def surroundings : List Cont → List Cont
  | .leave previous frame :: .finish f :: rest =>
    .leave previous frame :: .finish f :: .drop :: surroundings rest
  | .leave previous frame :: rest => .leave previous frame :: .sequence [] :: surroundings rest
  | _ :: rest => surroundings rest
  | [] => []

theorem fits_surroundings (stack : List Cont) : Fits false (surroundings stack) := by
  fun_induction surroundings stack with
  | case1 _ _ _ _ ih => exact ⟨rfl, rfl, rfl, ih⟩
  | case2 _ _ _ _ ih => exact ⟨rfl, rfl, ih⟩
  | case3 _ _ _ _ ih => exact ih
  | case4 => trivial

/-- The functions that run are still held. -/
theorem heldAll_surroundings (stack : List Cont) :
    (heldAll (surroundings stack)).Sublist (heldAll stack) := by
  fun_induction surroundings stack with
  | case1 _ _ f _ ih => exact ih.cons_cons (.function f)
  | case2 _ _ _ _ ih => exact ih
  | case3 k _ _ _ ih => exact ih.trans (List.sublist_append_right k.held _)
  | case4 => exact .slnil

theorem activations_surroundings (stack : List Cont) :
    activations (surroundings stack) = activations stack := by
  fun_induction surroundings stack with
  | case1 previous frame f _ ih => exact congrArg (⟨frame, some f⟩ :: ·) ih
  | case2 previous frame rest hrest ih =>
    have hcallee : callee? rest = none := by
      unfold callee?
      split
      · next f below => exact absurd rfl (hrest f below)
      · rfl
    change ⟨frame, none⟩ :: activations (surroundings rest) = ⟨frame, callee? rest⟩ :: activations rest
    rw [ih, hcallee]
  | case3 k rest hfinish hleave ih =>
    rw [ih]
    cases k <;> first | rfl | exact absurd rfl (hleave _ _)
  | case4 => rfl

theorem Chained.surroundings {stack : List Cont} (hc : Chained stack) : Chained (surroundings stack) := by
  fun_induction Machine.surroundings stack with
  | case1 previous frame f rest ih =>
    obtain ⟨hprevious, hrest⟩ := hc
    refine ⟨hprevious.trans ?_, ih hrest⟩
    exact congrArg Activation.current (activations_surroundings rest).symm
  | case2 previous frame rest _ ih =>
    obtain ⟨hprevious, hrest⟩ := hc
    refine ⟨hprevious.trans ?_, ih hrest⟩
    exact congrArg Activation.current (activations_surroundings rest).symm
  | case3 k rest _ hleave ih =>
    refine ih ?_
    cases k <;> first | exact hc | exact absurd rfl (hleave _ _)
  | case4 => trivial

/-- Any code can be run where another machine has come to. -/
theorem Twin.replace (ht : Twin P ρ m n) (hc : c.IsCode) : ∃ stack,
    Twin P ρ ⟨c, stack, m.state⟩ ⟨c, stack.map (Cont.rename ρ), n.state⟩ ∧
      activations stack = activations m.stack := by
  have hs : Setting P ρ m.state n.state [] (surroundings m.stack) := by
    refine ⟨?_, ht.setting.chained.surroundings⟩
    rw [activations_surroundings]
    have hsub := (heldAll_surroundings m.stack).trans (List.sublist_append_right m.control.held _)
    exact ht.setting.twin.rearrange (fun id => (hsub.filterMap Value.object?).count_le id)
      fun w hw => .held (hsub.subset hw)
  have hfits := fits_surroundings m.stack
  cases hc with
  | eval e =>
    refine ⟨.drop :: surroundings m.stack, ⟨rfl, rfl, ⟨hs.twin, hs.chained⟩, ?_⟩,
      activations_surroundings m.stack⟩
    rintro b ⟨⟩
    exact ⟨rfl, hfits⟩
  | exec s =>
    refine ⟨surroundings m.stack, ⟨rfl, rfl, hs, ?_⟩, activations_surroundings m.stack⟩
    rintro b ⟨⟩
    exact hfits

end Machine

namespace Session

open Machine (Twin)

/-- Whatever state a session has come to and whatever code is run in it, when the code has come to its
end, with a value, with a `return` or with a failure, the frame is active that was active before, and
all frames around it are still there with the same links and with all the names that they bound. What
lies below the code on the stack makes no difference to that. -/
theorem frames_restored (sink : Sink) (clock : Clock) (fuel : Nat) (inputs : List (Mode × String)) :
    ∀ m ∈ (Session.new sink clock).history fuel inputs, ∀ c : Control, c.IsCode → ∀ n,
      let r := Machine.run n ⟨c, [], m.state⟩
      r.isFinal = true → r.control ≠ .crashed →
        (∀ below, ∃ k ≤ n, Machine.run k ⟨c, below, m.state⟩ = ⟨r.control, below, r.state⟩) ∧
        r.state.active = m.state.active ∧
        ∀ d h f, m.state.store.arena.ancestor? m.state.active d = some h →
          m.state.store.arena.frame? h = some f → ∃ f', r.state.store.arena.frame? h = some f' ∧
            f'.enclosing = f.enclosing ∧ ∀ x ∈ f.bindings.names, x ∈ f'.bindings.names := by
  intro m hm c hc n r hfinal hcrash
  have hempty : r.stack = [] := Machine.stack_of_isFinal hfinal hcrash
  have hbelow : ∀ below, ∃ k ≤ n, Machine.run k ⟨c, below, m.state⟩ = ⟨r.control, below, r.state⟩ := by
    intro below
    obtain ⟨k, hk, hrun⟩ := Machine.run_onto_add below hfinal
    refine ⟨k, hk, (hrun 0).trans ?_⟩
    rw [Machine.run, Machine.onto, hempty]
    rfl
  obtain ⟨before, after, hsplit⟩ := List.append_of_mem hm
  obtain ⟨_, _, _, ρ, -, ht⟩ := (history_new_alongside sink clock fuel inputs).split hsplit
  obtain ⟨stack, hcode, hacts⟩ := ht.replace hc
  obtain ⟨k, -, hrun⟩ := hbelow stack
  obtain ⟨-, ρ', hend⟩ := hcode.run k
  rw [hrun] at hend
  have hactive : r.state.active = m.state.active := by
    have hafter : r.state.active = _ := hend.setting.twin.active
    rw [hafter, ht.setting.twin.active]
    exact congrArg Activation.current hacts
  refine ⟨hbelow, hactive, fun d h f ha hf => ?_⟩
  have hgrows := Machine.grows_run ⟨c, [], m.state⟩ ht.setting.twin.store.healthy.accounted.recycles n
  exact hgrows.ancestor ha hf (hactive ▸ hend.setting.twin.contains_active)
    hend.setting.twin.store.healthy.intact.live

/-- A `return` from a block in the middle of a function. -/
theorem frames_restored_returned :
    let source := "fun f() { var a = true; { var b = nil; return b; } } f();"
    let s := Session.new {} ⟨fun _ => 0, 0, 0⟩
    let c : Control := .exec (.block [.ret 1 none])
    ∃ m ∈ s.history 99 [(.program, source)], m.state.active ≠ .globals ∧
      ∃ k i, Machine.run k ⟨c, m.stack, m.state⟩ = ⟨.returning .nil, m.stack, i⟩ ∧
        i.active = m.state.active ∧ i.store.arena.contains m.state.active = true := by
  intro source s c
  have hsome : ((s.history 99 [(.program, source)]).any fun m =>
      m.state.active != .globals && (m.state.store.arena.ancestor? m.state.active 0).isSome) = true := by
    decide +kernel
  obtain ⟨m, hm, hcode⟩ := List.any_eq_true.1 hsome
  rw [Bool.and_eq_true, bne_iff_ne, Option.isSome_iff_exists] at hcode
  obtain ⟨hactive, g, hg⟩ := hcode
  obtain ⟨hlive, rfl⟩ := Arena.ancestor?_zero_iff.1 hg
  obtain ⟨f, hf⟩ := Arena.contains_iff.1 hlive
  have hrun : ∃ i, Machine.run 5 ⟨c, [], m.state⟩ = ⟨.returning .nil, [], i⟩ := ⟨_, rfl⟩
  obtain ⟨i, hrun⟩ := hrun
  obtain ⟨hbelow, hrestored, hframes⟩ := frames_restored {} ⟨fun _ => 0, 0, 0⟩ 99
    [(.program, source)] m hm c (.exec _) 5 (by rw [hrun]; rfl) (by rw [hrun]; nofun)
  rw [hrun] at hbelow hrestored hframes
  obtain ⟨k, -, hk⟩ := hbelow m.stack
  obtain ⟨f', hf', -⟩ := hframes 0 _ f hg hf
  exact ⟨m, hm, hactive, k, i, hk, hrestored, Arena.contains_iff.2 ⟨f', hf'⟩⟩

end Session
end Lox
