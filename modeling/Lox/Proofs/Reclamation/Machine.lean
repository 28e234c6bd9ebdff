import Lox.Proofs.Reclamation.Properties

/-!
# Twin machines

The machine that frees nothing goes on in step with the one that does. The stack says which values
are held and which activations there are; that it is well-formed is part of what every step keeps.
-/
namespace Lox

open Store (Pinned)

namespace Cont

/-- Does the continuation wait for a value, or for the end of a statement? -/
def takesValue : Cont → Bool
  | round .. | sequence _ | leave .. | finish _ => false
  | _ => true

/-- Does what comes of it have a value? -/
def givesValue : Cont → Bool
  | drop | print | define _ | branch .. | test .. | result | superclass .. | round .. | sequence _
  | leave .. => false
  | _ => true

end Cont

/-- Does the control end with a value? Nothing is said of a failure. -/
def Control.givesValue? : Control → Option Bool
  | eval _ | yield _ => some true
  | exec _ | done | returning _ => some false
  | failed _ | crashed => none

namespace Machine

/-- Every continuation gives what the next one takes. -/
def Fits (value : Bool) : List Cont → Prop
  | [] => True
  | k :: rest => k.takesValue = value ∧ Fits k.givesValue rest

/-- The values that the stack owns. -/
def heldAll (stack : List Cont) : List Value := stack.flatMap Cont.held

/-- The function whose call goes on when a statement has ended. -/
def callee? : List Cont → Option Function
  | .finish f :: _ => some f
  | _ => none

/-- The activations that the stack will leave. -/
def activations : List Cont → List Activation
  | [] => []
  | .leave _ frame :: rest => ⟨frame, callee? rest⟩ :: activations rest
  | _ :: rest => activations rest

/-- Activations are left for those that they were entered from. -/
def Chained : List Cont → Prop
  | [] => True
  | .leave previous _ :: rest => previous = Activation.current (activations rest) ∧ Chained rest
  | _ :: rest => Chained rest

variable {P : Handle → Handle → Prop} {ρ ρ' : Renaming} {i j : Interpreter} {stack : List Cont}
  {held held' : List Value} {v : Value}

theorem mem_heldAll_of_callee? {f : Function} (h : callee? stack = some f) :
    .function f ∈ heldAll stack := by
  unfold callee? at h
  split at h
  · cases h
    exact List.mem_cons_self
  · cases h

/-- The stack holds the functions that run. -/
theorem pinned (held : List Value) (stack : List Cont) :
    Pinned (held ++ heldAll stack) (activations stack) := by
  suffices hstack : Pinned (heldAll stack) (activations stack) from
    fun a ha f hf => List.mem_append_right _ (hstack a ha f hf)
  induction stack with
  | nil => nofun
  | cons k rest ih =>
    have hrest : Pinned (heldAll (k :: rest)) (activations rest) :=
      fun a ha f hf => List.mem_append_right _ (ih a ha f hf)
    cases k with
    | leave previous frame =>
      intro a ha f hf
      obtain rfl | ha := List.mem_cons.1 ha
      · exact List.mem_append_right _ (mem_heldAll_of_callee? hf)
      · exact hrest a ha f hf
    | _ => exact hrest

/-- Twin interpreters while `held` is held besides what the stack holds. -/
structure Setting (P : Handle → Handle → Prop) (ρ : Renaming) (i j : Interpreter)
    (held : List Value) (stack : List Cont) : Prop where
  twin : i.Twin P ρ j [] (held ++ heldAll stack) (activations stack)
  chained : Chained stack

namespace Setting

theorem pinned (_ : Setting P ρ i j held stack) :
    Pinned (held ++ heldAll stack) (activations stack) :=
  Machine.pinned held stack

theorem perm (hs : Setting P ρ i j held stack) (hp : held.Perm held') :
    Setting P ρ i j held' stack :=
  ⟨hs.twin.perm (hp.append_right _), hs.chained⟩

theorem forget (hs : Setting P ρ i j held stack) (hsub : held'.Sublist held) :
    Setting P ρ i j held' stack := by
  have hsub := hsub.append (List.Sublist.refl (heldAll stack))
  exact ⟨hs.twin.rearrange (fun id => (hsub.filterMap Value.object?).count_le id)
    fun w hw => .held (hsub.subset hw), hs.chained⟩

theorem hold (hs : Setting P ρ i j held stack) (hobject : v.object? = none)
    (hi : i.store.Supports v) (hj : j.store.Supports (v.rename ρ)) :
    Setting P ρ i j (v :: held) stack :=
  ⟨hs.twin.hold hobject hi hj, hs.chained⟩

theorem discard (hs : Setting P ρ i j (v :: held) stack) :
    Setting P ρ (i.discard v) (j.discard (v.rename ρ)) held stack :=
  ⟨hs.twin.discard, hs.chained⟩

theorem discardAll {values : List Value} (hs : Setting P ρ i j (values ++ held) stack) :
    Setting P ρ (i.discardAll values) (j.discardAll (values.map (Value.rename ρ))) held stack := by
  refine ⟨?_, hs.chained⟩
  have htwin := hs.twin
  rw [List.append_assoc] at htwin
  exact htwin.discardAll

theorem retain (hs : Setting P ρ i j held stack)
    (hv : i.store.Accessible (held ++ heldAll stack) v) :
    Setting P ρ (i.retain v) (j.retain (v.rename ρ)) (v :: held) stack :=
  ⟨hs.twin.retain hv, hs.chained⟩

theorem drain (hs : Setting P ρ i j held stack) : Setting P ρ i.drain j.drain held stack :=
  ⟨hs.twin.drain hs.pinned, hs.chained⟩

theorem define (hs : Setting P ρ i j (v :: held) stack) (name : String) :
    Setting P ρ (i.define name v) (j.define name (v.rename ρ)) held stack :=
  ⟨hs.twin.define name, hs.chained⟩

theorem leave {previous frame : Handle} (hs : Setting P ρ i j held (.leave previous frame :: stack)) :
    Setting P ρ (i.leave previous frame) (j.leave (ρ previous) (ρ frame)) held stack := by
  obtain ⟨htwin, rfl, hchained⟩ := hs
  exact ⟨Interpreter.Twin.leave (a := ⟨frame, callee? stack⟩) htwin (Machine.pinned held stack), hchained⟩

/-- The handles on the stack are those of live frames, which a new frame does not disturb. -/
theorem rename_stack (hs : Setting P ρ i j held stack)
    (hagree : ∀ h, i.store.arena.contains h = true → ρ' h = ρ h) :
    stack.map (Cont.rename ρ') = stack.map (Cont.rename ρ) := by
  have hvalues : ∀ v ∈ heldAll stack, v.rename ρ' = v.rename ρ := fun v hv =>
    hs.twin.store.healthy.agree hagree (.held (List.mem_append_right _ hv))
  have hframes : ∀ a ∈ activations stack, ρ' a.frame = ρ a.frame :=
    fun a ha => hagree _ (hs.twin.store.healthy.intact.entered a ha)
  have hglobals : ρ' .globals = ρ .globals := hagree _ hs.twin.contains_globals
  have hchained := hs.chained
  clear hs
  induction stack with
  | nil => rfl
  | cons k rest ih =>
    have hk : ∀ v ∈ k.held, v.rename ρ' = v.rename ρ :=
      fun v hv => hvalues v (List.mem_append_left _ hv)
    have hrest : ∀ v ∈ heldAll rest, v.rename ρ' = v.rename ρ :=
      fun v hv => hvalues v (List.mem_append_right _ hv)
    rw [List.map_cons, List.map_cons]
    cases k with
    | leave previous frame =>
      obtain ⟨rfl, hchained⟩ := hchained
      have hframe : ρ' frame = ρ frame := hframes _ List.mem_cons_self
      have hprevious : ρ' (Activation.current (activations rest)) =
          ρ (Activation.current (activations rest)) := by
        cases ha : activations rest with
        | nil => exact hglobals
        | cons a acts =>
          exact hframes a (List.mem_cons_of_mem _ (ha ▸ List.mem_cons_self))
      rw [ih hrest (fun a ha => hframes a (List.mem_cons_of_mem _ ha)) hchained]
      unfold Cont.rename
      dsimp only
      rw [hframe, hprevious]
    | right op line left =>
      rw [ih hrest hframes hchained]
      exact congrArg (· :: _) (congrArg (Cont.right op line) (hk left List.mem_cons_self))
    | argument line callee ready remaining =>
      rw [ih hrest hframes hchained]
      have hready : ready.map (Value.rename ρ') = ready.map (Value.rename ρ) :=
        List.map_congr_left fun v hv => hk v (List.mem_cons_of_mem _ hv)
      unfold Cont.rename
      dsimp only
      rw [hk callee List.mem_cons_self, hready]
    | finish f =>
      rw [ih hrest hframes hchained]
      exact congrArg (· :: _) (congrArg Cont.finish (Value.function.inj (hk _ List.mem_cons_self)))
    | _ =>
      rw [ih hrest hframes hchained]
      rfl

end Setting

/-- The machine `n` frees nothing and is where `m` is. -/
structure Twin (P : Handle → Handle → Prop) (ρ : Renaming) (m n : Machine) : Prop where
  control : n.control = m.control.rename ρ
  stack : n.stack = m.stack.map (Cont.rename ρ)
  setting : Setting P ρ m.state n.state m.control.held m.stack
  fits : ∀ b, m.control.givesValue? = some b → Fits b m.stack

end Machine
end Lox
