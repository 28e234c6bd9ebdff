import Lox.Proofs.Relabeling.Values
import Lox.Proofs.Store.Arena

/-!
# Relabeling frames

Every operation on frames does the same to relabeled frames.
-/
namespace Lox

theorem map_modify {α β : Type} {f : α → β} {g : α → α} {g' : β → β} (h : ∀ a, f (g a) = g' (f a))
    (items : Array α) (i : Nat) : (items.map f).modify i g' = (items.modify i g).map f := by
  refine Array.ext_getElem? fun j => ?_
  rw [Array.getElem?_modify, Array.getElem?_map, Array.getElem?_map, Array.getElem?_modify]
  by_cases hij : i = j
  · rw [if_pos hij, if_pos hij, Option.map_map, Option.map_map]
    exact congrArg (Option.map · _) (funext fun a => (h a).symm)
  · rw [if_neg hij, if_neg hij]

variable (ψ φ : Labels)

def Frame.relabel (f : Frame) : Frame := { f with bindings := f.bindings.map (Value.relabel φ) }

def Slot.relabel : Slot → Slot
  | occupied generation frame => occupied generation (frame.relabel φ)
  | vacant generation => vacant generation

def Arena.relabel (a : Arena) : Arena := { a with slots := a.slots.map (Slot.relabel φ) }

@[simp] theorem Frame.nodes_relabel (f : Frame) : (f.relabel φ).nodes = f.nodes := by
  unfold nodes relabel
  dsimp only
  rw [Bindings.values_map, List.flatMap_map]
  exact congrArg _ (List.flatMap_congr fun v _ => Value.nodes_relabel φ v)

theorem Frame.relabel_comp (f : Frame) : (f.relabel φ).relabel ψ = f.relabel (ψ.comp φ) := by
  unfold relabel
  rw [Bindings.map_map]
  exact congrArg (Frame.mk · _ _) (Bindings.map_congr fun v _ => Value.relabel_comp ψ φ v)

theorem Frame.relabel_identity (f : Frame) : f.relabel .identity = f := by
  unfold relabel
  exact congrArg (Frame.mk · _ _)
    ((Bindings.map_congr fun v _ => Value.relabel_identity v).trans f.bindings.map_id)

theorem Slot.relabel_comp (s : Slot) : (s.relabel φ).relabel ψ = s.relabel (ψ.comp φ) := by
  cases s with
  | occupied generation frame => exact congrArg (occupied generation) (Frame.relabel_comp ψ φ frame)
  | vacant generation => rfl

theorem Slot.relabel_identity (s : Slot) : s.relabel .identity = s := by
  cases s with
  | occupied generation frame => exact congrArg (occupied generation) (Frame.relabel_identity frame)
  | vacant generation => rfl

namespace Arena

variable (a : Arena) (h : Handle)

theorem relabel_comp : (a.relabel φ).relabel ψ = a.relabel (ψ.comp φ) := by
  unfold relabel
  rw [Array.map_map]
  exact congrArg (Arena.mk · _ _ _ _) (Array.map_congr_left fun s _ => Slot.relabel_comp ψ φ s)

theorem relabel_identity : a.relabel .identity = a := by
  unfold relabel
  refine congrArg (Arena.mk · _ _ _ _) (Eq.trans ?_ (Array.map_id a.slots))
  exact Array.map_congr_left fun s _ => Slot.relabel_identity s

theorem getElem?_relabel (i : Nat) : (a.relabel φ).slots[i]? = a.slots[i]?.map (Slot.relabel φ) :=
  Array.getElem?_map

theorem frame?_relabel : (a.relabel φ).frame? h = (a.frame? h).map (Frame.relabel φ) := by
  unfold frame?
  rw [getElem?_relabel]
  cases a.slots[h.index]? with
  | none => rfl
  | some slot =>
    cases slot with
    | vacant generation => rfl
    | occupied generation frame =>
      dsimp only [Option.map_some, Slot.relabel]
      split <;> rfl

@[simp] theorem contains_relabel : (a.relabel φ).contains h = a.contains h := by
  unfold contains
  rw [frame?_relabel, Option.isSome_map]

theorem find?_relabel (name : String) :
    (a.relabel φ).find? h name = (a.find? h name).map (Value.relabel φ) := by
  unfold find?
  rw [frame?_relabel]
  cases a.frame? h with
  | none => rfl
  | some frame => exact Bindings.find?_map _ frame.bindings name

@[simp] theorem ancestor?_relabel (distance : Nat) :
    (a.relabel φ).ancestor? h distance = a.ancestor? h distance := by
  induction distance generalizing h with
  | zero =>
    unfold ancestor?
    rw [contains_relabel]
  | succ distance ih =>
    unfold ancestor?
    rw [frame?_relabel]
    cases a.frame? h with
    | none => rfl
    | some frame =>
      obtain ⟨bindings, enclosing, captured⟩ := frame
      cases enclosing with
      | none => rfl
      | some outer => exact ih outer

theorem findAt?_relabel (distance : Nat) (name : String) :
    (a.relabel φ).findAt? h distance name = (a.findAt? h distance name).map (Value.relabel φ) := by
  unfold findAt?
  rw [ancestor?_relabel]
  cases a.ancestor? h distance with
  | none => rfl
  | some outer => exact find?_relabel φ a outer name

@[simp] theorem names_relabel : (a.relabel φ).names h = a.names h := by
  unfold names
  rw [frame?_relabel]
  cases a.frame? h with
  | none => rfl
  | some frame => exact Bindings.names_map _ frame.bindings

theorem loose?_relabel : (a.relabel φ).loose? h = (a.loose? h).map (Frame.relabel φ) := by
  unfold loose?
  rw [frame?_relabel, Option.filter_map]
  rfl

theorem nextLoose?_relabel (queue : List Handle) : (a.relabel φ).nextLoose? queue =
    (a.nextLoose? queue).map fun (h, frame, rest) => (h, frame.relabel φ, rest) := by
  induction queue with
  | nil => rfl
  | cons h rest ih =>
    unfold nextLoose?
    rw [loose?_relabel]
    cases a.loose? h with
    | none => exact ih
    | some frame => rfl

/-! ## Changes -/

theorem put_relabel (frame : Frame) :
    (a.relabel φ).put h (frame.relabel φ) = (a.put h frame).relabel φ := by
  unfold put relabel
  dsimp only
  rw [Array.map_setIfInBounds]
  rfl

theorem modifySlot_relabel (index : Nat) {f f' : Frame → Frame}
    (hf : ∀ frame, (f frame).relabel φ = f' (frame.relabel φ)) :
    (a.relabel φ).modifySlot index f' = (a.modifySlot index f).relabel φ := by
  unfold modifySlot relabel
  dsimp only
  refine congrArg (Arena.mk · _ _ _ _) (map_modify (fun slot => ?_) a.slots index)
  cases slot with
  | vacant generation => rfl
  | occupied generation frame => exact congrArg (Slot.occupied generation) (hf frame)

theorem create_relabel (enclosing : Handle) : (a.relabel φ).create enclosing =
    ((a.create enclosing).1, (a.create enclosing).2.relabel φ) := by
  obtain ⟨slots, free, live, nextCollection, reclaims⟩ := a
  cases free with
  | nil =>
    unfold create relabel
    dsimp only
    rw [Array.map_push, Array.size_map]
    rfl
  | cons index free =>
    unfold create relabel
    dsimp only
    rw [Array.getElem?_map, Array.map_setIfInBounds]
    -- The generation of the new frame is read off the slot, which keeps it.
    cases slots[index]? with
    | none => rfl
    | some slot => cases slot <;> rfl

theorem vacate_relabel (index : Nat) :
    (a.relabel φ).vacate index = (a.vacate index).relabel φ := by
  unfold vacate
  rw [getElem?_relabel]
  cases a.slots[index]? with
  | none => rfl
  | some slot =>
    cases slot with
    | vacant generation => rfl
    | occupied generation frame =>
      unfold relabel
      dsimp only [Option.map_some, Slot.relabel]
      rw [Array.map_setIfInBounds]
      rfl

theorem capture_relabel : (a.relabel φ).capture h = (a.capture h).relabel φ := by
  refine capture_induction (P := fun a h b => (a.relabel φ).capture h = b.relabel φ) ?_ ?_ ?_ a h
  · intro a h hc
    refine capture_of_captured fun f hf => ?_
    rw [frame?_relabel] at hf
    obtain ⟨f', hf', rfl⟩ := Option.map_eq_some_iff.1 hf
    exact hc f' hf'
  · intro a h ⟨bindings, enclosing, captured⟩ outer hf hloose he ih
    cases show enclosing = some outer from he
    rw [← put_relabel] at ih
    have hf' : (a.relabel φ).frame? h = some (Frame.relabel φ ⟨bindings, some outer, captured⟩) := by
      rw [frame?_relabel, hf]
      rfl
    rw [capture_of_loose hf' hloose, ← ih]
    rfl
  · intro a h ⟨bindings, enclosing, captured⟩ hf hloose he
    cases show enclosing = none from he
    have hf' : (a.relabel φ).frame? h = some (Frame.relabel φ ⟨bindings, none, captured⟩) := by
      rw [frame?_relabel, hf]
      rfl
    rw [capture_of_loose hf' hloose]
    exact put_relabel φ a h ⟨bindings, none, true⟩

end Arena
end Lox
