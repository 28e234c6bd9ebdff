import Lox.Proofs.Relabeling.Frames

/-!
# Relabeling objects

What objects refer to does not depend on labels, so relabeled objects go when the objects go.
-/
namespace Lox

variable (ψ φ : Labels)

def Payload.relabel : Payload → Payload
  | .instance parent fields => .instance (parent.relabel φ) (fields.map (Value.relabel φ))
  | .array elements => .array (elements.map (Value.relabel φ))
  | .binding frame => .binding frame

def Object.relabel (o : Object) : Object := { o with payload := o.payload.relabel φ }

def Heap.relabel (heap : Heap) : Heap :=
  { heap with objects := heap.objects.map (Option.map (Object.relabel φ)) }

namespace Payload

variable (p : Payload)

@[simp] theorem children_relabel : (p.relabel φ).children = p.children := by
  cases p with
  | «instance» parent fields =>
    unfold relabel children
    dsimp only
    rw [Bindings.values_map, Value.objects_relabel]
  | array elements =>
    unfold relabel children
    dsimp only
    rw [Array.foldr_map]
    simp only [Value.object?_relabel]
  | binding frame => rfl

@[simp] theorem owned_relabel : (p.relabel φ).owned = p.owned := by
  cases p <;> rfl

@[simp] theorem nodes_relabel : (p.relabel φ).nodes = p.nodes := by
  cases p with
  | «instance» parent fields =>
    unfold relabel nodes
    dsimp only
    rw [Bindings.values_map, List.flatMap_map, Class.closures_relabel]
    exact congrArg _ (List.flatMap_congr fun v _ => Value.nodes_relabel φ v)
  | array elements =>
    unfold relabel nodes
    dsimp only
    rw [Array.foldr_map]
    simp only [Value.nodes_relabel]
  | binding frame => rfl

theorem relabel_comp : (p.relabel φ).relabel ψ = p.relabel (ψ.comp φ) := by
  cases p with
  | «instance» parent fields =>
    unfold relabel
    dsimp only
    rw [Class.relabel_comp, Bindings.map_map]
    exact congrArg _ (Bindings.map_congr fun v _ => Value.relabel_comp ψ φ v)
  | array elements =>
    unfold relabel
    dsimp only
    rw [Array.map_map]
    exact congrArg _ (Array.map_congr_left fun v _ => Value.relabel_comp ψ φ v)
  | binding frame => rfl

theorem relabel_identity : p.relabel .identity = p := by
  cases p with
  | «instance» parent fields =>
    unfold relabel
    dsimp only
    rw [Class.relabel_identity]
    exact congrArg _ ((Bindings.map_congr fun v _ => Value.relabel_identity v).trans fields.map_id)
  | array elements =>
    refine congrArg array (Eq.trans ?_ (Array.map_id elements))
    exact Array.map_congr_left fun v _ => Value.relabel_identity v
  | binding frame => rfl

end Payload

theorem Object.relabel_comp (o : Object) : (o.relabel φ).relabel ψ = o.relabel (ψ.comp φ) :=
  congrArg (Object.mk o.references) (Payload.relabel_comp ψ φ o.payload)

theorem Object.relabel_identity (o : Object) : o.relabel .identity = o :=
  congrArg (Object.mk o.references) (Payload.relabel_identity o.payload)

namespace Heap

variable (heap : Heap) (id : ObjectId)

theorem relabel_comp : (heap.relabel φ).relabel ψ = heap.relabel (ψ.comp φ) := by
  unfold relabel
  rw [Array.map_map]
  refine congrArg (Heap.mk · _) (Array.map_congr_left fun o _ => ?_)
  cases o with
  | none => rfl
  | some o => exact congrArg some (Object.relabel_comp ψ φ o)

theorem relabel_identity : heap.relabel .identity = heap := by
  unfold relabel
  refine congrArg (Heap.mk · _) (Eq.trans ?_ (Array.map_id heap.objects))
  refine Array.map_congr_left fun o _ => ?_
  cases o with
  | none => rfl
  | some o => exact congrArg some (Object.relabel_identity o)

theorem getElem?_relabel (i : Nat) :
    (heap.relabel φ).objects[i]? = heap.objects[i]?.map (Option.map (Object.relabel φ)) :=
  Array.getElem?_map

@[simp] theorem size_relabel : (heap.relabel φ).objects.size = heap.objects.size := Array.size_map

theorem payload?_relabel :
    (heap.relabel φ).payload? id = (heap.payload? id).map (Payload.relabel φ) := by
  unfold payload? find?
  rw [getElem?_relabel]
  cases heap.objects[id]? with
  | none => rfl
  | some o => cases o <;> rfl

theorem allocate_relabel (p : Payload) : (heap.relabel φ).allocate (p.relabel φ) =
    ((heap.allocate p).1, (heap.allocate p).2.relabel φ) := by
  unfold allocate relabel
  dsimp only
  rw [Array.size_map, Array.map_push]
  rfl

theorem modify_relabel {f f' : Payload → Payload} (h : ∀ p, (f p).relabel φ = f' (p.relabel φ)) :
    (heap.relabel φ).modify id f' = (heap.modify id f).relabel φ := by
  unfold modify relabel
  dsimp only
  refine congrArg (Heap.mk · _) (map_modify (fun o => ?_) heap.objects id)
  cases o with
  | none => rfl
  | some o => exact congrArg (fun p => some (Object.mk o.references p)) (h o.payload)

theorem retain_relabel : (heap.relabel φ).retain id = (heap.retain id).relabel φ := by
  unfold retain relabel
  dsimp only
  refine congrArg (Heap.mk · _) (map_modify (fun o => ?_) heap.objects id)
  cases o <;> rfl

theorem drop_relabel : (heap.relabel φ).drop id =
    ((heap.drop id).1.map (Payload.relabel φ), (heap.drop id).2.relabel φ) := by
  unfold drop
  rw [getElem?_relabel]
  cases heap.objects[id]? with
  | none => rfl
  | some o =>
    cases o with
    | none => rfl
    | some o =>
      unfold relabel
      dsimp only [Option.map_some, Object.relabel]
      by_cases hmore : 1 < o.references
      · simp only [if_pos hmore, Array.map_setIfInBounds]
        rfl
      · simp only [if_neg hmore, Array.map_setIfInBounds]
        rfl

theorem dropNext_relabel (ids : List ObjectId) : (heap.relabel φ).dropNext ids =
    ((heap.dropNext ids).1.map fun (p, rest) => (p.relabel φ, rest),
      (heap.dropNext ids).2.relabel φ) := by
  induction ids generalizing heap with
  | nil => rfl
  | cons id rest ih =>
    unfold dropNext
    rw [drop_relabel]
    rcases heap.drop id with ⟨gone, after⟩
    cases gone with
    | none => exact ih after
    | some p => rfl

theorem discard_relabel (queue : List Handle) (ids : List ObjectId) :
    (heap.relabel φ).discard queue ids =
      ((heap.discard queue ids).1.relabel φ, (heap.discard queue ids).2) := by
  have hdrop := fun (heap : Heap) => dropNext_relabel φ heap
  fun_induction discard heap queue ids with
  | case1 heap queue ids p rest after h hlt ih =>
    rw [discard]
    split
    · next p' rest' after' h' =>
      rw [hdrop, h] at h'
      cases h'
      rw [Payload.owned_relabel, Payload.children_relabel, ih]
    · next after' h' =>
      rw [hdrop, h] at h'
      cases h'
  | case2 heap queue ids after h =>
    rw [discard]
    split
    · next p' rest' after' h' =>
      rw [hdrop, h] at h'
      cases h'
    · next after' h' =>
      rw [hdrop, h] at h'
      cases h'
      rfl

end Heap
end Lox
