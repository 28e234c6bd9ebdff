import Lox.Proofs.Locals.Frames

/-!
# Objects under other names

Objects have the same addresses in both runs, and go at the same time.
-/
namespace Lox

section

variable (ξ : Exchange) (μ : Marking)

inductive Payload.Exchanged : Payload → Payload → Prop where
  | instance {c d fields fields'} (hc : Class.Exchanged ξ μ c d)
    (hfields : fields.Matched id (Value.Exchanged ξ μ) fields') :
    Payload.Exchanged (.instance c fields) (.instance d fields')
  | array {elements elements' : Array Value}
    (h : ∀ i : Nat, Option.Rel (Value.Exchanged ξ μ) elements[i]? elements'[i]?) :
    Payload.Exchanged (.array elements) (.array elements')
  | binding (frame : Handle) : Payload.Exchanged (.binding frame) (.binding frame)

structure Object.Exchanged (o o' : Object) : Prop where
  references : o'.references = o.references
  payload : o.payload.Exchanged ξ μ o'.payload

structure Heap.Exchanged (heap heap' : Heap) : Prop where
  objects : ∀ i : Nat, Option.Rel (Option.Rel (Object.Exchanged ξ μ)) heap.objects[i]? heap'.objects[i]?
  nextStamp : heap'.nextStamp = heap.nextStamp

end

variable {ξ : Exchange} {μ μ' : Marking}

namespace Payload.Exchanged

variable {p q : Payload}

theorem mono (h : p.Exchanged ξ μ q) (hμ : μ.Extends μ') : p.Exchanged ξ μ' q := by
  cases h with
  | «instance» hc hfields => exact .instance (hc.mono hμ) (hfields.mono fun _ _ hv => hv.mono hμ)
  | array h => exact .array fun i => rel_mono (h i) fun _ _ hv => hv.mono hμ
  | binding frame => exact .binding frame

theorem children (h : p.Exchanged ξ μ q) : q.children = p.children := by
  cases h with
  | «instance» hc hfields => exact Value.Exchanged.objects hfields.values
  | array h =>
    unfold Payload.children
    dsimp only
    rw [← Array.foldr_toList, ← Array.foldr_toList]
    refine foldr_eq_of_forall₂ (forall₂_of_rel h) (fun v w hv => ?_) []
    rw [hv.object?]
  | binding frame => rfl

theorem owned (h : p.Exchanged ξ μ q) : q.owned = p.owned := by
  cases h <;> rfl

theorem nodes (h : p.Exchanged ξ μ q) : q.nodes = p.nodes := by
  cases h with
  | «instance» hc hfields =>
    unfold Payload.nodes
    dsimp only
    rw [hc.closures, Value.Exchanged.flatMap_nodes hfields.values]
  | array h =>
    unfold Payload.nodes
    dsimp only
    rw [← Array.foldr_toList, ← Array.foldr_toList]
    refine foldr_eq_of_forall₂ (forall₂_of_rel h) (fun v w hv => ?_) []
    rw [hv.nodes]
  | binding frame => rfl

end Payload.Exchanged

namespace Heap.Exchanged

variable {heap heap' : Heap} (h : heap.Exchanged ξ μ heap')

include h

theorem mono (hμ : μ.Extends μ') : heap.Exchanged ξ μ' heap' :=
  ⟨fun i => rel_mono (h.objects i) fun _ _ ho => rel_mono ho fun _ _ ho => ⟨ho.references, ho.payload.mono hμ⟩,
    h.nextStamp⟩

theorem size : heap'.objects.size = heap.objects.size := size_eq_of_rel h.objects

theorem payload? (id : ObjectId) :
    Option.Rel (Payload.Exchanged ξ μ) (heap.payload? id) (heap'.payload? id) := by
  unfold Heap.payload? Heap.find?
  obtain ⟨hs, ht⟩ | ⟨o, o', hs, ht, ho⟩ := rel_cases (h.objects id)
  · rw [hs, ht]
    exact .none
  · rw [hs, ht]
    cases ho with
    | none => exact .none
    | some ho => exact .some ho.payload

theorem allocate {p q : Payload} (hp : p.Exchanged ξ μ q) :
    (heap'.allocate q).1 = (heap.allocate p).1 ∧ (heap.allocate p).2.Exchanged ξ μ (heap'.allocate q).2 :=
  ⟨h.size, rel_push h.objects (.some ⟨rfl, hp⟩), h.nextStamp⟩

theorem modify (id : ObjectId) {f g : Payload → Payload} (hfg : ∀ p q, p.Exchanged ξ μ q → (f p).Exchanged ξ μ (g q)) :
    (heap.modify id f).Exchanged ξ μ (heap'.modify id g) := by
  refine ⟨rel_modify h.objects fun o o' ho => ?_, h.nextStamp⟩
  cases ho with
  | none => exact .none
  | some ho => exact .some ⟨ho.references, hfg _ _ ho.payload⟩

theorem retain (id : ObjectId) : (heap.retain id).Exchanged ξ μ (heap'.retain id) := by
  refine ⟨rel_modify h.objects fun o o' ho => ?_, h.nextStamp⟩
  cases ho with
  | none => exact .none
  | some ho => exact .some ⟨congrArg (· + 1) ho.references, ho.payload⟩

theorem drop (id : ObjectId) : Option.Rel (Payload.Exchanged ξ μ) (heap.drop id).1 (heap'.drop id).1 ∧
    (heap.drop id).2.Exchanged ξ μ (heap'.drop id).2 := by
  unfold Heap.drop
  obtain ⟨hs, ht⟩ | ⟨o, o', hs, ht, ho⟩ := rel_cases (h.objects id)
  · rw [hs, ht]
    exact ⟨.none, h⟩
  · rw [hs, ht]
    cases ho with
    | none => exact ⟨.none, h⟩
    | some ho =>
      dsimp only
      rw [ho.references]
      split
      · exact ⟨.none, rel_setIfInBounds h.objects (.some ⟨rfl, ho.payload⟩), h.nextStamp⟩
      · exact ⟨.some ho.payload, rel_setIfInBounds h.objects .none, h.nextStamp⟩

omit h

/-- The same objects go. -/
theorem dropNext (h : heap.Exchanged ξ μ heap') (ids : List ObjectId) :
    Option.Rel (fun found found' => found.1.Exchanged ξ μ found'.1 ∧ found'.2 = found.2)
      (heap.dropNext ids).1 (heap'.dropNext ids).1 ∧
        (heap.dropNext ids).2.Exchanged ξ μ (heap'.dropNext ids).2 := by
  induction ids generalizing heap heap' with
  | nil => exact ⟨.none, h⟩
  | cons id rest ih =>
    unfold Heap.dropNext
    obtain ⟨hgone, hafter⟩ := h.drop id
    revert hgone hafter
    rcases heap.drop id with ⟨gone, after⟩
    rcases heap'.drop id with ⟨gone', after'⟩
    intro hgone hafter
    cases hgone with
    | none => exact ih hafter
    | some hp => exact ⟨.some ⟨hp, rfl⟩, hafter⟩

theorem discard (h : heap.Exchanged ξ μ heap') (queue : List Handle) (ids : List ObjectId) :
    (heap.discard queue ids).1.Exchanged ξ μ (heap'.discard queue ids).1 ∧
      (heap'.discard queue ids).2 = (heap.discard queue ids).2 := by
  fun_induction Heap.discard heap queue ids generalizing heap' with
  | case1 heap queue ids p rest after hd hlt ih =>
    obtain ⟨hfound, hafter⟩ := h.dropNext ids
    rw [hd] at hfound hafter
    rw [Heap.discard.eq_def heap']
    split
    · next p' rest' after' hd' =>
      rw [hd'] at hfound hafter
      cases hfound with
      | some hfound =>
        obtain ⟨hp, hrest⟩ := hfound
        cases show rest' = rest from hrest
        rw [hp.owned, hp.children]
        exact ih hafter
    · next after' hd' =>
      rw [hd'] at hfound
      cases hfound
  | case2 heap queue ids after hd =>
    obtain ⟨hfound, hafter⟩ := h.dropNext ids
    rw [hd] at hfound hafter
    rw [Heap.discard.eq_def heap']
    split
    · next p' rest' after' hd' =>
      rw [hd'] at hfound
      cases hfound
    · next after' hd' =>
      rw [hd'] at hafter
      exact ⟨hafter, rfl⟩

end Heap.Exchanged

end Lox
