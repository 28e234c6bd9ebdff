import Lox.Proofs.Reclamation.Objects
import Lox.Proofs.Store.Growth

/-!
# What is stored

A property of values holds of all that is stored if it holds of what every frame binds and of what every
object has. No operation of the store makes up values: it stores what it is given, or forgets. The two
names that programs cannot declare are bound to what they stand for.
-/
namespace Lox

/-- `this` is an instance, and `super` is a class. -/
def Value.Suits (name : String) (v : Value) : Prop :=
  (name = "this" → ∃ id, v = .instance id) ∧ (name = "super" → ∃ c, v = .classObject c)

namespace Store

theorem payload?_modify_eq (heap : Heap) (id other : ObjectId) (f : Payload → Payload) :
    (heap.modify id f).payload? other =
      if other = id then (heap.payload? id).map f else heap.payload? other := by
  unfold Heap.payload? Heap.find? Heap.modify
  dsimp only
  rw [Array.getElem?_modify]
  split
  · next heq =>
    subst heq
    rw [if_pos rfl]
    rcases heap.objects[id]? with _ | _ | object <;> rfl
  · next hne => rw [if_neg (Ne.symm hne)]

/-- All stored values have the property `V`, and those that are bound suit their names. -/
structure Each (V : Value → Prop) (s : Store) : Prop where
  bound : ∀ h f, s.arena.frame? h = some f → ∀ name v, f.bindings.find? name = some v → V v ∧ v.Suits name
  inside : ∀ id p, s.heap.payload? id = some p → ∀ v ∈ p.values, V v

namespace Each

variable {V W : Value → Prop} {s t : Store} {v : Value} {h : Handle} {id : ObjectId} {name : String}

theorem mono (hs : s.Each V) (hVW : ∀ v, V v → W v) : s.Each W :=
  ⟨fun h f hf name v hv => (hs.bound h f hf name v hv).imp_left (hVW v),
    fun id p hp v hv => hVW v (hs.inside id p hp v hv)⟩

theorem remains (hs : s.Each V) (ht : t.Remains s) : t.Each V :=
  ⟨fun h f hf => hs.bound h f (ht.frames h f hf), fun id p hp => hs.inside id p (ht.heap.payload id p hp)⟩

/-! ## Reading -/

theorem find? (hs : s.Each V) (hfind : s.arena.find? h name = some v) : V v ∧ v.Suits name := by
  obtain ⟨f, hf, hv⟩ := Option.bind_eq_some_iff.1 hfind
  exact hs.bound h f hf name v hv

theorem findAt? {distance : Nat} (hs : s.Each V) (hfind : s.arena.findAt? h distance name = some v) :
    V v ∧ v.Suits name := by
  obtain ⟨g, hg, hv⟩ := Option.bind_eq_some_iff.1 hfind
  exact hs.find? hv

theorem field? (hs : s.Each V) (hfield : s.field? id name = some v) : V v := by
  unfold Store.field? at hfield
  split at hfield
  · next hp => exact hs.inside id _ hp v (List.mem_cons_of_mem _ (mem_values_of_find? hfield))
  · cases hfield

theorem parent? {c : Class} (hs : s.Each V) (hparent : s.parent? id = some c) : V (.classObject c) := by
  unfold Store.parent? at hparent
  split at hparent
  · next hp =>
    cases hparent
    exact hs.inside id _ hp _ List.mem_cons_self
  · cases hparent

theorem elements? {elements : Array Value} (hs : s.Each V) (he : s.elements? id = some elements) :
    ∀ v ∈ elements.toList, V v := by
  unfold Store.elements? at he
  split at he
  · next hp =>
    cases he
    exact hs.inside id _ hp
  · cases he

theorem element (hs : s.Each V) (hnil : V .nil) (index : Value) : V (s.element id index) := by
  unfold Store.element
  split
  · next i hi =>
    cases hget : (s.elements? id).bind (·[i]?) with
    | none => exact hnil
    | some v =>
      obtain ⟨elements, he, hv⟩ := Option.bind_eq_some_iff.1 hget
      exact hs.elements? he v (Array.mem_toList_iff.2 (Array.mem_of_getElem? hv))
  · exact hnil

/-! ## Writing -/

theorem discard (hs : s.Each V) (v : Value) : (s.discard v).Each V := hs.remains (remains_discard s v)

theorem discardAll (hs : s.Each V) (values : List Value) : (s.discardAll values).Each V :=
  hs.remains (remains_discardObjects s _)

theorem retain (hs : s.Each V) (v : Value) : (s.retain v).Each V := hs.remains (remains_retain s v)

theorem release (hs : s.Each V) (h : Handle) : (s.release h).2.Each V := hs.remains (remains_release s h)

theorem drain (hs : s.Each V) : s.drain.2.Each V := hs.remains (remains_drain s)

theorem define (hs : s.Each V) (h : Handle) (hv : V v) (hsuits : v.Suits name) :
    (s.define h name v).Each V := by
  cases hf : s.arena.frame? h with
  | none =>
    rw [define_of_none hf]
    exact hs.discard v
  | some f =>
    rw [define_of_some hf]
    have hput : Each V
        { s with arena := s.arena.put h { f with bindings := f.bindings.insert name v } } := by
      refine ⟨fun g f' hf' x w hw => ?_, hs.inside⟩
      dsimp only at hf'
      obtain ⟨-, rfl⟩ | hf' := Arena.frame?_put_cases hf hf'
      · rw [Bindings.find?_insert] at hw
        split at hw
        · next hname =>
          cases hw
          exact ⟨hv, hname ▸ hsuits⟩
        · exact hs.bound h f hf x w hw
      · exact hs.bound g f' hf' x w hw
    exact hput.discardAll _

theorem assign (hs : s.Each V) (h : Handle) (hv : V v) (hsuits : v.Suits name) :
    (s.assign h name v).2.Each V := by
  unfold Store.assign
  split
  · exact hs.define h hv hsuits
  · exact hs.discard v

theorem assignAt (hs : s.Each V) (h : Handle) (distance : Nat) (hv : V v) (hsuits : v.Suits name) :
    (s.assignAt h distance name v).2.Each V := by
  unfold Store.assignAt
  split
  · exact hs.assign _ hv hsuits
  · exact hs.discard v

theorem create (hs : s.Each V) (hr : s.arena.Recycles) (enclosing : Handle) :
    (s.create enclosing).2.Each V := by
  refine ⟨fun g f hf x w hw => ?_, hs.inside⟩
  obtain ⟨rfl, rfl⟩ | hf := Arena.frame?_create_cases hr enclosing hf
  · cases hw
  · exact hs.bound g f hf x w hw

theorem capture (hs : s.Each V) (h : Handle) : (s.capture h).Each V := by
  refine ⟨fun g f hf => ?_, hs.inside⟩
  obtain hsame | ⟨f', hf', hsame⟩ := Arena.frame?_capture s.arena h g
  · exact hs.bound g f (hsame ▸ hf)
  · change (s.arena.capture h).frame? g = some f at hf
    rw [hsame] at hf
    cases hf
    exact hs.bound g f' hf'

theorem allocate {p : Payload} (hs : s.Each V) (hp : ∀ v ∈ p.values, V v) : (s.allocate p).2.Each V := by
  refine ⟨hs.bound, fun id q hq => ?_⟩
  rw [payload?_allocate] at hq
  split at hq
  · cases hq
    exact hp
  · exact hs.inside id q hq

theorem modify {f : Payload → Payload} (hs : s.Each V)
    (hf : ∀ p, s.heap.payload? id = some p → ∀ v ∈ (f p).values, V v) :
    Each V { s with heap := s.heap.modify id f } := by
  refine ⟨hs.bound, fun other q hq => ?_⟩
  dsimp only at hq
  rw [payload?_modify_eq] at hq
  split at hq
  · obtain ⟨p, hp, rfl⟩ := Option.map_eq_some_iff.1 hq
    exact hf p hp
  · exact hs.inside other q hq

theorem setField (hs : s.Each V) (id : ObjectId) (name : String) (hv : V v) :
    (s.setField id name v).Each V := by
  have hmodify : Each V { s with heap := s.heap.modify id (Payload.setField name v) } := by
    refine hs.modify fun p hp w hw => ?_
    cases p with
    | «instance» parent fields =>
      obtain rfl | hw := List.mem_cons.1 hw
      · exact hs.inside id _ hp _ List.mem_cons_self
      · obtain rfl | hw := mem_values_insert hw
        · exact hv
        · exact hs.inside id _ hp w (List.mem_cons_of_mem _ hw)
    | _ => exact hs.inside id _ hp w hw
  unfold Store.setField
  dsimp only
  split
  · exact hmodify.discard _
  · exact hmodify

theorem setElement (hs : s.Each V) (id : ObjectId) (index : Value) (hv : V v) :
    (s.setElement id index v).2.Each V := by
  unfold Store.setElement
  split
  · refine discard (modify (hs.retain v) fun p hp w hw => ?_) _
    have hold := (hs.retain v).inside id p hp
    cases p with
    | array elements =>
      obtain hw | rfl := Array.mem_or_eq_of_mem_setIfInBounds (Array.mem_toList_iff.1 hw)
      · exact hold w (Array.mem_toList_iff.2 hw)
      · exact hv
    | _ => exact hold w hw
  · exact hs

end Each
end Store
end Lox
