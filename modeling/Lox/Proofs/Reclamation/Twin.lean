import Lox.Proofs.Reclamation.Mirror

/-!
# Twins

A healthy store beside its healthy mirror. Every operation of the store, done on both with
arguments that are the same up to the renaming, gives results that are.
-/
namespace Lox.Store

structure Twin (P : Handle → Handle → Prop) (ρ : Renaming) (s u : Store) (extra : List ObjectId)
    (held : List Value) (acts : List Activation) : Prop where
  healthy : s.Healthy extra held acts
  shadow : u.Healthy extra (held.map (Value.rename ρ)) (acts.map (Activation.rename ρ))
  mirror : Mirror P ρ s u held
  keeps : u.arena.reclaims = false

variable {P : Handle → Handle → Prop} {ρ : Renaming} {s t u w : Store} {extra : List ObjectId}
  {held held' : List Value} {acts acts' : List Activation} {v : Value}

namespace Mirror

/-- Marks of captured frames and stamps play no part. -/
theorem congr (hm : Mirror P ρ s u held)
    (hs : ∀ h f, t.arena.frame? h = some f → ∃ f', s.arena.frame? h = some f' ∧
      f'.bindings = f.bindings ∧ f'.enclosing = f.enclosing)
    (hu : ∀ h f, u.arena.frame? h = some f → ∃ f', w.arena.frame? h = some f' ∧
      f'.bindings = f.bindings ∧ f'.enclosing = f.enclosing)
    (hps : t.heap.objects = s.heap.objects) (hpu : w.heap.objects = u.heap.objects)
    (hstamp : w.heap.nextStamp = t.heap.nextStamp) : Mirror P ρ t w held := by
  have hpayload : ∀ {a b : Heap}, a.objects = b.objects → ∀ id, a.payload? id = b.payload? id := by
    intro a b h id
    unfold Heap.payload? Heap.find?
    rw [h]
  have hcontains : ∀ h, t.arena.contains h = true → s.arena.contains h = true := by
    intro h hc
    obtain ⟨f, hf⟩ := Arena.contains_iff.1 hc
    obtain ⟨f', hf', -⟩ := hs h f hf
    exact Arena.contains_iff.2 ⟨f', hf'⟩
  refine ⟨hm.globals, fun h f hf => ?_, fun h h' hc hc' => hm.apart h h' (hcontains h hc) (hcontains h' hc'),
    fun h hc => hm.paired h (hcontains h hc), fun v id p hv hid hp => ?_, ?_, hstamp⟩
  · obtain ⟨f', hf', hbindings, henclosing⟩ := hs h f hf
    obtain ⟨g, hg, hgb, hge⟩ := hm.frames h f' hf'
    obtain ⟨g', hg', hgb', hge'⟩ := hu (ρ h) g hg
    exact ⟨g', hg', by rw [hgb', hgb, hbindings], by rw [hge', hge, henclosing]⟩
  · rw [hpayload hpu]
    rw [hpayload hps] at hp
    refine hm.objects v id p (hv.of_within (fun h f hf w hw => ?_)
      (fun id p hp v hid hv w hw => ?_) fun w hw => .held hw) hid hp
    · obtain ⟨f', hf', hbindings, -⟩ := hs h f hf
      exact .bound hf' (hbindings ▸ hw)
    · rw [hpayload hps] at hp
      exact .inside hv hid hp hw
  · rw [hpu, hps]
    exact hm.size

/-- A frame and its image get other bindings. -/
theorem put {h : Handle} {frame new g new' : Frame} (hm : Mirror P ρ s u held)
    (hf : s.arena.frame? h = some frame) (hg : u.arena.frame? (ρ h) = some g)
    (hbindings : new'.bindings = new.bindings.map (Value.rename ρ))
    (henclosing : new'.enclosing = new.enclosing.map ρ)
    (hvalues : ∀ w ∈ new.bindings.values, s.Accessible held w)
    (hheld : ∀ w ∈ held', s.Accessible held w) :
    Mirror P ρ { s with arena := s.arena.put h new } { u with arena := u.arena.put (ρ h) new' }
      held' := by
  have hcontains : ∀ h', (s.arena.put h new).contains h' = true → s.arena.contains h' = true := by
    intro h' hc
    obtain ⟨f, hf'⟩ := Arena.contains_iff.1 hc
    obtain ⟨rfl, -⟩ | hf' := Arena.frame?_put_cases hf hf'
    · exact Arena.contains_iff.2 ⟨frame, hf⟩
    · exact Arena.contains_iff.2 ⟨f, hf'⟩
  refine ⟨hm.globals, fun h' f hf' => ?_,
    fun a b ha hb => hm.apart a b (hcontains a ha) (hcontains b hb),
    fun h' hc => hm.paired h' (hcontains h' hc), fun v id p hv hid hp => ?_, hm.size, hm.nextStamp⟩
  · dsimp only at hf' ⊢
    rw [Arena.frame?_put hf] at hf'
    rw [Arena.frame?_put hg]
    split at hf'
    · next heq =>
      cases hf'
      exact ⟨new', if_pos (congrArg ρ heq), hbindings, henclosing⟩
    · next hne =>
      obtain ⟨g', hg', hsame⟩ := hm.frames h' f hf'
      refine ⟨g', (if_neg fun heq => hne ?_).trans hg', hsame⟩
      exact hm.apart h' h (Arena.contains_iff.2 ⟨f, hf'⟩) (Arena.contains_iff.2 ⟨frame, hf⟩) heq
  · refine hm.objects v id p (hv.of_within (fun h' f hf' w hw => ?_)
      (fun id p hp v hid hv w hw => .inside hv hid hp hw) hheld) hid hp
    dsimp only at hf'
    obtain ⟨-, rfl⟩ | hf' := Arena.frame?_put_cases hf hf'
    · exact hvalues w hw
    · exact .bound hf' hw

end Mirror

namespace Twin

theorem mem_ids (extra : List ObjectId) (held : List Value) :
    ∀ id ∈ Value.objects held, id ∈ extra ++ Value.objects held :=
  fun _ h => List.mem_append_right _ h

/-- Frames and objects go on both sides. -/
theorem remains {extra' : List ObjectId} (ht : Twin P ρ s u extra held acts) (hs : t.Remains s)
    (hu : w.Remains u) (harena : ∀ h, w.arena.frame? h = u.arena.frame? h)
    (hkeeps : w.arena.reclaims = u.arena.reclaims) (healthy : t.Healthy extra' held' acts')
    (shadow : w.Healthy extra' (held'.map (Value.rename ρ)) (acts'.map (Activation.rename ρ)))
    (hheld : ∀ v ∈ held', s.Accessible held v) : Twin P ρ t w extra' held' acts' := by
  refine ⟨healthy, shadow, ht.mirror.remains hs hu (fun h f hf => (harena h).trans hf)
    shadow.accounted ?_ hheld, hkeeps.trans ht.keeps⟩
  rw [Value.objects_rename]
  exact mem_ids extra' held'

theorem rearrange (ht : Twin P ρ s u extra held acts)
    (hcount : ∀ id, (Value.objects held').count id ≤ (Value.objects held).count id)
    (hmem : ∀ w ∈ held', s.Accessible held w) : Twin P ρ s u extra held' acts := by
  refine ht.remains (Remains.refl s) (Remains.refl u) (fun _ => rfl) rfl
    (ht.healthy.rearrange (fun id => ?_) hmem) (ht.shadow.rearrange (fun id => ?_) fun w hw => ?_) hmem
  · rw [List.count_append, List.count_append]
    exact Nat.add_le_add_left (hcount id) _
  · rw [List.count_append, List.count_append, Value.objects_rename, Value.objects_rename]
    exact Nat.add_le_add_left (hcount id) _
  · obtain ⟨v, hv, rfl⟩ := List.mem_map.1 hw
    exact ht.mirror.accessible (hmem v hv)

theorem perm (ht : Twin P ρ s u extra held acts) (hp : held.Perm held') :
    Twin P ρ s u extra held' acts :=
  ht.rearrange (fun id => Nat.le_of_eq ((hp.filterMap Value.object?).count_eq id).symm)
    fun _ hw => .held (hp.mem_iff.2 hw)

/-- What is held can be forgotten; its object stays then. -/
theorem forget (ht : Twin P ρ s u extra (v :: held) acts) : Twin P ρ s u extra held acts := by
  refine ht.rearrange (fun id => ?_) fun w hw => .held (List.mem_cons_of_mem _ hw)
  rw [count_objects_cons v held]
  exact Nat.le_add_left _ _

/-- Both sides hold a value that refers to no object besides. -/
theorem hold (ht : Twin P ρ s u extra held acts) (hobject : v.object? = none)
    (hs : s.Supports v) (hu : u.Supports (v.rename ρ)) : Twin P ρ s u extra (v :: held) acts := by
  have hnone : (v.rename ρ).object? = none := (Value.object?_rename ρ v).trans hobject
  refine ⟨ht.healthy.hold hobject hs, ht.shadow.hold hnone hu, ⟨ht.mirror.globals, ht.mirror.frames,
    ht.mirror.apart, ht.mirror.paired, fun x id p hx hid hp => ?_, ht.mirror.size,
    ht.mirror.nextStamp⟩, ht.keeps⟩
  obtain rfl | hx := hx.eq_or_of_cons hobject
  · rw [hobject] at hid
    cases hid
  · exact ht.mirror.objects x id p hx hid hp

theorem trade {w : Value} (ht : Twin P ρ s u extra (v :: held) acts)
    (hobject : w.object? = v.object?) (hs : s.Supports w) (hu : u.Supports (w.rename ρ)) :
    Twin P ρ s u extra (w :: held) acts := by
  have hrename : (w.rename ρ).object? = (v.rename ρ).object? := by
    rw [Value.object?_rename, Value.object?_rename, hobject]
  refine ⟨ht.healthy.trade hobject hs, ht.shadow.trade hrename hu, ⟨ht.mirror.globals,
    ht.mirror.frames, ht.mirror.apart, ht.mirror.paired, fun x id p hx hid hp => ?_, ht.mirror.size,
    ht.mirror.nextStamp⟩, ht.keeps⟩
  obtain rfl | hx := hx.of_traded hobject
  · exact ht.mirror.objects v id p (.held List.mem_cons_self) (hobject.symm.trans hid) hp
  · exact ht.mirror.objects x id p hx hid hp

/-! ## References -/

theorem discardAll {values : List Value} (ht : Twin P ρ s u extra (values ++ held) acts) :
    Twin P ρ (s.discardAll values) (u.discardAll (values.map (Value.rename ρ))) extra held acts := by
  have hshadow := ht.shadow
  rw [List.map_append] at hshadow
  exact ht.remains (remains_discardObjects _ _) (remains_discardObjects _ _) (fun _ => rfl) rfl
    ht.healthy.discardAll hshadow.discardAll fun w hw => .held (List.mem_append_right _ hw)

theorem discard (ht : Twin P ρ s u extra (v :: held) acts) :
    Twin P ρ (s.discard v) (u.discard (v.rename ρ)) extra held acts := by
  rw [← discardAll_singleton, ← discardAll_singleton]
  exact discardAll ht

theorem retain (ht : Twin P ρ s u extra held acts) (hv : s.Accessible held v) :
    Twin P ρ (s.retain v) (u.retain (v.rename ρ)) extra (v :: held) acts := by
  refine ht.remains (remains_retain s v) (remains_retain u _) (fun h => ?_) ?_
    (ht.healthy.retain hv) (ht.shadow.retain (ht.mirror.accessible hv)) fun w hw => ?_
  · rw [arena_retain]
  · rw [arena_retain]
  · obtain rfl | hw := List.mem_cons.1 hw
    · exact hv
    · exact .held hw

/-! ## Bindings -/

theorem define (ht : Twin P ρ s u extra (v :: held) acts) {h : Handle}
    (hc : s.arena.contains h = true) (name : String) :
    Twin P ρ (s.define h name v) (u.define (ρ h) name (v.rename ρ)) extra held acts := by
  have healthy := ht.healthy.define h name
  have shadow := ht.shadow.define (ρ h) name
  obtain ⟨f, hf⟩ := Arena.contains_iff.1 hc
  obtain ⟨g, hg, hbindings, henclosing⟩ := ht.mirror.frames h f hf
  have hput : Mirror P ρ { s with arena := s.arena.put h { f with bindings := f.bindings.insert name v } }
      { u with arena := u.arena.put (ρ h) { g with bindings := g.bindings.insert name (v.rename ρ) } }
      held := by
    refine ht.mirror.put hf hg ?_ henclosing (fun w hw => ?_) fun w hw => .held (List.mem_cons_of_mem _ hw)
    · dsimp only
      rw [Bindings.map_insert, hbindings]
    · obtain rfl | hw := mem_values_insert hw
      · exact .held List.mem_cons_self
      · exact .bound hf hw
  rw [define_of_some hf] at healthy ⊢
  rw [define_of_some hg] at shadow ⊢
  refine ⟨healthy, shadow, hput.remains (remains_discardObjects _ _) (remains_discardObjects _ _)
    (fun _ _ h => h) shadow.accounted ?_ fun w hw => .held hw, ht.keeps⟩
  rw [Value.objects_rename]
  exact mem_ids extra held

theorem assign (ht : Twin P ρ s u extra (v :: held) acts) {h : Handle}
    (hc : s.arena.contains h = true) (name : String) :
    (u.assign (ρ h) name (v.rename ρ)).1 = (s.assign h name v).1 ∧
      Twin P ρ (s.assign h name v).2 (u.assign (ρ h) name (v.rename ρ)).2 extra held acts := by
  unfold Store.assign
  rw [ht.mirror.find? hc]
  cases s.arena.find? h name with
  | none => exact ⟨rfl, ht.discard⟩
  | some old => exact ⟨rfl, ht.define hc name⟩

theorem assignAt (ht : Twin P ρ s u extra (v :: held) acts) {h : Handle}
    (hc : s.arena.contains h = true) (distance : Nat) (name : String) :
    (u.assignAt (ρ h) distance name (v.rename ρ)).1 = (s.assignAt h distance name v).1 ∧
      Twin P ρ (s.assignAt h distance name v).2 (u.assignAt (ρ h) distance name (v.rename ρ)).2
        extra held acts := by
  unfold Store.assignAt
  rw [ht.mirror.ancestor? ht.healthy.intact hc]
  cases ha : s.arena.ancestor? h distance with
  | none => exact ⟨rfl, ht.discard⟩
  | some g => exact ht.assign (Mirror.contains_of_ancestor? ha) name

end Twin
end Lox.Store
