import Lox.Proofs.Store.Accounts

/-!
# Frames in use

A value can be got at if it is held outside of the store, if a live frame binds it, or if an object
that can be got at has it. The store is intact if all that such values refer to is there: what an
unbound function or a class closes over is captured, a bound method has the frame that its binding
owns, and every live frame has its enclosing frame.

A frame that is not captured can be freed at once when its owner gives it up. This is safe because
only activations can run inside such a frame, and the stack of activations says which: `nested`
is about an activation and those below it.
-/
namespace Lox

def Payload.values : Payload → List Value
  | .instance parent fields => .classObject parent :: fields.values
  | .array elements => elements.toList
  | .binding _ => []

theorem Payload.children_eq (p : Payload) : p.children = Value.objects p.values := by
  cases p with
  | «instance» parent fields => rfl
  | array elements => exact children_array elements
  | binding h => rfl

theorem mem_values_of_find? {α : Type} {b : Bindings α} {name : String} {v : α}
    (h : b.find? name = some v) : v ∈ b.values := by
  obtain ⟨entries⟩ := b
  unfold Bindings.find? at h
  unfold Bindings.values
  dsimp only at h ⊢
  induction entries with
  | nil => cases h
  | cons entry rest ih =>
    obtain ⟨key, old⟩ := entry
    rw [Bindings.lookup] at h
    split at h
    · cases h
      exact List.mem_cons_self
    · exact List.mem_cons_of_mem _ (ih h)

theorem mem_values_insert {α : Type} {b : Bindings α} {name : String} {v w : α}
    (h : w ∈ (b.insert name v).values) : w = v ∨ w ∈ b.values := by
  obtain ⟨entries⟩ := b
  unfold Bindings.insert Bindings.values at h
  unfold Bindings.values
  dsimp only at h ⊢
  induction entries with
  | nil => exact .inl (by simpa [Bindings.place] using h)
  | cons entry rest ih =>
    obtain ⟨key, old⟩ := entry
    rw [Bindings.place] at h
    split at h
    · obtain h | h := List.mem_cons.1 h
      · exact .inl h
      · exact .inr (List.mem_cons_of_mem _ h)
    · obtain h | h := List.mem_cons.1 h
      · exact .inr (h ▸ List.mem_cons_self)
      · obtain h | h := ih h
        · exact .inl h
        · exact .inr (List.mem_cons_of_mem _ h)

/-- A frame that is run in, and the function whose call made it. -/
structure Activation where
  frame : Handle
  callee : Option Function

namespace Arena

/-- The arenas have the same frames inside of each other, up to what these bind. -/
structure Alike (a b : Arena) : Prop where
  reclaims : a.reclaims = b.reclaims
  frames : ∀ h, (a.frame? h).map (fun f => (f.enclosing, f.captured)) =
    (b.frame? h).map fun f => (f.enclosing, f.captured)

namespace Alike

variable {a b : Arena}

theorem refl (a : Arena) : a.Alike a := ⟨rfl, fun _ => rfl⟩

theorem symm (h : a.Alike b) : b.Alike a := ⟨h.1.symm, fun g => (h.2 g).symm⟩

theorem frame? (h : a.Alike b) {g : Handle} {f : Frame} (hf : a.frame? g = some f) :
    ∃ f', b.frame? g = some f' ∧ f'.enclosing = f.enclosing ∧ f'.captured = f.captured := by
  have hg := h.2 g
  rw [hf] at hg
  obtain ⟨f', hf', heq⟩ := Option.map_eq_some_iff.1 hg.symm
  obtain ⟨he, hc⟩ := Prod.mk.inj heq
  exact ⟨f', hf', he, hc⟩

theorem contains (h : a.Alike b) (g : Handle) : a.contains g = b.contains g := by
  have hg := congrArg Option.isSome (h.2 g)
  rwa [Option.isSome_map, Option.isSome_map] at hg

theorem captured (h : a.Alike b) {g : Handle} : a.Captured g ↔ b.Captured g := by
  constructor
  · rintro ⟨f, hf, hc⟩
    obtain ⟨f', hf', -, hc'⟩ := h.frame? hf
    exact ⟨f', hf', hc'.trans hc⟩
  · rintro ⟨f, hf, hc⟩
    obtain ⟨f', hf', -, hc'⟩ := h.symm.frame? hf
    exact ⟨f', hf', hc'.trans hc⟩

theorem put {h : Handle} {frame n : Frame} (hf : a.frame? h = some frame)
    (he : n.enclosing = frame.enclosing) (hc : n.captured = frame.captured) :
    (a.put h n).Alike a := by
  refine ⟨rfl, fun g => ?_⟩
  rw [frame?_put hf]
  split
  · next hg =>
    rw [hg, hf, Option.map_some, Option.map_some, he, hc]
  · rfl

end Alike

end Arena

namespace Store

/-- The value can be got at, where those in `held` are held outside of the store. -/
inductive Accessible (s : Store) (held : List Value) : Value → Prop where
  | held {v} (h : v ∈ held) : s.Accessible held v
  | bound {h f v} (hf : s.arena.frame? h = some f) (hv : v ∈ f.bindings.values) :
      s.Accessible held v
  | inside {v id p w} (h : s.Accessible held v) (hid : v.object? = some id)
      (hp : s.heap.payload? id = some p) (hw : w ∈ p.values) : s.Accessible held w

/-- The frames that the value itself refers to are there. -/
def Supports (s : Store) : Value → Prop
  | .function f =>
    match f.binding with
    | none => s.arena.Captured f.closure
    | some id => s.heap.payload? id = some (.binding f.closure) ∧ s.arena.contains f.closure = true
  | .classObject c => ∀ h ∈ c.closures, s.arena.Captured h
  | _ => True

/-- Activations are innermost first. -/
structure Intact (s : Store) (held : List Value) (acts : List Activation) : Prop where
  globals : ∃ f, s.arena.frame? .globals = some f ∧ f.captured = true ∧ f.enclosing = none
  live : ∀ h f e, s.arena.frame? h = some f → f.enclosing = some e → s.arena.contains e = true
  closed : ∀ h f e, s.arena.frame? h = some f → f.captured = true → f.enclosing = some e →
    s.arena.Captured e
  active : ∀ h f e, s.arena.reclaims = true → s.arena.frame? h = some f → f.enclosing = some e →
    s.arena.Captured e ∨ ∃ a ∈ acts, a.frame = h
  entered : ∀ a ∈ acts, s.arena.contains a.frame = true
  nested : ∀ a outer, (a :: outer) <:+ acts → ∀ f e, s.arena.frame? a.frame = some f →
    f.enclosing = some e → s.arena.Captured e ∨ (∃ b ∈ outer, b.frame = e) ∨
      ∃ g, a.callee = some g ∧ g.closure = e
  supported : ∀ v, s.Accessible held v → s.Supports v

/-- `extra` are references to objects that somebody holds without making use of them. -/
structure Healthy (s : Store) (extra : List ObjectId) (held : List Value)
    (acts : List Activation) : Prop where
  accounted : s.Accounted (extra ++ Value.objects held) (acts.map Activation.frame)
  intact : s.Intact held acts

variable {s t : Store} {extra ids : List ObjectId} {held held' : List Value}
  {acts acts' : List Activation} {v w : Value}

/-! ## What can be got at -/

theorem Accessible.of_held (h : s.Accessible held' v)
    (hheld : ∀ w ∈ held', s.Accessible held w) : s.Accessible held v := by
  induction h with
  | held h => exact hheld _ h
  | bound hf hv => exact .bound hf hv
  | inside _ hid hp hw ih => exact .inside ih hid hp hw

theorem Accessible.mono (h : s.Accessible held v) (hsub : held ⊆ held') : s.Accessible held' v :=
  h.of_held fun _ hw => .held (hsub hw)

/-- What can be got at in a store that binds and holds no more could be got at before. -/
theorem Accessible.of_within (h : t.Accessible held' v)
    (hframes : ∀ h f, t.arena.frame? h = some f → ∀ w ∈ f.bindings.values, s.Accessible held w)
    (hheap : ∀ id p, t.heap.payload? id = some p → ∀ v, v.object? = some id →
      s.Accessible held v → ∀ w ∈ p.values, s.Accessible held w)
    (hheld : ∀ w ∈ held', s.Accessible held w) : s.Accessible held v := by
  induction h with
  | held h => exact hheld _ h
  | bound hf hv => exact hframes _ _ hf _ hv
  | inside _ hid hp hw ih => exact hheap _ _ hp _ hid ih _ hw

/-- Objects that can be got at are there, since they are counted. -/
theorem Accounted.find?_of_accessible {entered : List Handle} (ha : s.Accounted ids entered)
    (hids : ∀ id ∈ Value.objects held, id ∈ ids) (hv : s.Accessible held v) {id : ObjectId}
    (hid : v.object? = some id) : ∃ object, s.heap.find? id = some object := by
  have hcounted := ha.counted id
  refine Heap.find?_of_references_pos ?_
  cases hv with
  | held h =>
    have hmem := hids id (mem_objects_of_mem h hid)
    have hpos := List.count_pos_iff.2 hmem
    omega
  | bound hf hv =>
    have hle := Arena.count_le_mentions hf id
    have hpos := List.count_pos_iff.2 (mem_objects_of_mem hv hid)
    omega
  | @inside _ _ p _ _ _ hp hw =>
    have hle := Heap.le_total (fun p => p.children.count id) hp
    rw [p.children_eq] at hle
    have hpos := List.count_pos_iff.2 (mem_objects_of_mem hw hid)
    unfold Heap.mentions at hcounted
    omega

theorem Healthy.find? (hh : s.Healthy extra held acts) (hv : s.Accessible held v) {id : ObjectId}
    (hid : v.object? = some id) : ∃ object, s.heap.find? id = some object :=
  hh.accounted.find?_of_accessible (fun _ h => List.mem_append_right _ h) hv hid

theorem Accessible.of_find? {h : Handle} {name : String} (hv : s.arena.find? h name = some v) :
    s.Accessible held v := by
  unfold Arena.find? at hv
  obtain ⟨f, hf, hv⟩ := Option.bind_eq_some_iff.1 hv
  exact .bound hf (mem_values_of_find? hv)

/-! ## Stores that differ little -/

/-- If the frames are inside of each other as before, it is enough to look at the values. -/
theorem Intact.of_alike (hi : s.Intact held acts) (harena : t.arena.Alike s.arena)
    (hvalues : ∀ v, t.Accessible held' v → t.Supports v) : t.Intact held' acts := by
  refine ⟨?_, fun h f e hf he => ?_, fun h f e hf hc he => ?_, fun h f e hr hf he => ?_,
    fun a ha => ?_, fun a outer hs f e hf he => ?_, hvalues⟩
  · obtain ⟨f, hf, hc, he⟩ := hi.globals
    obtain ⟨f', hf', he', hc'⟩ := harena.symm.frame? hf
    exact ⟨f', hf', hc'.trans hc, he'.trans he⟩
  · obtain ⟨f', hf', he', -⟩ := harena.frame? hf
    rw [harena.contains]
    exact hi.live h f' e hf' (he'.trans he)
  · obtain ⟨f', hf', he', hc'⟩ := harena.frame? hf
    exact harena.captured.2 (hi.closed h f' e hf' (hc'.trans hc) (he'.trans he))
  · obtain ⟨f', hf', he', -⟩ := harena.frame? hf
    rw [harena.captured]
    exact hi.active h f' e (harena.1.symm.trans hr) hf' (he'.trans he)
  · rw [harena.contains]
    exact hi.entered a ha
  · obtain ⟨f', hf', he', -⟩ := harena.frame? hf
    rw [harena.captured]
    exact hi.nested a outer hs f' e hf' (he'.trans he)

/-- What a value refers to is still there if its frames and its binding are. -/
theorem Supports.mono (hv : s.Supports v)
    (hcaptured : ∀ h, s.arena.Captured h → t.arena.Captured h)
    (hbinding : ∀ id h, v.object? = some id → s.heap.payload? id = some (.binding h) →
      s.arena.contains h = true → t.heap.payload? id = some (.binding h) ∧ t.arena.contains h = true) :
    t.Supports v := by
  cases v with
  | function f =>
    obtain ⟨stamp, decl, closure, isInitializer, binding⟩ := f
    cases binding with
    | none => exact hcaptured _ hv
    | some id => exact hbinding id closure rfl hv.1 hv.2
  | classObject c => exact fun h hh => hcaptured h (hv h hh)
  | _ => trivial

theorem Supports.of_alike (hv : s.Supports v) (harena : t.arena.Alike s.arena)
    (hbinding : ∀ id h, v.object? = some id → s.heap.payload? id = some (.binding h) →
      t.heap.payload? id = some (.binding h)) : t.Supports v :=
  hv.mono (fun _ hc => harena.captured.2 hc) fun id h hid hp hc =>
    ⟨hbinding id h hid hp, (harena.contains h).trans hc⟩

end Store
end Lox
