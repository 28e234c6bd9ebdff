import Mathlib.Data.List.Basic
import Lox.Proofs.Store.Arena

/-!
# Tracing frees exactly what cannot be reached

`Reaches` says what a program could still get at, rule by rule and without any marks. The search
visits just that: whatever is marked is reached, and the marks are closed under all the rules by
the time the list of pending nodes is empty. Sweeping then empties the slots without a mark and
leaves the others alone.
-/
namespace Lox

/-- What a program can get at. -/
inductive Entity where
  | frame (h : Handle)
  | value (v : Value)
  | object (id : ObjectId)

/-- The mutable object that a value shares; a bound method shares none. -/
def Value.shared? : Value → Option ObjectId
  | .instance id | .array id | .arrayMethod id _ => some id
  | _ => none

/-- From the global frame and the roots, along enclosing frames, bindings, closures, methods,
superclasses, classes and fields of instances, and elements of arrays. -/
inductive Store.Reaches (s : Store) (roots : List Handle) : Entity → Prop where
  | globals : s.Reaches roots (.frame .globals)
  | root {h} (hr : h ∈ roots) : s.Reaches roots (.frame h)
  | enclosing {h frame outer} (hh : s.Reaches roots (.frame h))
      (hf : s.arena.frame? h = some frame) (ho : frame.enclosing = some outer) :
      s.Reaches roots (.frame outer)
  | binding {h frame v} (hh : s.Reaches roots (.frame h))
      (hf : s.arena.frame? h = some frame) (hv : v ∈ frame.bindings.values) :
      s.Reaches roots (.value v)
  | closure {f} (hf : s.Reaches roots (.value (.function f))) : s.Reaches roots (.frame f.closure)
  | method {c f} (hc : s.Reaches roots (.value (.classObject c))) (hf : f ∈ c.methods.values) :
      s.Reaches roots (.frame f.closure)
  | superclass {c parent} (hc : s.Reaches roots (.value (.classObject c)))
      (hp : c.superclass = some parent) : s.Reaches roots (.value (.classObject parent))
  | shared {v id} (hv : s.Reaches roots (.value v)) (hi : v.shared? = some id) :
      s.Reaches roots (.object id)
  | parent {id c fields} (hi : s.Reaches roots (.object id))
      (hp : s.heap.payload? id = some (.instance c fields)) : s.Reaches roots (.value (.classObject c))
  | field {id c fields v} (hi : s.Reaches roots (.object id))
      (hp : s.heap.payload? id = some (.instance c fields)) (hv : v ∈ fields.values) :
      s.Reaches roots (.value v)
  | element {id elements v} (hi : s.Reaches roots (.object id))
      (hp : s.heap.payload? id = some (.array elements)) (hv : v ∈ elements) :
      s.Reaches roots (.value v)

def Node.entity : Node → Entity
  | .frame h => .frame h
  | .object id => .object id

/-! ## The nodes of a value, a frame and an object -/

theorem Class.closures_eq (c : Class) :
    c.closures = c.methods.values.map Function.closure ++
      (c.superclass.map Class.closures).getD [] := by
  rcases c with ⟨_, _, _ | parent, methods⟩ <;> simp [Class.closures]

/-- The nodes of an array come from its elements. -/
theorem Payload.nodes_array (elements : Array Value) :
    (Payload.array elements).nodes = elements.toList.flatMap Value.nodes := by
  rw [Payload.nodes, ← Array.foldr_toList]
  induction elements.toList with
  | nil => rfl
  | cons v rest ih => rw [List.foldr_cons, ih, List.flatMap_cons]

namespace Store

variable {s : Store} {roots : List Handle}

theorem Reaches.of_mem_closures {c : Class} {h : Handle} (hh : h ∈ c.closures)
    (hc : s.Reaches roots (.value (.classObject c))) : s.Reaches roots (.frame h) := by
  induction c using Class.closures.induct with
  | case1 _ _ methods =>
    obtain ⟨f, hf, rfl⟩ := List.mem_map.1 hh
    exact hc.method hf
  | case2 _ _ methods parent ih =>
    rcases List.mem_append.1 hh with hm | hp
    · obtain ⟨f, hf, rfl⟩ := List.mem_map.1 hm
      exact hc.method hf
    · exact ih hp (hc.superclass rfl)

theorem Reaches.of_mem_value_nodes {v : Value} {node : Node} (hn : node ∈ v.nodes)
    (hv : s.Reaches roots (.value v)) : s.Reaches roots node.entity := by
  cases v with
  | function f =>
    cases List.mem_singleton.1 hn
    exact hv.closure
  | classObject c =>
    obtain ⟨h, hh, rfl⟩ := List.mem_map.1 hn
    exact Reaches.of_mem_closures hh hv
  | «instance» id => cases List.mem_singleton.1 hn; exact hv.shared rfl
  | array id => cases List.mem_singleton.1 hn; exact hv.shared rfl
  | arrayMethod id method => cases List.mem_singleton.1 hn; exact hv.shared rfl
  | nil => cases hn
  | boolean b => cases hn
  | number x => cases hn
  | string text => cases hn
  | native n => cases hn

theorem Reaches.of_mem_frame_nodes {h : Handle} {frame : Frame} {node : Node}
    (hf : s.arena.frame? h = some frame) (hn : node ∈ frame.nodes)
    (hh : s.Reaches roots (.frame h)) : s.Reaches roots node.entity := by
  rcases List.mem_append.1 hn with he | hb
  · obtain ⟨outer, ho, rfl⟩ := Option.map_eq_some_iff.1 (Option.mem_toList.1 he)
    exact hh.enclosing hf ho
  · obtain ⟨v, hv, hnode⟩ := List.mem_flatMap.1 hb
    exact Reaches.of_mem_value_nodes hnode (hh.binding hf hv)

theorem Reaches.of_mem_payload_nodes {id : ObjectId} {payload : Payload} {node : Node}
    (hp : s.heap.payload? id = some payload) (hn : node ∈ payload.nodes)
    (hi : s.Reaches roots (.object id)) : s.Reaches roots node.entity := by
  cases payload with
  | «instance» c fields =>
    rcases List.mem_append.1 hn with hc | hf
    · obtain ⟨h, hh, rfl⟩ := List.mem_map.1 hc
      exact Reaches.of_mem_closures hh (hi.parent hp)
    · obtain ⟨v, hv, hnode⟩ := List.mem_flatMap.1 hf
      exact Reaches.of_mem_value_nodes hnode (hi.field hp hv)
  | array elements =>
    rw [Payload.nodes_array] at hn
    obtain ⟨v, hv, hnode⟩ := List.mem_flatMap.1 hn
    exact Reaches.of_mem_value_nodes hnode (hi.element hp (Array.mem_toList_iff.1 hv))
  | binding frame => cases hn

/-! ## The search -/

/-- What a live node refers to. -/
def successors (s : Store) : Node → List Node
  | .frame h => ((s.arena.frame? h).map Frame.nodes).getD []
  | .object id => ((s.heap.payload? id).map Payload.nodes).getD []

def IsLive (s : Store) : Node → Prop
  | .frame h => s.arena.contains h = true
  | .object id => (s.heap.payload? id).isSome = true

/-- The node is live and marked. -/
def IsMarked (s : Store) (m : Marks) : Node → Prop
  | .frame h => s.arena.contains h = true ∧ m.frames[h.index]? = some true
  | .object id => (s.heap.payload? id).isSome = true ∧ m.objects[id]? = some true

theorem Reaches.of_mem_successors {node next : Node} (hn : next ∈ s.successors node)
    (h : s.Reaches roots node.entity) : s.Reaches roots next.entity := by
  cases node with
  | frame handle =>
    unfold successors at hn
    cases hf : s.arena.frame? handle with
    | none => simp [hf] at hn
    | some frame => exact Reaches.of_mem_frame_nodes hf (by simpa [hf] using hn) h
  | object id =>
    unfold successors at hn
    cases hp : s.heap.payload? id with
    | none => simp [hp] at hn
    | some payload => exact Reaches.of_mem_payload_nodes hp (by simpa [hp] using hn) h

theorem lt_size_of_contains {a : Arena} {h : Handle} (hc : a.contains h = true) :
    h.index < a.slots.size := by
  obtain ⟨frame, hf⟩ := Arena.contains_iff.1 hc
  exact (Array.getElem?_eq_some_iff.1 (Arena.frame?_eq_some_iff.1 hf)).1

theorem lt_size_of_payload? {heap : Heap} {id : ObjectId} (hp : (heap.payload? id).isSome = true) :
    id < heap.objects.size := by
  by_contra hlt
  simp [Heap.payload?, Heap.find?, Array.getElem?_eq_none (Nat.le_of_not_lt hlt)] at hp

/-- Two live frames in one slot are the same. -/
theorem eq_of_contains {a : Arena} {h other : Handle} (hh : a.contains h = true)
    (ho : a.contains other = true) (hi : h.index = other.index) : h = other := by
  obtain ⟨f, hf⟩ := Arena.contains_iff.1 hh
  obtain ⟨g, hg⟩ := Arena.contains_iff.1 ho
  rw [Arena.frame?_eq_some_iff] at hf hg
  rw [hi, hg] at hf
  obtain ⟨i, n⟩ := h
  obtain ⟨j, k⟩ := other
  cases hi
  cases hf
  rfl

/-- The state of the search: there is a mark for every slot and object, only what is reached is
marked or pending, and what the start or a marked node refers to is marked or pending. -/
structure Tracing (s : Store) (roots : List Handle) (m : Marks) (pending : List Node) : Prop where
  frames : m.frames.size = s.arena.slots.size
  objects : m.objects.size = s.heap.objects.size
  soundFrame : ∀ i : Nat, m.frames[i]? = some true →
    ∃ h : Handle, h.index = i ∧ s.arena.contains h = true ∧ s.Reaches roots (.frame h)
  soundObject : ∀ id : Nat, m.objects[id]? = some true → s.Reaches roots (.object id)
  soundPending : ∀ node ∈ pending, s.Reaches roots node.entity
  start : ∀ h ∈ Handle.globals :: roots, s.IsLive (.frame h) →
    s.IsMarked m (.frame h) ∨ .frame h ∈ pending
  closed : ∀ node, s.IsMarked m node → ∀ next ∈ s.successors node, s.IsLive next →
    s.IsMarked m next ∨ next ∈ pending

variable {m after : Marks} {node : Node} {found pending : List Node}

/-- A live node that is not visited has its mark. -/
theorem Tracing.isMarked_of_visit?_eq_none (ht : s.Tracing roots m pending)
    (hv : s.visit? m node = none) (hl : s.IsLive node) : s.IsMarked m node := by
  cases node with
  | frame h =>
    obtain ⟨frame, hf⟩ := Arena.contains_iff.1 hl
    have hi : h.index < m.frames.size := ht.frames ▸ lt_size_of_contains hl
    refine ⟨hl, ?_⟩
    cases hm : m.frames[h.index] <;> simp_all [visit?]
  | object id =>
    obtain ⟨payload, hp⟩ := Option.isSome_iff_exists.1 hl
    have hi : id < m.objects.size := ht.objects ▸ lt_size_of_payload? hl
    refine ⟨hl, ?_⟩
    cases hm : m.objects[id] <;> simp_all [visit?]

/-- A visit adds one live node to the marked ones and finds what it refers to. -/
theorem isMarked_of_visit? (hv : s.visit? m node = some (after, found)) :
    s.IsLive node ∧ found = s.successors node ∧
      ∀ other, s.IsMarked after other ↔ s.IsMarked m other ∨ other = node := by
  cases node with
  | frame h =>
    simp only [visit?] at hv
    split at hv
    · next frame hf hm =>
      cases hv
      have hc : s.arena.contains h = true := Arena.contains_iff.2 ⟨frame, hf⟩
      obtain ⟨hi, -⟩ := Array.getElem?_eq_some_iff.1 hm
      refine ⟨hc, by simp [successors, hf], fun other => ?_⟩
      cases other with
      | frame g =>
        by_cases hg : h.index = g.index
        · have hgm : m.frames[g.index]? = some false := hg ▸ hm
          refine ⟨fun hg' => Or.inr ?_, ?_⟩
          · exact congrArg Node.frame (eq_of_contains hg'.1 hc hg.symm)
          · rintro (⟨-, htrue⟩ | heq)
            · rw [hgm] at htrue
              cases htrue
            · cases heq
              exact ⟨hc, by simp [hi]⟩
        · have hne : Node.frame g ≠ .frame h := by rintro ⟨⟩; exact hg rfl
          simp [IsMarked, hg, hne]
      | object id => simp [IsMarked]
    · cases hv
  | object id =>
    simp only [visit?] at hv
    split at hv
    · next payload hp hm =>
      cases hv
      have hc : (s.heap.payload? id).isSome = true := by rw [hp]; rfl
      obtain ⟨hi, -⟩ := Array.getElem?_eq_some_iff.1 hm
      refine ⟨hc, by simp [successors, hp], fun other => ?_⟩
      cases other with
      | frame g => simp [IsMarked]
      | object other =>
        by_cases hg : id = other
        · subst hg
          simp [IsMarked, hc, hi]
        · have hne : Node.object other ≠ .object id := by rintro ⟨⟩; exact hg rfl
          simp [IsMarked, hg, hne]
    · cases hv

/-- The sizes of the mark tables do not change. -/
theorem size_of_visit? (hv : s.visit? m node = some (after, found)) :
    after.frames.size = m.frames.size ∧ after.objects.size = m.objects.size := by
  cases node <;> simp only [visit?] at hv <;> split at hv <;> cases hv <;> simp

/-- Marks only speak of nodes that are reached. -/
theorem Tracing.sound_of_visit? (ht : s.Tracing roots m (node :: pending))
    (hv : s.visit? m node = some (after, found)) :
    (∀ i : Nat, after.frames[i]? = some true →
      ∃ h : Handle, h.index = i ∧ s.arena.contains h = true ∧ s.Reaches roots (.frame h)) ∧
    ∀ id : Nat, after.objects[id]? = some true → s.Reaches roots (.object id) := by
  have hreach : s.Reaches roots node.entity := ht.soundPending node List.mem_cons_self
  have hlive := (isMarked_of_visit? hv).1
  cases node with
  | frame h =>
    simp only [visit?] at hv
    split at hv <;> cases hv
    refine ⟨fun i hi => ?_, ht.soundObject⟩
    by_cases hk : h.index = i
    · exact ⟨h, hk, hlive, hreach⟩
    · exact ht.soundFrame i (by simpa [hk] using hi)
  | object id =>
    simp only [visit?] at hv
    split at hv <;> cases hv
    refine ⟨ht.soundFrame, fun other ho => ?_⟩
    by_cases hk : id = other
    · exact hk ▸ hreach
    · exact ht.soundObject other (by simpa [hk] using ho)

/-- Visiting a node and putting what it refers to in its place keeps the state of the search. -/
theorem Tracing.visit (ht : s.Tracing roots m (node :: pending))
    (hv : s.visit? m node = some (after, found)) : s.Tracing roots after (found ++ pending) := by
  obtain ⟨hlive, rfl, hmarked⟩ := isMarked_of_visit? hv
  obtain ⟨hframes, hobjects⟩ := size_of_visit? hv
  obtain ⟨soundFrame, soundObject⟩ := ht.sound_of_visit? hv
  have hmove : ∀ other, s.IsMarked m other ∨ other ∈ node :: pending →
      s.IsMarked after other ∨ other ∈ s.successors node ++ pending := by
    rintro other (hm | hp)
    · exact Or.inl ((hmarked other).2 (Or.inl hm))
    · rcases List.mem_cons.1 hp with rfl | hp
      · exact Or.inl ((hmarked other).2 (Or.inr rfl))
      · exact Or.inr (List.mem_append_right _ hp)
  refine ⟨hframes.trans ht.frames, hobjects.trans ht.objects, soundFrame, soundObject, ?_, ?_, ?_⟩
  · intro other ho
    rcases List.mem_append.1 ho with hs | hp
    · exact Reaches.of_mem_successors hs (ht.soundPending node List.mem_cons_self)
    · exact ht.soundPending other (List.mem_cons_of_mem _ hp)
  · intro h hh hl
    exact hmove _ (ht.start h hh hl)
  · intro other ho next hn hl
    rcases (hmarked other).1 ho with hm | rfl
    · exact hmove _ (ht.closed other hm next hn hl)
    · exact Or.inr (List.mem_append_left _ hn)

/-- A node that cannot be visited is no longer needed. -/
theorem Tracing.skip (ht : s.Tracing roots m (node :: pending)) (hv : s.visit? m node = none) :
    s.Tracing roots m pending := by
  have hdrop : ∀ other, s.IsLive other → s.IsMarked m other ∨ other ∈ node :: pending →
      s.IsMarked m other ∨ other ∈ pending := by
    rintro other hl (hm | hp)
    · exact Or.inl hm
    · rcases List.mem_cons.1 hp with rfl | hp
      · exact Or.inl (ht.isMarked_of_visit?_eq_none hv hl)
      · exact Or.inr hp
  exact { ht with
    soundPending := fun other ho => ht.soundPending other (List.mem_cons_of_mem _ ho)
    start := fun h hh hl => hdrop _ hl (ht.start h hh hl)
    closed := fun other ho next hn hl => hdrop _ hl (ht.closed other ho next hn hl) }

theorem Tracing.visitNext? (ht : s.Tracing roots m pending) :
    match s.visitNext? m pending with
    | some (after, found) => s.Tracing roots after found
    | none => s.Tracing roots m [] := by
  induction pending with
  | nil => exact ht
  | cons node rest ih =>
    rw [Store.visitNext?]
    cases hv : s.visit? m node with
    | none => exact ih (ht.skip hv)
    | some visited => exact ht.visit hv

/-- When the search ends nothing is pending. -/
theorem Tracing.trace (ht : s.Tracing roots m pending) :
    s.Tracing roots (s.trace m pending) [] := by
  induction m, pending using Store.trace.induct s with
  | case1 m pending after found hv hlt ih =>
    have hnext := ht.visitNext?
    rw [hv] at hnext
    rw [Store.trace]
    split
    · next h => rw [hv] at h; cases h; exact ih hnext
    · next h => rw [hv] at h; cases h
  | case2 m pending hv =>
    have hnext := ht.visitNext?
    rw [hv] at hnext
    rw [Store.trace]
    split
    · next h => rw [hv] at h; cases h
    · exact hnext

theorem tracing_reachable (s : Store) (roots : List Handle) :
    s.Tracing roots (s.reachable roots) [] := by
  refine Tracing.trace ⟨by simp, by simp, ?_, ?_, ?_, ?_, ?_⟩
  · intro i hi
    simp [Array.getElem?_replicate] at hi
  · intro id hi
    simp [Array.getElem?_replicate] at hi
  · intro node hn
    obtain ⟨h, hh, rfl⟩ := List.mem_map.1 hn
    rcases List.mem_cons.1 hh with rfl | hr
    · exact .globals
    · exact .root hr
  · intro h hh _
    exact Or.inr (List.mem_map_of_mem hh)
  · rintro (h | id) hm
    · simp [IsMarked, Array.getElem?_replicate] at hm
    · simp [IsMarked, Array.getElem?_replicate] at hm

/-- The marks are complete: all that is reached and live is marked. -/
theorem Tracing.complete (ht : s.Tracing roots m []) {x : Entity} (hx : s.Reaches roots x) :
    match x with
    | .frame h => s.IsLive (.frame h) → s.IsMarked m (.frame h)
    | .value v => ∀ node ∈ v.nodes, s.IsLive node → s.IsMarked m node
    | .object id => s.IsLive (.object id) → s.IsMarked m (.object id) := by
  have hclosed : ∀ node, s.IsMarked m node → ∀ next ∈ s.successors node, s.IsLive next →
      s.IsMarked m next := fun node hm next hn hl =>
    (ht.closed node hm next hn hl).resolve_right List.not_mem_nil
  have hstart : ∀ h ∈ Handle.globals :: roots, s.IsLive (.frame h) → s.IsMarked m (.frame h) :=
    fun h hh hl => (ht.start h hh hl).resolve_right List.not_mem_nil
  induction hx with
  | globals => exact hstart _ List.mem_cons_self
  | root hr => exact hstart _ (List.mem_cons_of_mem _ hr)
  | enclosing _ hf ho ih =>
    refine hclosed _ (ih (Arena.contains_iff.2 ⟨_, hf⟩)) _ ?_
    simp [successors, hf, Frame.nodes, ho]
  | binding _ hf hv ih =>
    intro node hn
    refine hclosed _ (ih (Arena.contains_iff.2 ⟨_, hf⟩)) node ?_
    simp only [successors, hf, Option.map_some, Option.getD_some, Frame.nodes]
    exact List.mem_append_right _ (List.mem_flatMap.2 ⟨_, hv, hn⟩)
  | closure _ ih => exact ih _ (List.mem_singleton_self _)
  | @method c f _ hf ih =>
    refine ih _ (List.mem_map.2 ⟨f.closure, ?_, rfl⟩)
    rw [Class.closures_eq]
    exact List.mem_append_left _ (List.mem_map_of_mem hf)
  | @superclass c parent _ hp ih =>
    intro node hn
    obtain ⟨h, hh, rfl⟩ := List.mem_map.1 hn
    refine ih _ (List.mem_map.2 ⟨h, ?_, rfl⟩)
    rw [Class.closures_eq, hp]
    exact List.mem_append_right _ hh
  | @shared v id _ hi ih =>
    refine ih _ ?_
    cases v <;> cases hi <;> exact List.mem_singleton_self _
  | parent _ hp ih =>
    intro node hn
    refine hclosed _ (ih (by rw [IsLive, hp]; rfl)) node ?_
    simp only [successors, hp, Option.map_some, Option.getD_some, Payload.nodes]
    exact List.mem_append_left _ hn
  | field _ hp hv ih =>
    intro node hn
    refine hclosed _ (ih (by rw [IsLive, hp]; rfl)) node ?_
    simp only [successors, hp, Option.map_some, Option.getD_some, Payload.nodes]
    exact List.mem_append_right _ (List.mem_flatMap.2 ⟨_, hv, hn⟩)
  | element _ hp hv ih =>
    intro node hn
    refine hclosed _ (ih (by rw [IsLive, hp]; rfl)) node ?_
    simp only [successors, hp, Option.map_some, Option.getD_some, Payload.nodes_array]
    exact List.mem_flatMap.2 ⟨_, Array.mem_toList_iff.2 hv, hn⟩

/-- A live frame is marked if and only if it is reached. -/
theorem marked_iff_reaches {h : Handle} (hl : s.arena.contains h = true) :
    (s.reachable roots).frames[h.index]? = some true ↔ s.Reaches roots (.frame h) := by
  have ht := s.tracing_reachable roots
  constructor
  · intro hm
    obtain ⟨other, hi, ho, hr⟩ := ht.soundFrame _ hm
    exact eq_of_contains ho hl hi ▸ hr
  · intro hr
    exact (ht.complete hr hl).2

/-! ## Sweeping -/

theorem arena_sweepSlot {marks : Marks} {s : Store} (hr : s.arena.reclaims = true) (i : Nat) :
    (sweepSlot marks s i).arena =
      if marks.frames[i]? = some false then s.arena.vacate i else s.arena := by
  unfold sweepSlot
  split
  · next generation frame hs hm => simp [hr, hm, arena_free]
  · next h =>
    by_cases hm : marks.frames[i]? = some false
    · rw [if_pos hm, Arena.vacate]
      split
      · next generation frame hs => exact absurd hm (h generation frame hs)
      · rfl
    · rw [if_neg hm]

theorem reclaims_sweepSlot {marks : Marks} {s : Store} (hr : s.arena.reclaims = true) (i : Nat) :
    (sweepSlot marks s i).arena.reclaims = true := by
  rw [arena_sweepSlot hr]
  split
  · rwa [Arena.reclaims_vacate]
  · exact hr

/-- After sweeping some slots, a frame is left unless its slot was one of them and has no mark. -/
theorem frame?_sweep {marks : Marks} (slots : List Nat) {s : Store}
    (hr : s.arena.reclaims = true) (h : Handle) :
    (slots.foldl (sweepSlot marks) s).arena.frame? h =
      if h.index ∈ slots ∧ marks.frames[h.index]? = some false then none else s.arena.frame? h := by
  induction slots generalizing s with
  | nil => simp
  | cons i rest ih =>
    rw [List.foldl_cons, ih (reclaims_sweepSlot hr i), arena_sweepSlot hr]
    by_cases hi : i = h.index
    · subst hi
      by_cases hm : marks.frames[h.index]? = some false <;> simp [hm, Arena.frame?_vacate]
    · have hne : h.index ≠ i := fun e => hi e.symm
      have hframe : (if marks.frames[i]? = some false then s.arena.vacate i
          else s.arena).frame? h = s.arena.frame? h := by
        split <;> simp [Arena.frame?_vacate, hi]
      simp only [hframe, List.mem_cons, hne, false_or]

theorem live_sweep_le {marks : Marks} (slots : List Nat) {s : Store}
    (hr : s.arena.reclaims = true) : (slots.foldl (sweepSlot marks) s).live ≤ s.live := by
  induction slots generalizing s with
  | nil => exact Nat.le_refl _
  | cons i rest ih =>
    refine Nat.le_trans (ih (reclaims_sweepSlot hr i)) ?_
    rw [live, arena_sweepSlot hr]
    split
    · exact s.arena.live_vacate_le i
    · exact Nat.le_refl _

theorem live_sweep {marks : Marks} (slots : List Nat) {s : Store} (hr : s.arena.reclaims = true)
    (hl : s.live = s.arena.occupied) :
    (slots.foldl (sweepSlot marks) s).live =
      (slots.foldl (sweepSlot marks) s).arena.occupied := by
  induction slots generalizing s with
  | nil => exact hl
  | cons i rest ih =>
    refine ih (reclaims_sweepSlot hr i) ?_
    rw [live, arena_sweepSlot hr]
    split
    · exact Arena.live_vacate hl i
    · exact hl

/-- A collection leaves a live frame alone or frees it, and does the first just if it is reached. -/
theorem frame?_collect (hr : s.arena.reclaims = true) (h : Handle) :
    (s.Reaches roots (.frame h) → (s.collect roots).2.arena.frame? h = s.arena.frame? h) ∧
    (¬ s.Reaches roots (.frame h) → (s.collect roots).2.arena.frame? h = none) := by
  have hsweep : (s.collect roots).2.arena.frame? h =
      if h.index ∈ List.range s.arena.slots.size ∧
        (s.reachable roots).frames[h.index]? = some false then none
      else s.arena.frame? h := frame?_sweep (List.range s.arena.slots.size) hr h
  by_cases hl : s.arena.contains h = true
  · have hi := lt_size_of_contains hl
    have hmark : (s.reachable roots).frames[h.index]? = some true ↔ s.Reaches roots (.frame h) :=
      marked_iff_reaches hl
    have hsize := (s.tracing_reachable roots).frames
    rw [hsweep]
    constructor
    · intro hreach
      rw [if_neg]
      rintro ⟨-, hm⟩
      rw [hmark.2 hreach] at hm
      cases hm
    · intro hreach
      have hm : (s.reachable roots).frames[h.index]? = some false := by
        rw [← hmark, Array.getElem?_eq_getElem (hsize ▸ hi)] at hreach
        rw [Array.getElem?_eq_getElem (hsize ▸ hi)]
        simpa using hreach
      rw [if_pos ⟨List.mem_range.2 hi, hm⟩]
  · have hn : s.arena.frame? h = none := by simpa [Arena.contains] using hl
    simp only [hsweep, hn, ite_self, implies_true, and_self]

/-- A collection frees a frame if and only if it cannot be reached from the global frame and the
roots. The frames that are left have not changed in any way, and the result is the number of frames
that are gone. -/
theorem collect_frees_unreached (s : Store) (roots : List Handle)
    (hr : s.arena.reclaims = true) :
    (∀ h, s.arena.contains h = true →
      ((s.collect roots).2.arena.contains h = true ↔ s.Reaches roots (.frame h))) ∧
    (∀ h frame, (s.collect roots).2.arena.frame? h = some frame →
      s.arena.frame? h = some frame) ∧
    (s.collect roots).2.live + (s.collect roots).1 = s.live ∧
    (s.live = s.arena.occupied →
      (s.collect roots).2.live = (s.collect roots).2.arena.occupied) := by
  refine ⟨fun h hl => ?_, fun h frame hf => ?_, ?_, ?_⟩
  · by_cases hreach : s.Reaches roots (.frame h)
    · rw [Arena.contains, (frame?_collect hr h).1 hreach]
      exact ⟨fun _ => hreach, fun _ => hl⟩
    · rw [Arena.contains, (frame?_collect hr h).2 hreach]
      exact ⟨fun hc => absurd hc Bool.false_ne_true, fun hc => absurd hc hreach⟩
  · by_cases hreach : s.Reaches roots (.frame h)
    · rwa [(frame?_collect hr h).1 hreach] at hf
    · rw [(frame?_collect hr h).2 hreach] at hf
      cases hf
  · exact Nat.add_sub_cancel' (live_sweep_le (List.range s.arena.slots.size) hr)
  · exact live_sweep (List.range s.arena.slots.size) hr

/-- Two frames that closures refer to; the second is a root. -/
def capturedPair : Store :=
  ((((empty.create .globals).2.capture ⟨1, 0⟩).create .globals).2.capture ⟨2, 0⟩)

theorem collect_frees_unreached_pair :
    capturedPair.arena.reclaims = true ∧
    (capturedPair.collect [⟨2, 0⟩]).2.live + 1 = capturedPair.live ∧
    capturedPair.Reaches [⟨2, 0⟩] (.frame ⟨2, 0⟩) ∧
    ¬ capturedPair.Reaches [⟨2, 0⟩] (.frame ⟨1, 0⟩) := by
  have hr : capturedPair.arena.reclaims = true := by decide +kernel
  obtain ⟨hframes, -, hlive, -⟩ := collect_frees_unreached capturedPair [⟨2, 0⟩] hr
  refine ⟨hr, ?_, ?_, ?_⟩
  · have hone : (capturedPair.collect [⟨2, 0⟩]).1 = 1 := by decide +kernel
    rwa [hone] at hlive
  · exact (hframes ⟨2, 0⟩ (by decide +kernel)).1 (by decide +kernel)
  · intro hreach
    exact absurd ((hframes ⟨1, 0⟩ (by decide +kernel)).2 hreach) (by decide +kernel)

end Store
end Lox
