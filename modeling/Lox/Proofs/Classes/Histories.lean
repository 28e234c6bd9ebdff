import Mathlib.Data.List.Chain
import Lox.Proofs.Classes.Origins
import Lox.Proofs.Scoping.Successions

/-!
# Classes in all states

Whatever a session is fed, the classes that its states come across have been declared before, one after the
other, and each after its superclass. A name that is declared again may inherit from what it meant before,
but no class inherits from itself.
-/
namespace Lox

open Machine (SoundFrom)

variable {os : List Occurrence} {past : Past} {s : Store} {m n : Machine} {ms ns before after : List Machine}

/-- The classes that steps from these states declare. -/
def declared (ms : List Machine) : List Declared := ms.filterMap Machine.declares?

/-! ## From one state to the next -/

namespace Machine

/-- A statement or an expression is about to be executed, and no value is held. -/
def Starts (m : Machine) : Prop := m.control.held = [] ∧ m.stack = []

/-- The second state is that after a step from the first one, or something else starts. -/
def Precedes (m n : Machine) : Prop := n = m.step ∨ n.Starts

/-- The states come one after the other, from the start on. -/
structure Consecutive (ms : List Machine) : Prop where
  chain : ms.IsChain Precedes
  start : ∀ m ∈ ms.head?, m.Starts

theorem Consecutive.nil : Consecutive [] := ⟨.nil, nofun⟩

theorem Consecutive.append (h : Consecutive ms) (h' : Consecutive ns) : Consecutive (ms ++ ns) := by
  refine ⟨List.isChain_append.2 ⟨h.chain, h'.chain, fun _ _ m hm => .inr (h'.start m hm)⟩, fun m hm => ?_⟩
  rw [List.head?_append] at hm
  cases ms with
  | nil => exact h'.start m hm
  | cons first rest => exact h.start m hm

theorem chain_history (fuel : Nat) (m : Machine) :
    (m.history fuel).IsChain Precedes ∧ (m.history fuel).head? = some m := by
  induction fuel generalizing m with
  | zero => exact ⟨.singleton m, rfl⟩
  | succ fuel ih =>
    unfold Machine.history
    split
    · exact ⟨.singleton m, rfl⟩
    · obtain ⟨hchain, hhead⟩ := ih m.step
      refine ⟨List.isChain_cons.2 ⟨fun n hn => .inl ?_, hchain⟩, rfl⟩
      rw [hhead] at hn
      exact (Option.some.inj hn).symm

theorem consecutive_history (fuel : Nat) (hm : m.Starts) : Consecutive (m.history fuel) := by
  obtain ⟨hchain, hhead⟩ := chain_history fuel m
  refine ⟨hchain, fun n hn => ?_⟩
  rw [hhead] at hn
  cases hn
  exact hm

end Machine

open Machine (Consecutive)

theorem Interpreter.consecutive_history (fuel : Nat) (i : Interpreter) (program : List Stmt) :
    Consecutive (i.history fuel program) := by
  induction program generalizing i with
  | nil => exact .nil
  | cons s rest ih =>
    rw [history_cons]
    refine (Machine.consecutive_history fuel ⟨rfl, rfl⟩).append ?_
    unfold Machine.further
    split
    · exact ih _
    · exact .nil

namespace Session

theorem consecutive_states (fuel : Nat) (s : Session) (mode : Mode) (source : String) :
    Consecutive (s.states fuel mode source) := by
  unfold states
  cases mode with
  | program =>
    dsimp only
    split
    · exact Interpreter.consecutive_history fuel _ _
    · exact .nil
  | expression =>
    dsimp only
    split
    · exact Machine.consecutive_history fuel ⟨rfl, rfl⟩
    · exact .nil

theorem consecutive_history (fuel : Nat) (s : Session) (inputs : List (Mode × String)) :
    Consecutive (s.history fuel inputs) := by
  induction inputs generalizing s with
  | nil => exact .nil
  | cons input rest ih =>
    unfold history
    refine (consecutive_states fuel s input.1 input.2).append ?_
    split
    · exact ih _
    · exact .nil

end Session

/-- What is stored in a state is what the step before it has stored, less what has been forgotten. -/
theorem Store.Successive.next (h : s.Successive ms) (hsplit : ms = before ++ m :: n :: after) :
    n.state.store.Remains m.step.state.store := by
  subst hsplit
  induction before generalizing s with
  | nil => exact h.2.1
  | cons first before ih => exact ih h.2

/-! ## What there is in a state -/

/-- All classes of the state have been declared in the states before it, one after the other. -/
structure Machine.Descends (before : List Machine) (m : Machine) : Prop where
  carries : m.Carries ((declared before).map Declared.made)
  lineage : Lineage (declared before)
  stamps : ∀ d ∈ declared before, d.made.stamp < m.state.store.heap.nextStamp

namespace Machine

theorem declared_snoc (before : List Machine) (m : Machine) :
    declared (before ++ [m]) = declared before ++ m.declares?.toList := by
  unfold declared
  rw [List.filterMap_append]
  cases h : m.declares? <;> simp [h]

theorem nextStamp_step (hm : m.Sound os past) :
    m.state.store.heap.nextStamp ≤ m.step.state.store.heap.nextStamp :=
  Keeps.step (Store.upkeep_stamps _) (m := m) (Nat.le_refl _) hm.fits

/-- A class that is declared is younger than all others. -/
theorem Descends.lineage_snoc (h : m.Descends before) : Lineage (declared (before ++ [m])) := by
  rw [declared_snoc]
  cases hd : m.declares? with
  | none =>
    rw [Option.toList_none, List.append_nil]
    exact h.lineage
  | some d =>
    obtain ⟨name, superclass, hmade, -, hheld⟩ := declares?_eq_some hd
    obtain ⟨hyounger, -⟩ := m.state.stamp_madeClass name superclass d.methods
    rw [← hmade] at hyounger
    refine h.lineage.snoc (fun e he => (h.stamps e he).trans_le hyounger) (fun parent hsuper => ?_) ?_
    · have hsuperclass : superclass = some parent := by
        rw [← hsuper, hmade]
        rfl
      obtain ⟨e, he, rfl⟩ := List.mem_map.1 (h.carries.control _ (hheld parent hsuperclass) parent rfl)
      exact ⟨e.methods, he⟩
    · rw [hmade]
      exact m.state.tabulates_madeClass name superclass d.methods

theorem Descends.stamps_snoc (h : m.Descends before) (hm : m.Sound os past) :
    ∀ d ∈ declared (before ++ [m]), d.made.stamp < m.step.state.store.heap.nextStamp := by
  rw [declared_snoc]
  refine List.forall_mem_append.2 ⟨fun d hd => (h.stamps d hd).trans_le (nextStamp_step hm), fun d hd => ?_⟩
  obtain ⟨name, superclass, hmade, hstate, -⟩ := declares?_eq_some (Option.mem_toList.1 hd)
  rw [hmade, hstate]
  exact (m.state.stamp_madeClass name superclass d.methods).2

theorem Descends.carries_snoc (h : m.Descends before) (hm : m.Sound os past) :
    m.step.Carries ((declared (before ++ [m])).map Declared.made) := by
  obtain ⟨os, horderly⟩ := hm.orderly
  rw [declared_snoc, List.map_append]
  refine (h.carries.mono (List.subset_append_left _ _)).step horderly.placed hm.recycles fun d hd => ?_
  exact List.mem_append_right _ (List.mem_map_of_mem (Option.mem_toList.2 hd))

theorem Descends.next (h : m.Descends before) (hm : m.Sound os past) (hn : m.Precedes n)
    (hremains : n.state.store.Remains m.step.state.store) : n.Descends (before ++ [m]) := by
  refine ⟨?_, h.lineage_snoc, fun d hd => ?_⟩
  · have hstep := h.carries_snoc hm
    obtain rfl | ⟨hcontrol, hstack⟩ := hn
    · exact hstep
    · refine ⟨hcontrol ▸ nofun, ?_, hstep.rests.store.remains hremains⟩
      rw [hstack]
      nofun
  · rw [hremains.heap.nextStamp]
    exact h.stamps_snoc hm d hd

theorem descends_of_consecutive (hs : s.Each (Value.From [])) (hsound : SoundFrom os past ms)
    (hconsecutive : Consecutive ms) (hsuccessive : s.Successive ms)
    (hsplit : ms = before ++ m :: after) : m.Descends before := by
  induction before using List.reverseRecOn generalizing m after with
  | nil =>
    obtain ⟨hcontrol, hstack⟩ := hconsecutive.start m (by rw [hsplit]; rfl)
    refine ⟨⟨hcontrol ▸ nofun, ?_, hs.remains (hsuccessive.split hsplit)⟩, .nil, nofun⟩
    rw [hstack]
    nofun
  | append_singleton before n ih =>
    rw [List.append_assoc, List.singleton_append] at hsplit
    have hchain := hsplit ▸ hconsecutive.chain
    exact (ih hsplit).next (hsound.split hsplit) (List.isChain_append_cons_cons.1 hchain).2.1
      (hsuccessive.next hsplit)

/-- The classes that a state comes across: those that it holds, that a frame binds and that an object has,
and their superclasses. -/
inductive Reaches (m : Machine) : Class → Prop
  | held {c : Class} (h : .classObject c ∈ m.control.held ++ heldAll m.stack) : Reaches m c
  | bound {c : Class} {h : Handle} {name : String}
      (hfind : m.state.store.arena.find? h name = some (.classObject c)) : Reaches m c
  | inside {c : Class} {id : ObjectId} {p : Payload} (hp : m.state.store.heap.payload? id = some p)
      (hc : .classObject c ∈ p.values) : Reaches m c
  | superclass {c parent : Class} (h : Reaches m c) (hsuper : c.superclass = some parent) : Reaches m parent

/-- The next step looks for a method in a class: in one that is called for its initializer, in that of an
instance for a property, and in a superclass for what is read through `super`. -/
inductive Searches : Machine → Class → String → Prop
  | call {m : Machine} {c : Class} {arguments : List Value}
      (hcall : m.call? = some (.classObject c, arguments)) : Searches m c initializerName
  | property {c : Class} {id : ObjectId} {name : Ident} {stack : List Cont} {i : Interpreter}
      (hparent : i.store.parent? id = some c) :
      Searches ⟨.yield (.instance id), .get name :: stack, i⟩ c name.text
  | super {c : Class} {ref : Reference} {distance : Nat} {name : Ident} {stack : List Cont} {i : Interpreter}
      (hdistance : i.distances[ref.id]? = some distance)
      (hsuper : i.store.arena.findAt? i.active distance "super" = some (.classObject c)) :
      Searches ⟨.eval (.super ref name), stack, i⟩ c name.text

theorem reaches_of_parent? {c : Class} {id : ObjectId} (h : m.state.store.parent? id = some c) :
    m.Reaches c := by
  unfold Store.parent? at h
  split at h
  · next hp =>
    cases h
    exact .inside hp List.mem_cons_self
  · cases h

theorem Searches.reaches {c : Class} {name : String} (h : m.Searches c name) : m.Reaches c := by
  cases h with
  | call hcall =>
    unfold call? at hcall
    split at hcall <;> cases hcall
    · exact .held List.mem_cons_self
    · exact .held (List.mem_cons_of_mem _ List.mem_cons_self)
  | property hparent => exact reaches_of_parent? hparent
  | super hdistance hsuper =>
    obtain ⟨g, -, hfind⟩ := Option.bind_eq_some_iff.1 hsuper
    exact .bound hfind

theorem Descends.declared (h : m.Descends before) {c : Class} (hc : m.Reaches c) :
    ∃ methods, ⟨c, methods⟩ ∈ declared before := by
  have hmade : ∀ {c : Class}, (Value.classObject c).From ((Lox.declared before).map Declared.made) →
      ∃ methods, ⟨c, methods⟩ ∈ Lox.declared before := by
    intro c hfrom
    obtain ⟨d, hd, rfl⟩ := List.mem_map.1 (hfrom c rfl)
    exact ⟨d.methods, hd⟩
  induction hc with
  | held hheld => exact hmade (List.forall_mem_append.2 ⟨h.carries.control, h.carries.rests.held⟩ _ hheld)
  | bound hfind => exact hmade (h.carries.rests.store.find? hfind).1
  | inside hp hc => exact hmade (h.carries.rests.store.inside _ _ hp _ hc)
  | superclass _ hsuper ih =>
    obtain ⟨methods, hc⟩ := ih
    exact (h.lineage.parents _ hc _ hsuper).2

end Machine

namespace Session

/-- Whatever a session is fed, no class inherits from itself. Each class that a state comes across has been
declared before, and so have its superclasses, each of which is older than the one before it. Who follows them
from one identity to the next to find a method needs to look at no more classes than have been declared, and
finds the last method of the name in the first class that declares one. -/
theorem classes_of_history (sink : Sink) (clock : Clock) (fuel : Nat) (inputs : List (Mode × String))
    {before after : List Machine} {m : Machine}
    (hsplit : (Session.new sink clock).history fuel inputs = before ++ m :: after) :
    ((declared before).map fun d => d.made.stamp).Pairwise (· < ·) ∧
      (∀ stamp, ¬ Relation.TransGen (Extends (declared before)) stamp stamp) ∧
      (∀ c name, m.Searches c name → m.Reaches c) ∧
      ∀ c, m.Reaches c →
        (∃ methods, ⟨c, methods⟩ ∈ declared before) ∧
        (c.chain.map Class.stamp).Pairwise (· > ·) ∧
        ∀ name,
          searchMethod (declared before) name (declared before).length c.stamp = some (c.findMethod? name) ∧
          ∀ result, c.findMethod? name = result ↔ Nearest (declared before) name c result := by
  have hstored := each_new sink clock (V := Value.From []) fun _ => nofun
  have hsound := soundFrom_history fuel inputs (.new sink clock) (orderly_new sink clock)
  have hdescends := Machine.descends_of_consecutive hstored hsound (consecutive_history fuel _ inputs)
    (successive_history fuel _ inputs) hsplit
  have hlineage := hdescends.lineage
  refine ⟨hlineage.ordered, hlineage.acyclic, fun _ _ => Machine.Searches.reaches, fun c hc => ?_⟩
  obtain ⟨methods, hc⟩ := hdescends.declared hc
  exact ⟨⟨methods, hc⟩, (hlineage.chain hc).2.2, fun name =>
    ⟨hlineage.searchMethod_eq hc name (hlineage.length_chain_le hc), fun _ => hlineage.findMethod?_eq_iff hc⟩⟩

/-- A class is declared again, and inherits from what its name meant before. -/
theorem classes_of_history_redeclared :
    let s := Session.new {} ⟨fun _ => 0, 0, 0⟩
    let inputs := [(Mode.program, "class A { m() {} m() {} } var B = A; class A < B { n() {} } A().m();")]
    ∃ before m after c parent f, s.history 99 inputs = before ++ m :: after ∧ m.Reaches c ∧
      c.superclass = some parent ∧ c.name = parent.name ∧ parent.stamp < c.stamp ∧
      c.findMethod? "m" = some f ∧ Nearest (declared before) "m" c (some f) := by
  intro s inputs
  have hsome : ((s.history 99 inputs).any fun m => (m.state.store.parent? 0).any fun c =>
      (c.superclass.any fun parent => c.name == parent.name && decide (parent.stamp < c.stamp)) &&
        (c.findMethod? "m").isSome) = true := by decide +kernel
  obtain ⟨m, hm, hany⟩ := List.any_eq_true.1 hsome
  simp only [Option.any_eq_true, Bool.and_eq_true, beq_iff_eq, decide_eq_true_eq] at hany
  obtain ⟨c, hc, ⟨parent, hsuper, hname, hstamp⟩, hfound⟩ := hany
  obtain ⟨f, hf⟩ := Option.isSome_iff_exists.1 hfound
  obtain ⟨before, after, hsplit⟩ := List.append_of_mem hm
  obtain ⟨-, -, -, hclasses⟩ := classes_of_history {} ⟨fun _ => 0, 0, 0⟩ 99 inputs hsplit
  have hreaches : m.Reaches c := Machine.reaches_of_parent? hc
  exact ⟨before, m, after, c, parent, f, hsplit, hreaches, hsuper, hname, hstamp, hf,
    (((hclasses c hreaches).2.2 "m").2 (some f)).1 hf⟩

end Session
end Lox
