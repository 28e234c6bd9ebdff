import Lox.Proofs.Failures
import Lox.Proofs.Relabeling.Sessions
import Lox.Proofs.Scoping.Steps

/-!
# References find their frames

A reference with a distance is found as many links away from the active frame, in a frame that has been
made for the scope which declares its name. Other references are found in the global frame, or not at all.
-/
namespace Lox

open Surrounding (Nested)

/-- A reference among others, with these scopes around it. -/
def Among (os : List Occurrence) (around : List Surrounding) (ref : Reference) : Prop := (ref, around) ∈ os

variable {os : List Occurrence} {past : Past} {around : List Surrounding} {name : String}

theorem Surrounding.scope_of_distance? {d : Nat} (hd : distance? name around = some d) :
    ∃ scope, around[d]? = some scope ∧ name ∈ scope.names := by
  obtain ⟨hlt, hname, -⟩ := List.findIdx?_eq_some_iff_getElem.1 hd
  exact ⟨around[d], List.getElem?_eq_getElem hlt, List.contains_iff_mem.1 hname⟩

theorem Arena.Matches.find {a : Arena} {h : Handle} (hm : a.Matches past.openings h around) {d : Nat}
    {scope : Surrounding} (hscope : around[d]? = some scope) (hname : name ∈ scope.names) :
    ∃ v, a.findAt? h d name = some v := by
  obtain ⟨g, hg, -, -, hbinds⟩ := hm.ancestor? hscope
  obtain ⟨v, hv⟩ := hbinds name hname
  exact ⟨v, Option.bind_eq_some_iff.2 ⟨g, hg, hv⟩⟩

namespace Store

variable {s : Store} {g h : Handle} {v : Value}

/-! ## What is written -/

theorem find?_define_self (hh : s.arena.contains h = true) (name : String) (v : Value) :
    (s.define h name v).arena.find? h name = some v := by
  obtain ⟨f, hf⟩ := Arena.contains_iff.1 hh
  rw [define_of_some hf]
  refine Option.bind_eq_some_iff.2 ⟨_, (Arena.frame?_put hf _ h).trans (if_pos rfl), ?_⟩
  rw [Bindings.find?_insert, if_pos rfl]

theorem find?_assign_self (hfound : (s.arena.find? h name).isSome) (v : Value) :
    (s.assign h name v).2.arena.find? h name = some v := by
  obtain ⟨old, hold⟩ := Option.isSome_iff_exists.1 hfound
  obtain ⟨f, hf, -⟩ := Option.bind_eq_some_iff.1 hold
  unfold Store.assign
  rw [hold]
  exact find?_define_self (Arena.contains_iff.2 ⟨f, hf⟩) name v

/-- Binding a method changes no frame that there is. -/
theorem frame?_bind (hr : s.arena.Recycles) (method : Function) (receiver : Value)
    (hg : s.arena.contains g = true) : (s.bind method receiver).2.arena.frame? g = s.arena.frame? g := by
  obtain ⟨f, hf⟩ := Arena.contains_iff.1 hg
  have hne : g ≠ (s.create method.closure).1 := by
    rintro rfl
    exact Arena.not_issued_create hr method.closure (Arena.issued_of_frame? hf)
  have hcreate : (s.create method.closure).2.arena.frame? g = s.arena.frame? g :=
    (Arena.frame?_create hr method.closure g).trans (if_neg hne)
  have hdefine := frame?_define_of_ne (s := (s.create method.closure).2.retain receiver) hne "this" receiver
  rw [arena_retain] at hdefine
  exact hdefine.trans hcreate

end Store

namespace Interpreter

variable {i : Interpreter} {ref : Reference}

/-- The frame in which a reference is looked up. -/
def target? (i : Interpreter) (ref : Reference) : Option Handle :=
  match i.distances[ref.id]? with
  | some d => i.store.arena.ancestor? i.active d
  | none => some .globals

theorem lookup?_eq (i : Interpreter) (ref : Reference) :
    i.lookup? ref = (i.target? ref).bind (i.store.arena.find? · ref.name.text) := by
  unfold lookup? target?
  cases i.distances[ref.id]? <;> rfl

theorem arena_assign {h : Handle} (ht : i.target? ref = some h) (v : Value) :
    (i.assign ref v).2.store.arena = (i.store.assign h ref.name.text v).2.arena := by
  unfold target? at ht
  unfold assign Store.assignAt
  cases hd : i.distances[ref.id]? with
  | none =>
    rw [hd] at ht
    cases ht
    rfl
  | some d =>
    rw [hd] at ht
    dsimp only at ht ⊢
    rw [ht]

/-- What is known of references is how far away their scopes are. -/
structure Knows (os : List Occurrence) (i : Interpreter) : Prop where
  distances : ∀ o ∈ os, i.distances[o.1.id]? = Surrounding.distance? o.1.name.text o.2
  nested : ∀ o ∈ os, Nested o.2

/-- Where a class with a superclass is around, both are found, and the receiver is. -/
theorem superMethod_found {V : Value → Prop} (hs : i.store.Each V)
    (hframes : i.store.arena.Matches past.openings i.active around) (hnested : Nested around) {d : Nat}
    (hd : i.distances[ref.id]? = some d) (hdistance : Surrounding.distance? "super" around = some d)
    (method : String) :
    (∃ v, (i.superMethod ref method).1 = .ok v) ∨
      (i.superMethod ref method).1 = .error (.undefinedProperty method) := by
  obtain ⟨scope, hscope, hsuper⟩ := Surrounding.scope_of_distance? hdistance
  obtain ⟨v, hv⟩ := hframes.find hscope hsuper
  obtain ⟨parent, rfl⟩ := (hs.findAt? hv).2.2 rfl
  obtain ⟨inner, receiver, _, _, _, rfl, hreceiver, -, hinherits⟩ := hnested.receiver hdistance
  obtain ⟨w, hw⟩ := hframes.find hreceiver hinherits.hasThis
  obtain ⟨id, rfl⟩ := (hs.findAt? hw).2.1 rfl
  unfold superMethod
  rw [hd]
  dsimp only
  rw [hv]
  dsimp only
  rw [hw]
  dsimp only
  cases parent.findMethod? method with
  | some found => exact .inl ⟨_, rfl⟩
  | none => exact .inr rfl

end Interpreter

namespace Machine

/-- How the next step follows a reference: among the scopes `around` it, and to the frame `h`. -/
structure Follows (os : List Occurrence) (past : Past) (m : Machine) (ref : Reference)
    (around : List Surrounding) (h : Handle) : Prop where
  known : (ref, around) ∈ os
  distance : m.state.distances[ref.id]? = Surrounding.distance? ref.name.text around
  /-- The active frame has been entered last of those that are still to be left. -/
  active : m.state.active = Activation.current (activations m.stack)
  frames : m.state.store.arena.Matches past.openings m.state.active around
  live : m.state.store.arena.contains h = true
  reads : m.state.lookup? ref = m.state.store.arena.find? h ref.name.text
  writes : ∀ v rest, m.control = .yield v → m.stack = .assign ref :: rest → m.state.lookup? ref ≠ none →
    m.step.state.store.arena.find? h ref.name.text = some v
  others : ∀ g, g ≠ h → m.state.store.arena.contains g = true →
    m.step.state.store.arena.frame? g = m.state.store.arena.frame? g
  global : m.state.distances[ref.id]? = none → h = .globals
  /-- With a distance, the frame is the one that has been made for the scope, and binds the name. -/
  found : ∀ d, m.state.distances[ref.id]? = some d →
    m.state.store.arena.ancestor? m.state.active d = some h ∧ ∃ scope v, around[d]? = some scope ∧
      ref.name.text ∈ scope.names ∧ (∃ outer, ⟨h, scope.region, outer⟩ ∈ past.openings) ∧
      m.state.store.arena.find? h ref.name.text = some v
  /-- All that can still be missing is a method of the superclass. -/
  succeeds : ∀ d, m.state.distances[ref.id]? = some d → (∃ v, m.step.control = .yield v) ∨
    ∃ method, m.control = .eval (.super ref method) ∧
      m.step.control = fail method.line (.undefinedProperty method.text)

variable {m n : Machine} {ref : Reference} {P : Handle → Handle → Prop} {ρ : Renaming}

/-- Where the active frame stands there is the reference. -/
theorem Goes.reference {W : Standing} {Q : List Surrounding → Reference → Prop}
    (hm : m.Goes Q W) (href : m.reference? = some ref) :
    ∃ around, W.frame m.state.active around ∧ Q around ref := by
  unfold reference? at href
  split at href
  · cases href
    obtain ⟨around, hactive, ⟨-, href⟩, -⟩ := hm
    exact ⟨around, hactive, href⟩
  · cases href
    obtain ⟨around, hactive, ⟨-, href⟩, -⟩ := hm
    exact ⟨around, hactive, href⟩
  · cases href
    obtain ⟨around, hactive, ⟨-, href⟩, -⟩ := hm
    exact ⟨around, hactive, href⟩
  · cases href
    obtain ⟨around, hactive, ⟨-, href⟩, -⟩ := hm
    exact ⟨around, hactive, href⟩
  · cases href

/-- The reference and the method of `super`, if it is evaluated next. -/
def super? : Machine → Option (Reference × Ident)
  | ⟨.eval (.super ref method), _, _⟩ => some (ref, method)
  | _ => none

theorem reference?_of_super? {method : Ident} (h : m.super? = some (ref, method)) :
    m.reference? = some ref := by
  unfold super? at h
  split at h <;> cases h
  rfl

theorem Goes.named_super {W : Standing} {Q : List Surrounding → Reference → Prop} (hm : m.Goes Q W)
    {method : Ident} (hsuper : m.super? = some (ref, method)) : ref.name.text = "super" := by
  unfold super? at hsuper
  split at hsuper <;> cases hsuper
  obtain ⟨around, -, ⟨hname, -⟩, -⟩ := hm
  exact hname

theorem arena_assignStep {i : Interpreter} (stack : List Cont) {v : Value} {h : Handle}
    (ht : i.target? ref = some h) : (yieldStep v (.assign ref) stack i).state.store.arena =
      ((i.retain v).store.assign h ref.name.text v).2.arena := by
  have htarget : (i.retain v).target? ref = some h := by
    unfold Interpreter.target?
    rw [show (i.retain v).store.arena = i.store.arena from Store.arena_retain i.store v]
    exact ht
  have hassign := Interpreter.arena_assign htarget v
  unfold yieldStep
  dsimp only
  split <;> rename_i heq <;> rw [heq] at hassign
  · exact hassign
  · exact (Store.arena_discard _ v).trans hassign

theorem arena_variableStep (i : Interpreter) (stack : List Cont) (ref : Reference) :
    (evalStep (.variable ref) stack i).state.store.arena = i.store.arena := by
  unfold evalStep
  dsimp only
  split
  · exact Store.arena_retain i.store _
  · rfl

theorem control_variableStep {i : Interpreter} (stack : List Cont) {v : Value}
    (hv : i.lookup? ref = some v) : (evalStep (.variable ref) stack i).control = .yield v := by
  unfold evalStep
  dsimp only
  rw [hv]

/-- A step that follows a reference changes at most the frame that it leads to. -/
theorem frame?_of_reference (href : m.reference? = some ref) (hr : m.state.store.arena.Recycles)
    {g h : Handle} (ht : m.state.target? ref = some h) (hne : g ≠ h)
    (hg : m.state.store.arena.contains g = true) :
    m.step.state.store.arena.frame? g = m.state.store.arena.frame? g := by
  unfold reference? at href
  split at href
  -- an expression `this` is evaluated as a variable is
  · next ref stack i => exact congrArg (·.frame? g) (arena_variableStep i stack ref)
  · next ref stack i => exact congrArg (·.frame? g) (arena_variableStep i stack ref)
  · next ref method stack i =>
    change (evalStep (.super ref method) stack i).state.store.arena.frame? g = _
    rw [store_super]
    obtain ⟨-, cause, heq⟩ | ⟨method, id, -, heq⟩ := i.superMethod_cases ref method.text
    · rw [heq]
    · rw [heq]
      exact Store.frame?_bind hr method (.instance id) hg
  · next v ref stack i =>
    cases href
    have hassign := Store.frame?_assign_of_ne (s := (i.retain v).store) hne ref.name.text v
    rw [← arena_assignStep stack ht] at hassign
    exact hassign.trans (congrArg (·.frame? g) (Store.arena_retain i.store v))
  · cases href

/-- What is written is found afterwards. -/
theorem find?_of_assignment {v : Value} {rest : List Cont} {h : Handle} (hcontrol : m.control = .yield v)
    (hstack : m.stack = .assign ref :: rest) (ht : m.state.target? ref = some h)
    (hfound : m.state.lookup? ref ≠ none) : m.step.state.store.arena.find? h ref.name.text = some v := by
  obtain ⟨control, stack, i⟩ := m
  cases hcontrol
  cases hstack
  rw [Interpreter.lookup?_eq, ht] at hfound
  have hbound : ((i.retain v).store.arena.find? h ref.name.text).isSome := by
    rw [show (i.retain v).store.arena = i.store.arena from Store.arena_retain i.store v]
    exact Option.isSome_iff_ne_none.2 hfound
  change (yieldStep v (.assign ref) rest i).state.store.arena.find? h ref.name.text = _
  rw [arena_assignStep rest ht]
  exact Store.find?_assign_self hbound v

theorem control_super_of_ok {i : Interpreter} {stack : List Cont} {method : Ident} {v : Value}
    (h : (i.superMethod ref method.text).1 = .ok v) :
    (evalStep (.super ref method) stack i).control = .yield v := by
  unfold evalStep
  dsimp only
  split <;> rename_i heq <;> rw [heq] at h <;> cases h
  rfl

theorem control_super_of_missing {i : Interpreter} {stack : List Cont} {method : Ident} {name : String}
    (h : (i.superMethod ref method.text).1 = .error (.undefinedProperty name)) :
    (evalStep (.super ref method) stack i).control = fail method.line (.undefinedProperty name) := by
  unfold evalStep
  dsimp only
  split
  · next heq =>
    rw [heq] at h
    cases h
  · next heq =>
    rw [heq] at h
    cases h
    rfl
  · next hnot heq =>
    rw [heq] at h
    cases h
    exact absurd rfl (hnot name)

/-- What is found is read or written. -/
theorem yields_of_lookup {v : Value} (href : m.reference? = some ref) (hv : m.state.lookup? ref = some v) :
    (∃ w, m.step.control = .yield w) ∨ ∃ method, m.control = .eval (.super ref method) := by
  unfold reference? at href
  split at href
  · next stack i =>
    cases href
    exact .inl ⟨v, control_variableStep stack hv⟩
  · next stack i =>
    cases href
    exact .inl ⟨v, control_variableStep stack hv⟩
  · next method stack i =>
    cases href
    exact .inr ⟨method, rfl⟩
  · next w _ stack i =>
    cases href
    have hfound := Interpreter.assign_found (i.retain w) ref w
    rw [Interpreter.lookup?_retain, show i.lookup? ref = some v from hv] at hfound
    refine .inl ⟨w, ?_⟩
    change (yieldStep w (.assign ref) stack i).control = _
    unfold yieldStep
    dsimp only
    split
    · rfl
    · next heq =>
      rw [heq] at hfound
      cases hfound
  · cases href

/-- What has a distance is found, a method of the superclass perhaps not. -/
theorem Placed.succeeds (hm : m.Placed (Among os) (past.standing m.state.store.arena))
    (href : m.reference? = some ref)
    (hframes : m.state.store.arena.Matches past.openings m.state.active around) (hnested : Nested around) {d : Nat}
    (hd : m.state.distances[ref.id]? = some d)
    (haway : Surrounding.distance? ref.name.text around = some d) {v : Value}
    (hv : m.state.lookup? ref = some v) : (∃ w, m.step.control = .yield w) ∨
      ∃ method, m.control = .eval (.super ref method) ∧
        m.step.control = fail method.line (.undefinedProperty method.text) := by
  obtain hyield | ⟨method, hcontrol⟩ := yields_of_lookup href hv
  · exact .inl hyield
  · obtain ⟨control, stack, i⟩ := m
    cases hcontrol
    obtain ⟨-, -, ⟨hsuper, -⟩, -⟩ := hm.goes
    rw [hsuper] at haway
    obtain ⟨w, hw⟩ | hmissing :=
      Interpreter.superMethod_found hm.store hframes hnested hd haway method.text
    · exact .inl ⟨w, control_super_of_ok hw⟩
    · exact .inr ⟨method, rfl, control_super_of_missing hmissing⟩

/-- Every reference is followed to where it belongs. -/
theorem Placed.follows (hm : m.Placed (Among os) (past.standing m.state.store.arena))
    (hknows : m.state.Knows os) (ht : Twin P ρ m n) (href : m.reference? = some ref) :
    ∃ around h, m.Follows os past ref around h := by
  obtain ⟨around, hactive, hknown⟩ := hm.goes.reference href
  have healthy := ht.setting.twin.store.healthy
  have hframes := Arena.Stands.matches hactive ht.setting.twin.contains_active healthy.intact.live
  have hdistance := hknows.distances _ hknown
  have hstep : ∀ {h}, m.state.target? ref = some h →
      m.state.lookup? ref = m.state.store.arena.find? h ref.name.text ∧
      (∀ v rest, m.control = .yield v → m.stack = .assign ref :: rest → m.state.lookup? ref ≠ none →
        m.step.state.store.arena.find? h ref.name.text = some v) ∧
      ∀ g, g ≠ h → m.state.store.arena.contains g = true →
        m.step.state.store.arena.frame? g = m.state.store.arena.frame? g := by
    intro h htarget
    refine ⟨?_, fun v rest hcontrol hstack => find?_of_assignment hcontrol hstack htarget, fun g hne =>
      frame?_of_reference href healthy.accounted.recycles htarget hne⟩
    rw [Interpreter.lookup?_eq, htarget]
    rfl
  cases hd : m.state.distances[ref.id]? with
  | none =>
    have htarget : m.state.target? ref = some .globals := by
      unfold Interpreter.target?
      rw [hd]
    obtain ⟨hreads, hwrites, hothers⟩ := hstep htarget
    have hlive := ht.setting.twin.contains_globals
    exact ⟨around, .globals, hknown, hdistance, ht.setting.twin.active, hframes, hlive, hreads, hwrites,
      hothers, fun _ => rfl, fun d h => absurd (hd.symm.trans h) nofun,
      fun d h => absurd (hd.symm.trans h) nofun⟩
  | some d =>
    have haway : Surrounding.distance? ref.name.text around = some d := hdistance.symm.trans hd
    obtain ⟨scope, hscope, hname⟩ := Surrounding.scope_of_distance? haway
    obtain ⟨h, hancestor, hlive, hopened, hbinds⟩ := hframes.ancestor? hscope
    obtain ⟨v, hv⟩ := hbinds _ hname
    have htarget : m.state.target? ref = some h := by
      unfold Interpreter.target?
      rw [hd]
      exact hancestor
    obtain ⟨hreads, hwrites, hothers⟩ := hstep htarget
    refine ⟨around, h, hknown, hdistance, ht.setting.twin.active, hframes, hlive, hreads, hwrites, hothers,
      fun h => absurd (hd.symm.trans h) nofun, fun d' h' => ?_, fun d' h' => ?_⟩
    · cases hd.symm.trans h'
      exact ⟨hancestor, scope, v, hscope, hname, hopened, hv⟩
    · exact hm.succeeds href hframes (hknows.nested _ hknown) hd haway (hreads.trans hv)

end Machine
end Lox
