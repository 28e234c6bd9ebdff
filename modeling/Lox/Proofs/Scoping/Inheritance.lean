import Lox.Proofs.Scoping.Successions
import Lox.Proofs.Scoping.Superclasses

/-!
# Methods of superclasses

A method that is read through `super` is that of the class which has been the superclass when the class
around the expression was declared. It is bound to the instance to which the method around the expression
has been bound, whatever the class of the instance is, and whatever the names of the classes mean by then.
-/
namespace Lox

open Machine (SoundFrom)

variable {m : Machine} {ms before after : List Machine} {o : Opening} {v : Value}

/-! ## Frames that are made for values -/

namespace Machine

theorem opened_of_call {callee : Value} {arguments : List Value} (h : m.call? = some (callee, arguments)) :
    m.opened = openedByCall callee arguments m.state := by
  unfold call? at h
  split at h <;> cases h <;> rfl

/-- Frames that are made for values are among those that are made. -/
theorem Furnishes.opened (h : m.Furnishes o v) : o ∈ m.opened := by
  cases h with
  | property hmethod => exact List.mem_map_of_mem (Option.mem_toList.2 hmethod)
  | super hdistance hthis hmethod => exact List.mem_map_of_mem (Option.mem_toList.2 hmethod)
  | @initializer _ c arguments method id store hcall harity hid hmethod =>
    have harity : (Value.classObject c).arity? = some arguments.length := congrArg some harity
    rw [opened_of_call hcall, openedByCall, if_pos harity]
    change _ ∈ openedByInstantiate c m.state
    unfold openedByInstantiate
    rw [hid]
    dsimp only
    rw [hmethod]
    exact List.mem_cons_self
  | superclass => exact List.mem_singleton.2 rfl

theorem Furnishes.receiver {t g : Handle} {decl : FunctionDecl}
    (h : m.Furnishes ⟨t, .receiver decl, g⟩ v) : ∃ id, v = .instance id := by
  cases h <;> exact ⟨_, rfl⟩

theorem Furnishes.heritage {g outer : Handle} {methods : List FunctionDecl}
    (h : m.Furnishes ⟨g, .heritage methods, outer⟩ v) : ∃ parent, v = .classObject parent := by
  cases h
  exact ⟨_, rfl⟩

end Machine

/-- Scopes that are next to each other have frames that are linked. -/
theorem Arena.Matches.link {os : List Opening} {a : Arena} {h : Handle} {around : List Surrounding}
    (hm : a.Matches os h around) {d : Nat} {inner outer : Surrounding} (hinner : around[d]? = some inner)
    (houter : around[d + 1]? = some outer) : ∃ t g e, a.ancestor? h d = some t ∧
      a.ancestor? h (d + 1) = some g ∧ ⟨t, inner.region, g⟩ ∈ os ∧ ⟨g, outer.region, e⟩ ∈ os ∧
      (∀ x ∈ inner.names, ∃ v, a.find? t x = some v) ∧ ∀ x ∈ outer.names, ∃ v, a.find? g x = some v := by
  induction hm generalizing d with
  | globals => cases hinner
  | @inside h e f scope rest hf he hopened hnames hrest ih =>
    have hup : ∀ n, a.ancestor? h (n + 1) = a.ancestor? e n := by
      intro n
      rw [Arena.ancestor?, hf]
      dsimp only
      rw [he]
    cases d with
    | zero =>
      cases hinner
      cases hrest with
      | globals => cases houter
      | @inside _ e' f' _ _ hf' he' hopened' hnames' _ =>
        cases houter
        exact ⟨h, e, e', if_pos (contains_iff.2 ⟨f, hf⟩), (hup 0).trans (if_pos (contains_iff.2 ⟨f', hf'⟩)),
          hopened, hopened', hnames, hnames'⟩
    | succ d =>
      obtain ⟨t, g, e', ht, hg, hrest⟩ := ih hinner houter
      exact ⟨t, g, e', (hup d).trans ht, (hup (d + 1)).trans hg, hrest⟩

/-! ## Bound methods -/

/-- The function is a method with its receiver in the frame around it. -/
structure Function.Bound (f method : Function) (receiver : Value) (a : Arena) : Prop where
  decl : f.decl = method.decl
  isInitializer : f.isInitializer = method.isInitializer
  frame : ∃ frame, a.frame? f.closure = some frame ∧ frame.enclosing = some method.closure ∧
    frame.bindings = Bindings.empty.insert "this" receiver

theorem Store.bound_bind {s : Store} (hr : s.arena.Recycles) (method : Function) (receiver : Value) :
    (s.bind method receiver).1.Bound method receiver (s.bind method receiver).2.arena := by
  refine ⟨rfl, rfl, ?_⟩
  let g := (s.create method.closure).1
  have hcreate : ((s.create method.closure).2.retain receiver).arena.frame? g =
      some ⟨Bindings.empty, some method.closure, false⟩ := by
    rw [arena_retain]
    exact (Arena.frame?_create hr method.closure g).trans (if_pos rfl)
  have hdefine : (((s.create method.closure).2.retain receiver).define g "this" receiver).arena.frame? g =
      some ⟨Bindings.empty.insert "this" receiver, some method.closure, false⟩ := by
    rw [define_of_some hcreate]
    exact (Arena.frame?_put hcreate _ g).trans (if_pos rfl)
  exact ⟨_, hdefine, rfl, rfl⟩

namespace Machine

/-- How `super` is evaluated where the superclass and the receiver are found. -/
theorem super_step {ref : Reference} {method : Ident} {inner : Nat} {parent : Class} {id : ObjectId}
    (hsuper : m.super? = some (ref, method)) (hr : m.state.store.arena.Recycles)
    (hdistance : m.state.distances[ref.id]? = some (inner + 1))
    (hparent : m.state.store.arena.findAt? m.state.active (inner + 1) "super" = some (.classObject parent))
    (hthis : m.state.store.arena.findAt? m.state.active inner "this" = some (.instance id)) :
    (∀ found, parent.findMethod? method.text = some found → ∃ f, m.step.control = .yield (.function f) ∧
        f.Bound found (.instance id) m.step.state.store.arena) ∧
      (parent.findMethod? method.text = none →
        m.step.control = fail method.line (.undefinedProperty method.text)) := by
  unfold super? at hsuper
  split at hsuper
  · next ref method stack i =>
    cases hsuper
    refine ⟨fun found hfound => ?_, fun hnone => ?_⟩
    · have heq := Interpreter.superMethod_eq_ok hdistance hparent hthis hfound
      refine ⟨_, control_super_of_ok (congrArg Prod.fst heq), ?_⟩
      change Function.Bound _ _ _ (evalStep (.super ref method) stack i).state.store.arena
      rw [store_super, heq]
      exact Store.bound_bind hr found (.instance id)
    · have heq := Interpreter.superMethod_eq_error hdistance hparent hthis hnone
      exact control_super_of_missing (congrArg Prod.fst heq)
  · cases hsuper

theorem yields_of_super {ref : Reference} {method : Ident} (hsuper : m.super? = some (ref, method))
    (hok : (m.state.superMethod ref method.text).1.isOk = true) : ∃ v, m.step.control = .yield v := by
  unfold super? at hsuper
  split at hsuper <;> cases hsuper
  cases hv : (Interpreter.superMethod _ ref method.text).1 with
  | ok v => exact ⟨v, control_super_of_ok hv⟩
  | error cause =>
    rw [hv] at hok
    cases hok

end Machine

/-! ## Sessions -/

namespace Session

/-- What is accepted has `super` only in classes with superclasses. -/
theorem derived_analyze (s : Session) (mode : Mode) (source : String) :
    Occurrence.Derived (s.analyze mode source).1.occurrences := by
  cases mode with
  | program =>
    obtain ⟨diagnostics, h⟩ | ⟨tree, distances, hparses, hresolved, h⟩ := analyze_program_cases s source
    · rw [h]
      exact List.forall_mem_nil _
    · rw [h]
      exact derived_of_resolveProgram hparses.fits hresolved
  | expression =>
    obtain ⟨diagnostics, h⟩ | ⟨e, distances, -, hparses, hresolved, h⟩ := analyze_expression_cases s source
    · rw [h]
      exact List.forall_mem_nil _
    · rw [h]
      have hany : e.Fits fun _ => True := (reading_of_parseExpression hparses).fits spelled_words
      exact derived_of_resolveExpression (P := fun _ _ => True) hany hresolved

theorem derived_occurrences (fuel : Nat) (s : Session) (inputs : List (Mode × String)) :
    Occurrence.Derived (s.occurrences fuel inputs) := by
  induction inputs generalizing s with
  | nil => exact List.forall_mem_nil _
  | cons input rest ih =>
    obtain ⟨mode, source⟩ := input
    unfold Session.occurrences
    refine (derived_analyze s mode source).append ?_
    rcases s.run fuel mode source with ⟨⟨outcome, diagnostics⟩, s'⟩
    cases outcome with
    | status status => exact ih s'
    | crashed | exhausted => exact List.forall_mem_nil _

variable {sink : Sink} {clock : Clock} {fuel : Nat} {inputs : List (Mode × String)}

/-- In states that follow one another from the start, a frame binds `this` or `super` to the value for which
it has been made. -/
theorem furnished_of_sound {os : List Occurrence} (hsound : SoundFrom os .empty ms)
    (hsuccessive : (Session.new sink clock).interpreter.store.Successive ms) (hsplit : ms = before ++ m :: after)
    (ho : o ∈ (Past.empty.after before).openings) {name : String} (hname : Reserved name)
    (hv : m.state.store.arena.find? o.frame name = some v) : ∃ b ∈ before, b.Furnishes o v := by
  have hleads := hsuccessive.split hsplit
  have hfixed : ∀ b ∈ before, Arena.Fixed b.furnished b.state.store.arena b.step.state.store.arena := by
    intro b hb
    obtain ⟨earlier, later, hbefore⟩ := List.append_of_mem hb
    exact ((hsound.take hsplit).split hbefore).fixed
  have hnative := each_new sink clock (V := fun w => ∃ n, w = .native n) fun n => ⟨n, rfl⟩
  obtain hold | ⟨b, hb, o', hfurnishes, hframe⟩ :=
    hleads.fixed hfixed o.frame name v hname hv
  · obtain ⟨⟨n, rfl⟩, hthis, hsuper⟩ := hnative.find? hold
    obtain rfl | rfl := hname
    · obtain ⟨id, hid⟩ := hthis rfl
      cases hid
    · obtain ⟨c, hc⟩ := hsuper rfl
      cases hc
  · have ho' : o' ∈ (Past.empty.after before).openings := by
      rw [Past.openings_after]
      exact List.mem_append_right _ (List.mem_flatMap.2 ⟨b, hb, hfurnishes.opened⟩)
    have hnodup := (hsound.take hsplit).nodup List.nodup_nil
    obtain rfl := List.inj_on_of_nodup_map hnodup ho' ho hframe
    exact ⟨b, hb, hfurnishes⟩

theorem furnished_of_history (hsplit : (Session.new sink clock).history fuel inputs = before ++ m :: after)
    (ho : o ∈ (Past.empty.after before).openings) {name : String} (hname : Reserved name)
    (hv : m.state.store.arena.find? o.frame name = some v) : ∃ b ∈ before, b.Furnishes o v :=
  furnished_of_sound (soundFrom_history fuel inputs (.new sink clock) (orderly_new sink clock))
    (successive_history fuel (Session.new sink clock) inputs) hsplit ho hname hv

/-- Whatever a session is fed, `super` stands in a method of a class that is declared with a superclass, and
finds both when it is evaluated. Some frame `t` around the active one has been made when the method around
`super` was bound to an instance, and the next one, `g`, when the class was declared, for the class that its
superclass was then. What comes of the step depends on these two and on the name of the method only: that
method of the superclass, bound to the instance, or an error if there is none. -/
theorem super_of_history (hsplit : (Session.new sink clock).history fuel inputs = before ++ m :: after)
    {ref : Reference} {method : Ident} (hsuper : m.super? = some (ref, method)) :
    ∃ around inner decl methods t g outer id parent,
      m.Follows ((Session.new sink clock).occurrences fuel inputs) (Past.empty.after before) ref around g ∧
      Surrounding.InMethod around inner decl methods ∧
      m.state.store.arena.ancestor? m.state.active inner = some t ∧
      m.state.store.arena.ancestor? m.state.active (inner + 1) = some g ∧
      (∃ b ∈ before, b.Furnishes ⟨t, .receiver decl, g⟩ (.instance id)) ∧
      (∃ b ∈ before, b.Furnishes ⟨g, .heritage methods, outer⟩ (.classObject parent)) ∧
      (∀ found, parent.findMethod? method.text = some found →
        ∃ f, m.step.control = .yield (.function f) ∧
          f.Bound found (.instance id) m.step.state.store.arena) ∧
      (parent.findMethod? method.text = none →
        m.step.control = Machine.fail method.line (.undefinedProperty method.text)) := by
  have hsound := soundFrom_history fuel inputs (.new sink clock) (orderly_new sink clock)
  rw [List.nil_append] at hsound
  have hm := hsound.split hsplit
  have hname := hm.superNamed ref method hsuper
  obtain ⟨around, h, hfollows⟩ := hm.references ref (Machine.reference?_of_super? hsuper)
  obtain ⟨inner, decl, methods, hinmethod⟩ :=
    derived_occurrences fuel (Session.new sink clock) inputs _ hfollows.known hname
  have hdistance : m.state.distances[ref.id]? = some (inner + 1) := by
    rw [hfollows.distance, hname]
    exact hinmethod.super
  obtain ⟨receiver, heritage, hreceiver, hheritage, hinherits⟩ := hinmethod.scopes
  obtain ⟨t, g, outer, ht, hg, htopened, hgopened, htbinds, hgbinds⟩ :=
    hfollows.frames.link hreceiver hheritage
  rw [hinherits.receiver] at htopened
  rw [hinherits.heritage] at hgopened
  obtain rfl : h = g := Option.some.inj ((hfollows.found _ hdistance).1.symm.trans hg)
  -- what the two frames bind are an instance and a class, since only such frames have been made
  obtain ⟨v, hv⟩ := htbinds "this" hinherits.hasThis
  obtain ⟨w, hw⟩ := hgbinds "super" hinherits.hasSuper
  obtain ⟨b, hb, hbound⟩ := furnished_of_history hsplit htopened (.inl rfl) hv
  obtain ⟨d, hd, hdeclared⟩ := furnished_of_history hsplit hgopened (.inr rfl) hw
  obtain ⟨id, rfl⟩ := hbound.receiver
  obtain ⟨parent, rfl⟩ := hdeclared.heritage
  obtain ⟨hfound, hmissing⟩ := Machine.super_step hsuper hm.recycles hdistance
    (Option.bind_eq_some_iff.2 ⟨_, hg, hw⟩) (Option.bind_eq_some_iff.2 ⟨_, ht, hv⟩)
  exact ⟨around, inner, decl, methods, t, h, outer, id, parent, hfollows, hinmethod, ht, hg, ⟨b, hb, hbound⟩,
    ⟨d, hd, hdeclared⟩, hfound, hmissing⟩

/-- In a function inside of a method that is called on an instance of a derived class. -/
theorem super_of_history_nested :
    let source := "class A { m() {} } class B < A { m() { fun f() { super.m(); } f(); } } class C < B {} C().m();"
    let s := Session.new {} ⟨fun _ => 0, 0, 0⟩
    ∃ before m after o id found f, s.history 99 [(.program, source)] = before ++ m :: after ∧
      (∃ b ∈ before, b.Furnishes o (.instance id)) ∧ m.step.control = .yield (.function f) ∧
      f.Bound found (.instance id) m.step.state.store.arena := by
  intro source s
  have hsome : ((s.history 99 [(.program, source)]).any fun m =>
      m.super?.any fun r => (m.state.superMethod r.1 r.2.text).1.isOk) = true := by decide +kernel
  obtain ⟨m, hm, hany⟩ := List.any_eq_true.1 hsome
  obtain ⟨⟨ref, method⟩, hsuper, hok⟩ := (Option.any_eq_true _ _).1 hany
  obtain ⟨before, after, hsplit⟩ := List.append_of_mem hm
  obtain ⟨_, _, _, _, t, g, _, id, parent, -, -, -, -, hbound, -, hfound, hmissing⟩ :=
    super_of_history hsplit hsuper
  cases hfind : parent.findMethod? method.text with
  | none =>
    obtain ⟨v, hyield⟩ := Machine.yields_of_super hsuper hok
    exact absurd (hyield.symm.trans (hmissing hfind)) nofun
  | some found =>
    obtain ⟨f, hyield, hf⟩ := hfound found hfind
    exact ⟨before, m, after, _, id, found, f, hsplit, hbound, hyield, hf⟩

end Session
end Lox
