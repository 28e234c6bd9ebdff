import Lox.Proofs.Reclamation.Objects

/-!
# Twin interpreters

Two interpreters with twin stores, which are in corresponding frames and have read and written the
same. The frame that is active is that of the innermost activation.
-/
namespace Lox

/-- The frame of the innermost activation. -/
def Activation.current : List Activation → Handle
  | [] => .globals
  | a :: _ => a.frame

namespace Interpreter

open Store (Pinned Mirror)

structure Twin (P : Handle → Handle → Prop) (ρ : Renaming) (i j : Interpreter)
    (extra : List ObjectId) (held : List Value) (acts : List Activation) : Prop where
  store : Store.Twin P ρ i.store j.store extra held acts
  active : i.active = Activation.current acts
  image : j.active = ρ i.active
  distances : j.distances = i.distances
  sink : j.sink = i.sink
  clock : j.clock = i.clock

variable {P : Handle → Handle → Prop} {ρ : Renaming} {i j : Interpreter} {extra : List ObjectId}
  {held held' : List Value} {acts acts' : List Activation} {v : Value}

theorem contains_current {s : Store} (hh : s.Healthy extra held acts) :
    s.arena.contains (Activation.current acts) = true := by
  cases acts with
  | nil =>
    obtain ⟨f, hf, -⟩ := hh.intact.globals
    exact Arena.contains_iff.2 ⟨f, hf⟩
  | cons a acts => exact hh.intact.entered a List.mem_cons_self

namespace Twin

/-- The stores change, nothing else does. -/
theorem update {s u : Store} (ht : Twin P ρ i j extra held acts)
    (hs : Store.Twin P ρ s u extra held' acts) :
    Twin P ρ { i with store := s } { j with store := u } extra held' acts :=
  ⟨hs, ht.active, ht.image, ht.distances, ht.sink, ht.clock⟩

theorem contains_active (ht : Twin P ρ i j extra held acts) :
    i.store.arena.contains i.active = true := by
  rw [ht.active]
  exact contains_current ht.store.healthy

theorem image_globals (ht : Twin P ρ i j extra held acts) : ρ .globals = .globals :=
  ht.store.mirror.globals

theorem contains_globals (ht : Twin P ρ i j extra held acts) :
    i.store.arena.contains .globals = true := by
  obtain ⟨f, hf, -⟩ := ht.store.healthy.intact.globals
  exact Arena.contains_iff.2 ⟨f, hf⟩

theorem rearrange (ht : Twin P ρ i j extra held acts)
    (hcount : ∀ id, (Value.objects held').count id ≤ (Value.objects held).count id)
    (hmem : ∀ w ∈ held', i.store.Accessible held w) : Twin P ρ i j extra held' acts :=
  ht.update (ht.store.rearrange hcount hmem)

theorem perm (ht : Twin P ρ i j extra held acts) (hp : held.Perm held') :
    Twin P ρ i j extra held' acts :=
  ht.update (ht.store.perm hp)

theorem forget (ht : Twin P ρ i j extra (v :: held) acts) : Twin P ρ i j extra held acts :=
  ht.update ht.store.forget

theorem hold (ht : Twin P ρ i j extra held acts) (hobject : v.object? = none)
    (hi : i.store.Supports v) (hj : j.store.Supports (v.rename ρ)) :
    Twin P ρ i j extra (v :: held) acts :=
  ht.update (ht.store.hold hobject hi hj)

theorem trade {w : Value} (ht : Twin P ρ i j extra (v :: held) acts)
    (hobject : w.object? = v.object?) (hi : i.store.Supports w)
    (hj : j.store.Supports (w.rename ρ)) : Twin P ρ i j extra (w :: held) acts :=
  ht.update (ht.store.trade hobject hi hj)

theorem discard (ht : Twin P ρ i j extra (v :: held) acts) :
    Twin P ρ (i.discard v) (j.discard (v.rename ρ)) extra held acts :=
  ht.update ht.store.discard

theorem discardAll {values : List Value} (ht : Twin P ρ i j extra (values ++ held) acts) :
    Twin P ρ (i.discardAll values) (j.discardAll (values.map (Value.rename ρ))) extra held acts :=
  ht.update ht.store.discardAll

theorem retain (ht : Twin P ρ i j extra held acts) (hv : i.store.Accessible held v) :
    Twin P ρ (i.retain v) (j.retain (v.rename ρ)) extra (v :: held) acts :=
  ht.update (ht.store.retain hv)

theorem drain (ht : Twin P ρ i j extra held acts) (hpins : Pinned held acts) :
    Twin P ρ i.drain j.drain extra held acts :=
  ht.update (ht.store.drain hpins)

/-! ## Variables -/

theorem lookup? (ht : Twin P ρ i j extra held acts) (ref : Reference) :
    j.lookup? ref = (i.lookup? ref).map (Value.rename ρ) := by
  unfold Interpreter.lookup?
  rw [ht.distances, ht.image]
  cases i.distances[ref.id]? with
  | none =>
    have hfind := ht.store.mirror.find? ht.contains_globals ref.name.text
    rw [ht.image_globals] at hfind
    exact hfind
  | some distance =>
    exact ht.store.mirror.findAt? ht.store.healthy.intact ht.contains_active distance _

theorem accessible_of_findAt? {s : Store} {h : Handle} {distance : Nat} {name : String}
    (hv : s.arena.findAt? h distance name = some v) : s.Accessible held v := by
  obtain ⟨outer, -, hv⟩ := Option.bind_eq_some_iff.1 hv
  exact .of_find? hv

theorem accessible_of_lookup? {ref : Reference} (hv : i.lookup? ref = some v) :
    i.store.Accessible held v := by
  unfold Interpreter.lookup? at hv
  split at hv
  · exact accessible_of_findAt? hv
  · exact .of_find? hv

theorem assign (ht : Twin P ρ i j extra (v :: held) acts) (ref : Reference) :
    (j.assign ref (v.rename ρ)).1 = (i.assign ref v).1 ∧
      Twin P ρ (i.assign ref v).2 (j.assign ref (v.rename ρ)).2 extra held acts := by
  unfold Interpreter.assign
  rw [ht.distances, ht.image]
  cases i.distances[ref.id]? with
  | none =>
    have hassign := ht.store.assign ht.contains_globals ref.name.text
    rw [ht.image_globals] at hassign
    obtain ⟨hfound, hstore⟩ := hassign
    exact ⟨hfound, hstore, ht.active, rfl, rfl, ht.sink, ht.clock⟩
  | some distance =>
    obtain ⟨hfound, hstore⟩ := ht.store.assignAt ht.contains_active distance ref.name.text
    exact ⟨hfound, hstore, ht.active, rfl, rfl, ht.sink, ht.clock⟩

theorem define (ht : Twin P ρ i j extra (v :: held) acts) (name : String) :
    Twin P ρ (i.define name v) (j.define name (v.rename ρ)) extra held acts := by
  unfold Interpreter.define
  rw [ht.image]
  exact ⟨ht.store.define ht.contains_active name, ht.active, rfl, ht.distances, ht.sink, ht.clock⟩

/-! ## Frames -/

/-- A new activation is entered, by a call of `callee` or in the frame that is active. -/
theorem enter (ht : Twin P ρ i j extra held acts) {e : Handle} (callee : Option Function)
    (hpins : Pinned held acts) (hlive : i.store.arena.contains e = true)
    (he : e = i.active ∨ ∃ f, callee = some f ∧ f.closure = e)
    (hcallee : ∀ f, callee = some f → i.store.arena.contains f.closure = true)
    (hP : P (i.enter e).active (j.enter (ρ e)).active) :
    ∃ ρ' : Renaming, (∀ h, i.store.arena.contains h = true → ρ' h = ρ h) ∧
      Twin P ρ' (i.enter e) (j.enter (ρ e)) extra held (⟨(i.enter e).active, callee⟩ :: acts) := by
  have hs : i.store.arena.Captured e ∨ (∃ b ∈ acts, b.frame = e) ∨ ∃ f, callee = some f ∧ f.closure = e := by
    obtain rfl | hf := he
    · rw [ht.active]
      cases acts with
      | nil =>
        obtain ⟨f, hf, hc, -⟩ := ht.store.healthy.intact.globals
        exact .inl ⟨f, hf, hc⟩
      | cons a acts => exact .inr (.inl ⟨a, List.mem_cons_self, rfl⟩)
    · exact .inr (.inr hf)
  have hu : j.store.arena.Captured (ρ e) ∨ (∃ b ∈ acts.map (Activation.rename ρ), b.frame = ρ e) ∨
      ∃ f, callee = some f ∧ f.closure = e := by
    obtain rfl | hf := he
    · rw [ht.active]
      cases acts with
      | nil =>
        obtain ⟨f, hf, hc, -⟩ := ht.store.shadow.intact.globals
        exact .inl ⟨f, (congrArg _ ht.image_globals).trans hf, hc⟩
      | cons a acts => exact .inr (.inl ⟨a.rename ρ, List.mem_cons_self, rfl⟩)
    · exact .inr (.inr hf)
  refine ⟨_, ht.store.extend_of_contains e (j.store.create (ρ e)).1,
    ht.store.create callee hpins hlive hs hu hcallee hP, rfl, (Renaming.extend_self ..).symm, ht.distances,
    ht.sink, ht.clock⟩

/-- The innermost activation comes to an end. -/
theorem leave {a : Activation} (ht : Twin P ρ i j extra held (a :: acts))
    (hpins : Pinned held acts) :
    Twin P ρ (i.leave (Activation.current acts) a.frame)
      (j.leave (ρ (Activation.current acts)) (ρ a.frame)) extra held acts :=
  ⟨(ht.store.release hpins).drain hpins, rfl, rfl, ht.distances, ht.sink, ht.clock⟩

/-! ## Functions and classes -/

theorem closeOver (ht : Twin P ρ i j extra held acts) (decl : FunctionDecl) (isInitializer : Bool) :
    (j.closeOver decl isInitializer).1 = (i.closeOver decl isInitializer).1.rename ρ ∧
      Twin P ρ (i.closeOver decl isInitializer).2 (j.closeOver decl isInitializer).2 extra
        (.function (i.closeOver decl isInitializer).1 :: held) acts := by
  have himage := ht.contains_active
  have hcapture := ht.store.capture i.active
  have hs : (i.store.capture i.active).arena.Captured i.active := Store.captured_capture himage
  have hu : (j.store.capture (ρ i.active)).arena.Captured (ρ i.active) :=
    Store.captured_capture (ht.store.mirror.contains himage)
  obtain ⟨hf, hstore⟩ := hcapture.closeOver decl isInitializer hs hu
  unfold Interpreter.closeOver
  rw [ht.image]
  exact ⟨hf, hstore, ht.active, rfl, ht.distances, ht.sink, ht.clock⟩

theorem declareFunction (ht : Twin P ρ i j extra held acts) (decl : FunctionDecl) :
    Twin P ρ (i.declareFunction decl) (j.declareFunction decl) extra held acts := by
  obtain ⟨hf, hclose⟩ := ht.closeOver decl false
  have hdefine := hclose.define decl.name.text
  unfold Interpreter.declareFunction
  dsimp only
  rw [hf]
  exact hdefine

theorem captured_closeOver {h : Handle} (hc : i.store.arena.Captured h) (decl : FunctionDecl)
    (isInitializer : Bool) : (i.closeOver decl isInitializer).2.store.arena.Captured h :=
  Arena.Captured.capture hc i.active

theorem closeOverMethods (ht : Twin P ρ i j extra held acts) (table : Bindings Function)
    (htable : ∀ f ∈ table.values, i.store.arena.Captured f.closure ∧
      j.store.arena.Captured (ρ f.closure)) (methods : List FunctionDecl) :
    (j.closeOverMethods (table.map (Function.rename ρ)) methods).1 =
        (i.closeOverMethods table methods).1.map (Function.rename ρ) ∧
      Twin P ρ (i.closeOverMethods table methods).2
        (j.closeOverMethods (table.map (Function.rename ρ)) methods).2 extra held acts ∧
      ∀ f ∈ (i.closeOverMethods table methods).1.values,
        (i.closeOverMethods table methods).2.store.arena.Captured f.closure ∧
        (j.closeOverMethods (table.map (Function.rename ρ)) methods).2.store.arena.Captured
          (ρ f.closure) := by
  induction methods generalizing i j table with
  | nil => exact ⟨rfl, ht, htable⟩
  | cons decl rest ih =>
    obtain ⟨hf, hclose⟩ := ht.closeOver decl (decl.name.text = initializerName)
    have hi := hclose.store.healthy.intact.supported _ (.held List.mem_cons_self)
    have hj := hclose.store.shadow.intact.supported _ (.held List.mem_cons_self)
    have hrest : Twin P ρ (i.closeOver decl (decl.name.text = initializerName)).2
        (j.closeOver decl (decl.name.text = initializerName)).2 extra held acts := hclose.forget
    unfold Interpreter.closeOverMethods
    dsimp only
    rw [hf, ← Bindings.map_insert]
    refine ih hrest _ fun f hmem => ?_
    obtain rfl | hmem := mem_values_insert hmem
    · exact ⟨hi, hj⟩
    · obtain ⟨hc, hc'⟩ := htable f hmem
      exact ⟨captured_closeOver hc decl _, captured_closeOver hc' decl _⟩

theorem captured_release {s : Store} {h : Handle} (hc : s.arena.Captured h) (g : Handle) :
    (s.release g).2.arena.Captured h := by
  unfold Store.release
  cases hl : s.arena.loose? g with
  | none => exact hc
  | some frame => exact Store.captured_free hl hc

/-- The activation of the frame that binds `super` is over once the methods are made. -/
theorem closeOverDerived (ht : Twin P ρ i j extra held acts) (hpins : Pinned held acts)
    {c : Class} (hc : .classObject c ∈ held) (methods : List FunctionDecl)
    (hP : P (i.enter i.active).active (j.enter j.active).active) :
    ∃ ρ' : Renaming, (∀ h, i.store.arena.contains h = true → ρ' h = ρ h) ∧
      (j.closeOverDerived (c.rename ρ) methods).1 =
        (i.closeOverDerived c methods).1.map (Function.rename ρ') ∧
      Twin P ρ' (i.closeOverDerived c methods).2 (j.closeOverDerived (c.rename ρ) methods).2 extra
        held acts ∧
      ∀ f ∈ (i.closeOverDerived c methods).1.values,
        (i.closeOverDerived c methods).2.store.arena.Captured f.closure ∧
        (j.closeOverDerived (c.rename ρ) methods).2.store.arena.Captured (ρ' f.closure) := by
  rw [ht.image] at hP
  obtain ⟨ρ', hagree, henter⟩ := ht.enter none hpins ht.contains_active (.inl rfl) nofun hP
  have hclass : (Value.classObject c).rename ρ' = .classObject (c.rename ρ) :=
    ht.store.healthy.agree hagree (.held hc)
  have hhold := henter.hold (v := .classObject c) rfl
    (henter.store.healthy.intact.supported _ (.held hc))
    (henter.store.shadow.intact.supported _ (.held (List.mem_map_of_mem hc)))
  have hdefine := hhold.define "super"
  rw [hclass] at hdefine
  obtain ⟨htable, hclose, hcaptured⟩ := hdefine.closeOverMethods Bindings.empty nofun methods
  have hactive := hclose.active
  have himage := hclose.image
  have hrelease := hclose.store.release hpins
  unfold Interpreter.closeOverDerived
  rw [ht.image]
  rw [Bindings.map_empty] at *
  dsimp only
  rw [himage, hactive]
  refine ⟨ρ', hagree, htable, ⟨hrelease, ht.active, ?_, hclose.distances, hclose.sink, hclose.clock⟩,
    fun f hf => ?_⟩
  · exact (hagree _ ht.contains_active).symm
  · obtain ⟨hs, hu⟩ := hcaptured f hf
    exact ⟨captured_release hs _, captured_release hu _⟩

theorem bindClass {table : Bindings Function} (ht : Twin P ρ i j extra held acts) (name : String)
    (superclass : Option Class) (hsuper : ∀ c, superclass = some c → .classObject c ∈ held)
    (htable : ∀ f ∈ table.values, i.store.arena.Captured f.closure ∧
      j.store.arena.Captured (ρ f.closure)) :
    Twin P ρ ({ i with store := (i.store.makeClass name superclass table).2 }.define name
        (.classObject (i.store.makeClass name superclass table).1))
      ({ j with store := (j.store.makeClass name (superclass.map (Class.rename ρ))
          (table.map (Function.rename ρ))).2 }.define name (.classObject (j.store.makeClass name
            (superclass.map (Class.rename ρ)) (table.map (Function.rename ρ))).1)) extra held acts := by
  obtain ⟨hclass, hstore⟩ := ht.store.makeClass name superclass (fun c hc =>
    ⟨ht.store.healthy.intact.supported _ (.held (hsuper c hc)),
      ht.store.shadow.intact.supported _ (.held (List.mem_map_of_mem (hsuper c hc)))⟩) htable
  rw [hclass]
  exact (ht.update hstore).define name

theorem contains_define {h : Handle} (hc : i.store.arena.contains h = true) (name : String)
    (v : Value) : (i.define name v).store.arena.contains h = true :=
  ((Store.alike_define i.store i.active name v).contains h).trans hc

/-- A class is made and bound to its name. -/
theorem declareClass (ht : Twin P ρ i j extra held acts) (hpins : Pinned held acts) (name : String)
    {superclass : Option Class} (hsuper : ∀ c, superclass = some c → .classObject c ∈ held)
    (methods : List FunctionDecl)
    (hP : superclass.isSome = true → P ((i.define name .nil).enter i.active).active
      ((j.define name .nil).enter j.active).active) :
    ∃ ρ' : Renaming, (∀ h, i.store.arena.contains h = true → ρ' h = ρ h) ∧
      Twin P ρ' (i.declareClass name superclass methods)
        (j.declareClass name (superclass.map (Class.rename ρ)) methods) extra held acts := by
  have hdefine := (ht.hold (v := .nil) rfl trivial trivial).define name
  change Twin P ρ (i.define name .nil) (j.define name .nil) extra held acts at hdefine
  unfold Interpreter.declareClass
  cases superclass with
  | none =>
    obtain ⟨htable, hclose, hcaptured⟩ :=
      hdefine.closeOverMethods Bindings.empty nofun methods
    have hbind := hclose.bindClass name none nofun hcaptured
    rw [← htable] at hbind
    exact ⟨ρ, fun _ _ => rfl, hbind⟩
  | some c =>
    obtain ⟨ρ', hagree, htable, hclose, hcaptured⟩ :=
      hdefine.closeOverDerived hpins (hsuper c rfl) methods (hP rfl)
    have hclass : c.rename ρ' = c.rename ρ :=
      Value.classObject.inj (hdefine.store.healthy.agree hagree (.held (hsuper c rfl)))
    have hbind := hclose.bindClass name (some c)
      (fun d hd => Option.some.inj hd ▸ hsuper c rfl) hcaptured
    rw [← htable, Option.map_some, hclass] at hbind
    exact ⟨ρ', fun h hc => hagree h (contains_define hc name .nil), hbind⟩

end Twin
end Interpreter
end Lox
