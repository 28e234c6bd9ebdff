import Lox.Proofs.Reclamation.Machine

/-!
# Twin steps

Both machines take the same branch of every step, since what is tested is the same for values that
correspond. One lemma for each kind of control.
-/
namespace Lox.Machine

variable {P : Handle → Handle → Prop} {ρ : Renaming} {i j : Interpreter} {stack : List Cont}
  {held : List Value} {v : Value}

theorem fits_of {value : Bool} (hf : Fits value stack) : ∀ b, some value = some b → Fits b stack := by
  rintro b ⟨⟩
  exact hf

/-- Nothing is said of what follows a failure. -/
theorem fits_of_none : ∀ b, none = some b → Fits b stack := nofun

theorem Setting.holdPlain (hs : Setting P ρ i j held stack) (hv : v.isPlain = true) :
    Setting P ρ i j (v :: held) stack :=
  hs.hold (Value.object?_of_isPlain hv) (Store.supports_of_isPlain hv)
    (Store.supports_of_isPlain ((Value.rename_of_isPlain ρ hv).symm ▸ hv))

theorem Twin.ofResult {result result' : Except RuntimeError Value} (line : Nat)
    (hs : Setting P ρ i j (ofResult line result).held stack)
    (hresult : result' = result.map (Value.rename ρ)) (hf : Fits true stack) :
    Twin P ρ ⟨Machine.ofResult line result, stack, i⟩
      ⟨Machine.ofResult line result', stack.map (Cont.rename ρ), j⟩ := by
  subst hresult
  cases result with
  | ok v => exact ⟨rfl, rfl, hs, fits_of hf⟩
  | error cause => exact ⟨rfl, rfl, hs, fits_of_none⟩

/-! ## Expressions and statements are taken apart -/

theorem twin_lookup (hs : Setting P ρ i j [] stack) (hf : Fits true stack) (ref : Reference) :
    Twin P ρ (evalStep (.variable ref) stack i) (evalStep (.variable ref) (stack.map (Cont.rename ρ)) j) := by
  unfold evalStep
  dsimp only
  rw [hs.twin.lookup?]
  cases hv : i.lookup? ref with
  | none => exact ⟨rfl, rfl, hs, fits_of_none⟩
  | some v => exact ⟨rfl, rfl, hs.retain (Interpreter.Twin.accessible_of_lookup? hv), fits_of hf⟩

theorem twin_super (hs : Setting P ρ i j [] stack) (hf : Fits true stack) (ref : Reference)
    (method : Ident)
    (hP : ∀ h g r, (h, r) ∈ i.createdBySuper ref method.text →
      (g, r) ∈ j.createdBySuper ref method.text → P h g) :
    ∃ ρ', Twin P ρ' (evalStep (.super ref method) stack i)
      (evalStep (.super ref method) (stack.map (Cont.rename ρ)) j) := by
  obtain ⟨ρ', hagree, hresult, htwin⟩ := hs.twin.superMethod hs.pinned ref method.text method.line hP
  refine ⟨ρ', ?_⟩
  rw [← hs.rename_stack hagree]
  unfold evalStep
  dsimp only
  rcases hi : i.superMethod ref method.text with ⟨result, i'⟩
  rcases hj : j.superMethod ref method.text with ⟨result', j'⟩
  rw [hi, hj] at htwin
  rw [hi, hj] at hresult
  dsimp only at hresult htwin
  subst hresult
  cases result with
  | ok v => exact ⟨rfl, rfl, ⟨htwin, hs.chained⟩, fits_of hf⟩
  | error cause =>
    cases cause with
    | undefinedProperty name => exact ⟨rfl, rfl, ⟨htwin, hs.chained⟩, fits_of_none⟩
    | _ => exact ⟨rfl, rfl, ⟨htwin, hs.chained⟩, fits_of_none⟩

theorem twin_evalStep (hs : Setting P ρ i j [] stack) (hf : Fits true stack) (e : Expr)
    (hP : ∀ h g r, (h, r) ∈ created ⟨.eval e, stack, i⟩ →
      (g, r) ∈ created ⟨.eval e, stack.map (Cont.rename ρ), j⟩ → P h g) :
    ∃ ρ', Twin P ρ' (evalStep e stack i) (evalStep e (stack.map (Cont.rename ρ)) j) := by
  cases e with
  | literal value =>
    have hplain := Value.isPlain_ofLiteral value
    exact ⟨ρ, congrArg Control.yield (Value.rename_of_isPlain ρ hplain).symm, rfl, hs.holdPlain hplain,
      fits_of hf⟩
  | grouping inner => exact ⟨ρ, rfl, rfl, hs, fits_of hf⟩
  | unary op line operand => exact ⟨ρ, rfl, rfl, ⟨hs.twin, hs.chained⟩, fits_of ⟨rfl, hf⟩⟩
  | binary op line left right => exact ⟨ρ, rfl, rfl, ⟨hs.twin, hs.chained⟩, fits_of ⟨rfl, hf⟩⟩
  | logical op line left right => exact ⟨ρ, rfl, rfl, ⟨hs.twin, hs.chained⟩, fits_of ⟨rfl, hf⟩⟩
  | «variable» ref => exact ⟨ρ, twin_lookup hs hf ref⟩
  | this ref => exact ⟨ρ, twin_lookup hs hf ref⟩
  | assign ref value => exact ⟨ρ, rfl, rfl, ⟨hs.twin, hs.chained⟩, fits_of ⟨rfl, hf⟩⟩
  | call callee line arguments => exact ⟨ρ, rfl, rfl, ⟨hs.twin, hs.chained⟩, fits_of ⟨rfl, hf⟩⟩
  | get object name => exact ⟨ρ, rfl, rfl, ⟨hs.twin, hs.chained⟩, fits_of ⟨rfl, hf⟩⟩
  | set object name value => exact ⟨ρ, rfl, rfl, ⟨hs.twin, hs.chained⟩, fits_of ⟨rfl, hf⟩⟩
  | super ref method => exact twin_super hs hf ref method hP

theorem contains_of_callee? (hs : Setting P ρ i j held stack) :
    ∀ f, callee? stack = some f → i.store.arena.contains f.closure = true := by
  intro f hf
  have hmem := List.mem_append_right held (mem_heldAll_of_callee? hf)
  exact (hs.twin.store.healthy.intact.supported _ (.held hmem)).contains _ List.mem_cons_self

theorem twin_block (hs : Setting P ρ i j [] stack) (hf : Fits false stack) (body : List Stmt)
    (hP : P (i.enter i.active).active (j.enter j.active).active) :
    ∃ ρ', Twin P ρ' (execStep (.block body) stack i)
      (execStep (.block body) (stack.map (Cont.rename ρ)) j) := by
  have himage := hs.twin.image
  rw [himage] at hP
  obtain ⟨ρ', hagree, henter⟩ := hs.twin.enter (callee? stack) hs.pinned
    hs.twin.contains_active (.inl rfl) (contains_of_callee? hs) hP
  have hactive := henter.image
  rw [← himage] at henter hactive
  have hprevious : ρ' i.active = j.active := (hagree _ hs.twin.contains_active).trans himage.symm
  refine ⟨ρ', rfl, ?_, ⟨henter, hs.twin.active, hs.chained⟩, fits_of ⟨rfl, rfl, hf⟩⟩
  change .sequence body :: .leave j.active (j.enter j.active).active :: stack.map (Cont.rename ρ) =
    .sequence body :: .leave (ρ' i.active) (ρ' (i.enter i.active).active) :: stack.map (Cont.rename ρ')
  rw [hs.rename_stack hagree, hactive, hprevious]

theorem twin_declareClass (hs : Setting P ρ i j held stack) (hf : Fits false stack) (name : String)
    (superclass : Option Class) (hsuper : ∀ c, superclass = some c → .classObject c ∈ held)
    (methods : List FunctionDecl)
    (hP : superclass.isSome = true → P ((i.define name .nil).enter i.active).active
      ((j.define name .nil).enter j.active).active) :
    ∃ ρ', Twin P ρ' ⟨.done, stack, i.declareClass name superclass methods⟩
      ⟨.done, stack.map (Cont.rename ρ), j.declareClass name (superclass.map (Class.rename ρ)) methods⟩ := by
  obtain ⟨ρ', hagree, htwin⟩ := hs.twin.declareClass hs.pinned name
    (fun c hc => List.mem_append_left _ (hsuper c hc)) methods hP
  refine ⟨ρ', rfl, (hs.rename_stack hagree).symm, ?_, fits_of hf⟩
  exact Setting.forget ⟨htwin, hs.chained⟩ (List.nil_sublist held)

theorem twin_execStep (hs : Setting P ρ i j [] stack) (hf : Fits false stack) (s : Stmt)
    (hP : ∀ h g r, (h, r) ∈ created ⟨.exec s, stack, i⟩ →
      (g, r) ∈ created ⟨.exec s, stack.map (Cont.rename ρ), j⟩ → P h g) :
    ∃ ρ', Twin P ρ' (execStep s stack i) (execStep s (stack.map (Cont.rename ρ)) j) := by
  cases s with
  | expression e => exact ⟨ρ, rfl, rfl, ⟨hs.twin, hs.chained⟩, fits_of ⟨rfl, hf⟩⟩
  | print e => exact ⟨ρ, rfl, rfl, ⟨hs.twin, hs.chained⟩, fits_of ⟨rfl, hf⟩⟩
  | var name initializer =>
    cases initializer with
    | none =>
      exact ⟨ρ, rfl, rfl, (hs.hold (v := .nil) rfl trivial trivial).define name.text, fits_of hf⟩
    | some e => exact ⟨ρ, rfl, rfl, ⟨hs.twin, hs.chained⟩, fits_of ⟨rfl, hf⟩⟩
  | block body => exact twin_block hs hf body (hP _ _ (.block body) List.mem_cons_self List.mem_cons_self)
  | branch condition yes no => exact ⟨ρ, rfl, rfl, ⟨hs.twin, hs.chained⟩, fits_of ⟨rfl, hf⟩⟩
  | loop condition body => exact ⟨ρ, rfl, rfl, ⟨hs.twin, hs.chained⟩, fits_of ⟨rfl, hf⟩⟩
  | function decl => exact ⟨ρ, rfl, rfl, ⟨hs.twin.declareFunction decl, hs.chained⟩, fits_of hf⟩
  | classDecl name superclass methods =>
    cases superclass with
    | none => exact twin_declareClass hs hf name.text none nofun methods nofun
    | some parent => exact ⟨ρ, rfl, rfl, ⟨hs.twin, hs.chained⟩, fits_of ⟨rfl, hf⟩⟩
  | ret line value =>
    cases value with
    | none => exact ⟨ρ, rfl, rfl, hs.hold (v := .nil) rfl trivial trivial, fits_of hf⟩
    | some e => exact ⟨ρ, rfl, rfl, ⟨hs.twin, hs.chained⟩, fits_of ⟨rfl, hf⟩⟩

/-! ## Calls -/

theorem twin_bindParams {acts : List Activation} (params : List Ident) {arguments : List Value}
    (ht : i.Twin P ρ j [] (arguments ++ held) acts) :
    Interpreter.Twin P ρ
      ((params.zip arguments).foldl (fun i (p, v) => i.define p.text v) i)
      ((params.zip (arguments.map (Value.rename ρ))).foldl (fun i (p, v) => i.define p.text v) j)
      [] held acts := by
  induction params generalizing i j arguments with
  | nil =>
    induction arguments with
    | nil => exact ht
    | cons v rest ih => exact ih ht.forget
  | cons p params ih =>
    cases arguments with
    | nil => exact ht
    | cons v rest => exact ih (ht.define p.text)

theorem twin_callFunction {f : Function} {arguments : List Value} (line : Nat)
    (hs : Setting P ρ i j (.function f :: arguments) stack) (hf : Fits true stack)
    (hP : ∀ h g r, (h, r) ∈ createdByCallFunction f i →
      (g, r) ∈ createdByCallFunction (f.rename ρ) j → P h g) :
    ∃ ρ', Twin P ρ' (callFunction line f arguments stack i)
      (callFunction line (f.rename ρ) (arguments.map (Value.rename ρ)) (stack.map (Cont.rename ρ)) j) := by
  have hcontains : i.store.arena.contains f.closure = true :=
    (hs.twin.store.healthy.intact.supported _ (.held List.mem_cons_self)).contains _ List.mem_cons_self
  have himage : j.store.arena.contains (f.rename ρ).closure = true := hs.twin.store.mirror.contains hcontains
  unfold createdByCallFunction at hP
  rw [if_pos hcontains, if_pos himage] at hP
  unfold callFunction
  rw [if_pos hcontains, if_pos himage]
  have hpins : Store.Pinned (.function f :: arguments ++ heldAll stack) (activations stack) := hs.pinned
  obtain ⟨ρ', hagree, henter⟩ := hs.twin.enter (some f) hpins hcontains (.inr ⟨f, rfl, rfl⟩)
    (by rintro g ⟨⟩; exact hcontains) (hP _ _ (.body f.decl) List.mem_cons_self List.mem_cons_self)
  have hfunction : f.rename ρ' = f.rename ρ := Function.rename_congr (hagree _ hcontains)
  have hprevious : ρ' i.active = j.active :=
    (hagree _ hs.twin.contains_active).trans hs.twin.image.symm
  have harguments : arguments.map (Value.rename ρ') = arguments.map (Value.rename ρ) :=
    List.map_congr_left fun v hv => hs.twin.store.healthy.agree hagree
      (.held (List.mem_append_left _ (List.mem_cons_of_mem _ hv)))
  have hperm : (.function f :: arguments ++ heldAll stack).Perm
      (arguments ++ (.function f :: heldAll stack)) := List.perm_middle.symm
  have hbind := twin_bindParams f.decl.params (henter.perm hperm)
  rw [harguments] at hbind
  dsimp only [Function.rename] at hbind ⊢
  generalize (f.decl.params.zip arguments).foldl _ (i.enter f.closure) = i' at hbind ⊢
  generalize (f.decl.params.zip (arguments.map (Value.rename ρ))).foldl _ (j.enter (ρ f.closure)) = j'
    at hbind ⊢
  have hactive : i'.active = (i.enter f.closure).active := hbind.active
  have hcurrent := hbind.image
  rw [← hactive] at hbind
  refine ⟨ρ', rfl, ?_, ⟨hbind, hs.twin.active, hs.chained⟩, fits_of ⟨rfl, rfl, rfl, hf⟩⟩
  change Cont.sequence f.decl.body :: .leave j.active j'.active :: .finish (f.rename ρ) ::
      stack.map (Cont.rename ρ) =
    .sequence f.decl.body :: .leave (ρ' i.active) (ρ' i'.active) :: .finish (f.rename ρ') ::
      stack.map (Cont.rename ρ')
  rw [hs.rename_stack hagree, hcurrent, hprevious, hfunction]

theorem perm_call {α : Type} (a b c : α) (l r : List α) :
    (a :: b :: c :: (l ++ r)).Perm (c :: a :: (l ++ b :: r)) := by
  have hfront : ([a, b] ++ c :: (l ++ r)).Perm (c :: ([a, b] ++ (l ++ r))) := List.perm_middle
  have hback : (b :: (l ++ r)).Perm (l ++ b :: r) := List.perm_middle.symm
  exact hfront.trans ((hback.cons a).cons c)

/-- An instance is made. -/
theorem Setting.allocateInstance {c : Class} (hs : Setting P ρ i j held stack)
    (hc : .classObject c ∈ held) :
    (j.store.allocate (.instance (c.rename ρ) Bindings.empty)).1 =
        (i.store.allocate (.instance c Bindings.empty)).1 ∧
      Setting P ρ { i with store := (i.store.allocate (.instance c Bindings.empty)).2 }
        { j with store := (j.store.allocate (.instance (c.rename ρ) Bindings.empty)).2 }
        (.instance (i.store.allocate (.instance c Bindings.empty)).1 :: held) stack := by
  have hvalues : ∀ w ∈ (Payload.instance c Bindings.empty).values,
      i.store.Accessible (held ++ heldAll stack) w ∨ w = .nil := by
    intro w hw
    cases List.mem_singleton.1 hw
    exact .inl (.held (List.mem_append_left _ hc))
  obtain ⟨hid, hstore⟩ := hs.twin.store.allocate (p := .instance c Bindings.empty)
    (v := .instance (i.store.allocate (.instance c Bindings.empty)).1)
    (fun _ => Nat.le_of_eq (Nat.zero_add _)) (List.Subset.refl _) rfl hvalues rfl (fun _ => trivial) rfl
  exact ⟨hid, hs.twin.update hstore, hs.chained⟩

/-- The initializer is bound to the new instance, and takes the place of the class. -/
theorem Setting.bindInitializer {c : Class} {id : ObjectId} {arguments : List Value} {method : Function}
    (hs : Setting P ρ i j (.instance id :: .classObject c :: arguments) stack)
    (hm : c.findMethod? initializerName = some method)
    (hP : P (i.store.bind method (.instance id)).1.closure
      (j.store.bind (method.rename ρ) (.instance id)).1.closure) :
    ∃ ρ' : Renaming, (∀ h, i.store.arena.contains h = true → ρ' h = ρ h) ∧
      (j.store.bind (method.rename ρ) (.instance id)).1 =
        (i.store.bind method (.instance id)).1.rename ρ' ∧
      Setting P ρ' { i with store := (i.store.bind method (.instance id)).2 }
        { j with store := (j.store.bind (method.rename ρ) (.instance id)).2 }
        (.function (i.store.bind method (.instance id)).1 :: arguments) (.construct id :: stack) := by
  obtain ⟨ρ', hagree, hbound, hbind⟩ := hs.twin.bind hs.pinned
    (.held (List.mem_cons_of_mem _ List.mem_cons_self)) hm (.held List.mem_cons_self) hP
  exact ⟨ρ', hagree, hbound, (hbind.perm (perm_call _ _ _ arguments (heldAll stack))).forget, hs.chained⟩

theorem twin_instantiate {c : Class} {arguments : List Value} (line : Nat)
    (hs : Setting P ρ i j (.classObject c :: arguments) stack) (hf : Fits true stack)
    (hP : ∀ h g r, (h, r) ∈ createdByInstantiate c i →
      (g, r) ∈ createdByInstantiate (c.rename ρ) j → P h g) :
    ∃ ρ', Twin P ρ' (instantiate line c arguments stack i)
      (instantiate line (c.rename ρ) (arguments.map (Value.rename ρ)) (stack.map (Cont.rename ρ)) j) := by
  obtain ⟨hid, halloc⟩ := hs.allocateInstance List.mem_cons_self
  unfold createdByInstantiate at hP
  unfold instantiate
  rcases hi : i.store.allocate (.instance c Bindings.empty) with ⟨id, s⟩
  rcases hj : j.store.allocate (.instance (c.rename ρ) Bindings.empty) with ⟨id', u⟩
  rw [hi, hj] at hP hid halloc
  dsimp only at hP hid halloc ⊢
  subst hid
  rw [Class.findMethod?_rename] at hP ⊢
  cases hm : c.findMethod? initializerName with
  | none =>
    exact ⟨ρ, rfl, rfl, halloc.forget ((List.nil_sublist _).cons_cons _), fits_of hf⟩
  | some method =>
    rw [hm] at hP
    dsimp only [Option.map_some] at hP ⊢
    obtain ⟨ρ₁, hagree, hbound, hcall⟩ := halloc.bindInitializer hm
      (hP _ _ (.receiver method.decl) List.mem_cons_self List.mem_cons_self)
    obtain ⟨ρ₂, htwin⟩ := twin_callFunction line hcall ⟨rfl, hf⟩ fun h g r hh hg =>
      hP h g r (List.mem_cons_of_mem _ hh) (List.mem_cons_of_mem _ (by rw [hbound]; exact hg))
    have harguments : arguments.map (Value.rename ρ₁) = arguments.map (Value.rename ρ) :=
      List.map_congr_left fun v hv => halloc.twin.store.healthy.agree hagree
        (.held (List.mem_append_left _ (List.mem_cons_of_mem _ (List.mem_cons_of_mem _ hv))))
    refine ⟨ρ₂, ?_⟩
    rw [hbound, ← harguments, ← halloc.rename_stack hagree]
    exact htwin

theorem mem_setting {w : Value} (hw : w ∈ held) : i.store.Accessible (held ++ heldAll stack) w :=
  .held (List.mem_append_left _ hw)

theorem twin_callArrayMethod {id : ObjectId} {method : ArrayMethod} {arguments : List Value}
    (hs : Setting P ρ i j (.arrayMethod id method :: arguments) stack) :
    (callArrayMethod id method (arguments.map (Value.rename ρ)) j).1 =
        (callArrayMethod id method arguments i).1.rename ρ ∧
      Setting P ρ (callArrayMethod id method arguments i).2
        (callArrayMethod id method (arguments.map (Value.rename ρ)) j).2
        ((callArrayMethod id method arguments i).1 :: .arrayMethod id method :: arguments) stack := by
  have hobject : i.store.Accessible (.arrayMethod id method :: arguments ++ heldAll stack)
      (.arrayMethod id method) := .held List.mem_cons_self
  have hnil : Setting P ρ i j (.nil :: .arrayMethod id method :: arguments) stack :=
    hs.hold rfl trivial trivial
  cases method with
  | get =>
    cases arguments with
    | nil => exact ⟨rfl, hnil⟩
    | cons index rest =>
      simp only [callArrayMethod, List.map_cons]
      rw [hs.twin.store.element hobject rfl index]
      refine ⟨rfl, ?_⟩
      obtain helement | helement := Store.element_cases hobject rfl index
      · exact hs.retain helement
      · rw [helement]
        exact hnil
  | set =>
    cases arguments with
    | nil => exact ⟨rfl, hnil⟩
    | cons index rest =>
      cases rest with
      | nil => exact ⟨rfl, hnil⟩
      | cons v rest =>
        have hv : i.store.Accessible (.arrayMethod id .set :: index :: v :: rest ++ heldAll stack) v :=
          .held (List.mem_cons_of_mem _ (List.mem_cons_of_mem _ List.mem_cons_self))
        have hresult := (hs.twin.store.healthy.setElement hobject rfl hv index).2
        obtain ⟨hvalue, hstore⟩ := hs.twin.store.setElement hobject rfl hv index
        have hset : Setting P ρ { i with store := (i.store.setElement id index v).2 }
            { j with store := (j.store.setElement id (index.rename ρ) (v.rename ρ)).2 }
            (.arrayMethod id .set :: index :: v :: rest) stack := ⟨hs.twin.update hstore, hs.chained⟩
        simp only [callArrayMethod, List.map_cons]
        rw [hvalue]
        refine ⟨rfl, ?_⟩
        obtain hresult | hresult := hresult
        · rw [hresult]
          exact hset.retain (.held (List.mem_cons_of_mem _ (List.mem_cons_of_mem _ List.mem_cons_self)))
        · rw [hresult]
          exact hset.hold (v := .nil) rfl trivial trivial

/-- A call gives up what it was given. -/
theorem Setting.giveUp {callee : Value} {arguments rest : List Value}
    (hs : Setting P ρ i j (callee :: arguments ++ rest) stack) :
    Setting P ρ ((i.discardAll arguments).discard callee)
      ((j.discardAll (arguments.map (Value.rename ρ))).discard (callee.rename ρ)) rest stack :=
  (hs.perm List.perm_middle.symm).discardAll.discard

theorem twin_call {callee : Value} {arguments : List Value} (line : Nat)
    (hs : Setting P ρ i j (callee :: arguments) stack) (hf : Fits true stack)
    (hP : ∀ h g r, (h, r) ∈ createdByCall callee arguments i →
      (g, r) ∈ createdByCall (callee.rename ρ) (arguments.map (Value.rename ρ)) j → P h g) :
    ∃ ρ', Twin P ρ' (call line callee arguments stack i)
      (call line (callee.rename ρ) (arguments.map (Value.rename ρ)) (stack.map (Cont.rename ρ)) j) := by
  have hrefuse := (hs.perm (.of_eq (List.append_nil _).symm)).giveUp
  unfold createdByCall at hP
  unfold call
  rw [Value.arity?_rename, List.length_map] at *
  cases ha : callee.arity? with
  | none => exact ⟨ρ, rfl, rfl, hrefuse, fits_of_none⟩
  | some arity =>
    dsimp only
    by_cases hlength : arguments.length = arity
    · rw [if_pos hlength, if_pos hlength]
      rw [ha, hlength, if_pos rfl, if_pos rfl] at hP
      cases callee with
      | native n =>
        have hmem : ∀ v ∈ arguments, i.store.Accessible (.native n :: arguments ++ heldAll stack) v :=
          fun v hv => mem_setting (List.mem_cons_of_mem _ hv)
        obtain ⟨hresult, htwin⟩ := hs.twin.callNative n hmem
        dsimp only [Value.rename]
        rcases hi : i.callNative n arguments with ⟨result, i'⟩
        rcases hj : j.callNative n (arguments.map (Value.rename ρ)) with ⟨result', j'⟩
        rw [hi, hj] at hresult htwin
        dsimp only at hresult htwin
        subst hresult
        cases result with
        | value v =>
          have hreturn : Setting P ρ i' j' (v :: .native n :: arguments) stack := ⟨htwin, hs.chained⟩
          exact ⟨ρ, rfl, rfl, (hreturn.perm (List.perm_append_singleton _ _).symm).giveUp, fits_of hf⟩
        | error cause =>
          have hreturn : Setting P ρ i' j' (.native n :: arguments) stack := ⟨htwin, hs.chained⟩
          exact ⟨ρ, rfl, rfl, (hreturn.perm (.of_eq (List.append_nil _).symm)).giveUp, fits_of_none⟩
        | crash =>
          have hreturn : Setting P ρ i' j' (.native n :: arguments) stack := ⟨htwin, hs.chained⟩
          exact ⟨ρ, rfl, rfl, hreturn.forget (List.nil_sublist _), fits_of_none⟩
      | function f => exact twin_callFunction line hs hf hP
      | classObject c => exact twin_instantiate line hs hf hP
      | arrayMethod id method =>
        obtain ⟨hvalue, hcall⟩ := twin_callArrayMethod hs
        dsimp only [Value.rename]
        rw [hvalue]
        exact ⟨ρ, rfl, rfl, (hcall.perm (List.perm_append_singleton _ _).symm).giveUp, fits_of hf⟩
      | _ => exact ⟨ρ, rfl, rfl, hrefuse, fits_of_none⟩
    · rw [if_neg hlength, if_neg hlength]
      exact ⟨ρ, rfl, rfl, hrefuse, fits_of_none⟩

/-- The call is over, whatever its body ended with. -/
theorem twin_finishCall {f : Function} (hs : Setting P ρ i j [v] (.finish f :: stack))
    (hf : Fits true stack) :
    Twin P ρ (finishCall f v stack i)
      (finishCall (f.rename ρ) (v.rename ρ) (stack.map (Cont.rename ρ)) j) := by
  have hstart : Setting P ρ i j [v, .function f] stack := ⟨hs.twin, hs.chained⟩
  suffices h : (callResult (f.rename ρ) (v.rename ρ) j).1 = (callResult f v i).1.rename ρ ∧
      Setting P ρ (callResult f v i).2 (callResult (f.rename ρ) (v.rename ρ) j).2
        [(callResult f v i).1, .function f] stack by
    obtain ⟨hvalue, hresult⟩ := h
    have hover := ((hresult.perm (List.Perm.swap _ _ _)).discard).drain
    unfold finishCall
    dsimp only
    rw [hvalue]
    exact ⟨rfl, rfl, hover, fits_of hf⟩
  have hcontains : i.store.arena.contains f.closure = true :=
    (hstart.twin.store.healthy.intact.supported _ (mem_setting (List.mem_cons_of_mem _ List.mem_cons_self))).contains
      _ List.mem_cons_self
  have hfind : j.store.arena.find? (f.rename ρ).closure "this" = _ := hs.twin.store.mirror.find? hcontains "this"
  have hthis : (j.store.arena.find? (f.rename ρ).closure "this").getD .nil =
      ((i.store.arena.find? f.closure "this").getD .nil).rename ρ := by
    rw [hfind]
    cases i.store.arena.find? f.closure "this" <;> rfl
  have hretain : Setting P ρ (i.retain ((i.store.arena.find? f.closure "this").getD .nil))
      (j.retain (((i.store.arena.find? f.closure "this").getD .nil).rename ρ))
      [(i.store.arena.find? f.closure "this").getD .nil, v, .function f] stack := by
    cases ht : i.store.arena.find? f.closure "this" with
    | none => exact hstart.hold (v := .nil) rfl trivial trivial
    | some this => exact hstart.retain (.of_find? ht)
  have hsame : (f.rename ρ).isInitializer = f.isInitializer := rfl
  unfold callResult
  rw [hthis, hsame]
  by_cases hinit : f.isInitializer = true
  · rw [if_pos hinit, if_pos hinit]
    exact ⟨rfl, (hretain.perm (List.Perm.swap _ _ _)).discard⟩
  · rw [if_neg hinit, if_neg hinit]
    exact ⟨rfl, hstart⟩

/-! ## Results are handed on -/

theorem Setting.holdResult {result : Except RuntimeError Value} (line : Nat)
    (hs : Setting P ρ i j [] stack) (hplain : ∀ w, result = .ok w → w.isPlain = true) :
    Setting P ρ i j (Machine.ofResult line result).held stack := by
  cases result with
  | ok w => exact hs.holdPlain (hplain w rfl)
  | error cause => exact hs

/-- The innermost continuation goes on, and what it held is held by itself from now on. -/
theorem Setting.uncover {k : Cont} (hs : Setting P ρ i j held (k :: stack))
    (htakes : k.takesValue = true) : Setting P ρ i j (held ++ k.held) stack := by
  have htwin := hs.twin
  have hchained := hs.chained
  rw [heldAll, List.flatMap_cons, ← List.append_assoc] at htwin
  cases k with
  | round | sequence | leave | finish => cases htakes
  | _ => exact ⟨htwin, hchained⟩

theorem twin_logical (hs : Setting P ρ i j [v] stack) (hf : Fits true stack) (op : LogicalOp)
    (right : Expr) :
    Twin P ρ (yieldStep v (.logical op right) stack i)
      (yieldStep (v.rename ρ) (.logical op right) (stack.map (Cont.rename ρ)) j) := by
  unfold yieldStep
  dsimp only
  rw [Value.isTruthy_rename]
  by_cases hdecided : (v.isTruthy == (op == .or)) = true
  · rw [if_pos hdecided, if_pos hdecided]
    exact ⟨rfl, rfl, hs, fits_of hf⟩
  · rw [if_neg hdecided, if_neg hdecided]
    exact ⟨rfl, rfl, hs.discard, fits_of hf⟩

theorem twin_branch (hs : Setting P ρ i j [v] stack) (hf : Fits false stack) (yes : Stmt)
    (no : Option Stmt) :
    Twin P ρ (yieldStep v (.branch yes no) stack i)
      (yieldStep (v.rename ρ) (.branch yes no) (stack.map (Cont.rename ρ)) j) := by
  unfold yieldStep
  dsimp only
  rw [Value.isTruthy_rename]
  by_cases htrue : v.isTruthy = true
  · rw [if_pos htrue, if_pos htrue]
    exact ⟨rfl, rfl, hs.discard, fits_of hf⟩
  · rw [if_neg htrue, if_neg htrue]
    cases no with
    | none => exact ⟨rfl, rfl, hs.discard, fits_of hf⟩
    | some no => exact ⟨rfl, rfl, hs.discard, fits_of hf⟩

theorem twin_test (hs : Setting P ρ i j [v] stack) (hf : Fits false stack) (condition : Expr)
    (body : Stmt) :
    Twin P ρ (yieldStep v (.test condition body) stack i)
      (yieldStep (v.rename ρ) (.test condition body) (stack.map (Cont.rename ρ)) j) := by
  unfold yieldStep
  dsimp only
  rw [Value.isTruthy_rename]
  by_cases htrue : v.isTruthy = true
  · rw [if_pos htrue, if_pos htrue]
    exact ⟨rfl, rfl, ⟨hs.discard.twin, hs.chained⟩, fits_of ⟨rfl, hf⟩⟩
  · rw [if_neg htrue, if_neg htrue]
    exact ⟨rfl, rfl, hs.discard, fits_of hf⟩

theorem twin_assign (hs : Setting P ρ i j [v] stack) (hf : Fits true stack) (ref : Reference) :
    Twin P ρ (yieldStep v (.assign ref) stack i)
      (yieldStep (v.rename ρ) (.assign ref) (stack.map (Cont.rename ρ)) j) := by
  obtain ⟨hfound, hassign⟩ := (hs.retain (mem_setting List.mem_cons_self)).twin.assign ref
  unfold yieldStep
  dsimp only
  rcases hi : (i.retain v).assign ref v with ⟨found, i'⟩
  rcases hj : (j.retain (v.rename ρ)).assign ref (v.rename ρ) with ⟨found', j'⟩
  rw [hi, hj] at hfound hassign
  dsimp only at hfound hassign
  subst hfound
  have hafter : Setting P ρ i' j' [v] stack := ⟨hassign, hs.chained⟩
  cases found' with
  | true => exact ⟨rfl, rfl, hafter, fits_of hf⟩
  | false => exact ⟨rfl, rfl, hafter.discard, fits_of_none⟩

/-- One more argument is ready. After the last one the call is made. -/
theorem twin_argument {callee : Value} {ready : List Value} (line : Nat) (rest : List Expr)
    (hs : Setting P ρ i j (v :: callee :: ready) stack) (hf : Fits true stack)
    (hP : ∀ h g r, (h, r) ∈ created ⟨.yield v, .argument line callee ready rest :: stack, i⟩ →
      (g, r) ∈ created ⟨.yield (v.rename ρ), (Cont.argument line callee ready rest).rename ρ ::
        stack.map (Cont.rename ρ), j⟩ → P h g) :
    ∃ ρ', Twin P ρ' (yieldStep v (.argument line callee ready rest) stack i)
      (yieldStep (v.rename ρ) ((Cont.argument line callee ready rest).rename ρ)
        (stack.map (Cont.rename ρ)) j) := by
  have hready := hs.perm ((List.Perm.swap _ _ _).trans
    ((List.perm_append_singleton v ready).symm.cons callee))
  have hmap : (ready ++ [v]).map (Value.rename ρ) = ready.map (Value.rename ρ) ++ [v.rename ρ] :=
    List.map_append
  cases rest with
  | nil =>
    have hcall := twin_call line hready hf
    rw [hmap] at hcall
    exact hcall hP
  | cons e rest =>
    refine ⟨ρ, rfl, ?_, ⟨hready.twin, hs.chained⟩, fits_of ⟨rfl, hf⟩⟩
    exact congrArg (fun vs => Cont.argument line (callee.rename ρ) vs rest :: stack.map (Cont.rename ρ))
      hmap.symm

/-- A method that is read off an object gets a frame of its own. -/
theorem twin_get (hs : Setting P ρ i j [v] stack) (hf : Fits true stack) (name : Ident)
    (hP : ∀ h g r, (h, r) ∈ created ⟨.yield v, .get name :: stack, i⟩ →
      (g, r) ∈ created ⟨.yield (v.rename ρ), .get name :: stack.map (Cont.rename ρ), j⟩ → P h g) :
    ∃ ρ', Twin P ρ' (yieldStep v (.get name) stack i)
      (yieldStep (v.rename ρ) (.get name) (stack.map (Cont.rename ρ)) j) := by
  obtain ⟨ρ', hagree, hresult, hproperty⟩ := hs.twin.property hs.pinned
    (mem_setting List.mem_cons_self) name.text name.line hP
  have hv : v.rename ρ' = v.rename ρ :=
    hs.twin.store.healthy.agree hagree (mem_setting List.mem_cons_self)
  have hbehind : Setting P ρ' (i.property v name.text).2 (j.property (v.rename ρ) name.text).2
      ((ofResult name.line (i.property v name.text).1).held ++ [v]) stack := by
    refine ⟨?_, hs.chained⟩
    rw [List.append_assoc]
    exact hproperty
  have hdiscard := (hbehind.perm (List.perm_append_singleton _ _)).discard
  rw [hv] at hdiscard
  have hgive := Twin.ofResult name.line hdiscard hresult hf
  rw [hs.rename_stack hagree] at hgive
  exact ⟨ρ', hgive⟩

theorem twin_field {receiver : ObjectId} (hs : Setting P ρ i j [v, .instance receiver] stack)
    (hf : Fits true stack) (name : Ident) :
    Twin P ρ (yieldStep v (.field receiver name) stack i)
      (yieldStep (v.rename ρ) (.field receiver name) (stack.map (Cont.rename ρ)) j) := by
  have hretain := hs.retain (mem_setting List.mem_cons_self)
  have hset : Setting P ρ { i with store := (i.store.retain v).setField receiver name.text v }
      { j with store := (j.store.retain (v.rename ρ)).setField receiver name.text (v.rename ρ) }
      [v, .instance receiver] stack :=
    ⟨hs.twin.update (hretain.twin.store.setField
      (mem_setting (List.mem_cons_of_mem _ (List.mem_cons_of_mem _ List.mem_cons_self))) name.text),
      hs.chained⟩
  exact ⟨rfl, rfl, (hset.perm (List.Perm.swap _ _ _)).discard, fits_of hf⟩

theorem twin_print (hs : Setting P ρ i j [v] stack) (hf : Fits false stack) :
    Twin P ρ (yieldStep v .print stack i)
      (yieldStep (v.rename ρ) .print (stack.map (Cont.rename ρ)) j) := by
  obtain ⟨hresult, hwrite⟩ := hs.twin.writeLine (mem_setting List.mem_cons_self)
  unfold yieldStep
  dsimp only
  rcases hi : i.writeLine v with ⟨cause, i'⟩
  rcases hj : j.writeLine (v.rename ρ) with ⟨cause', j'⟩
  rw [hi, hj] at hresult hwrite
  dsimp only at hresult hwrite
  subst hresult
  have hafter : Setting P ρ i' j' [v] stack := ⟨hwrite, hs.chained⟩
  cases cause' with
  | none => exact ⟨rfl, rfl, hafter.discard, fits_of hf⟩
  | some cause => exact ⟨rfl, rfl, hafter.discard, fits_of_none⟩

/-- A value is handed to the innermost continuation. -/
theorem twin_yieldStep {k : Cont} (hs : Setting P ρ i j [v] (k :: stack))
    (hf : Fits true (k :: stack))
    (hP : ∀ h g r, (h, r) ∈ created ⟨.yield v, k :: stack, i⟩ →
      (g, r) ∈ created ⟨.yield (v.rename ρ), k.rename ρ :: stack.map (Cont.rename ρ), j⟩ → P h g) :
    ∃ ρ', Twin P ρ' (yieldStep v k stack i)
      (yieldStep (v.rename ρ) (k.rename ρ) (stack.map (Cont.rename ρ)) j) := by
  obtain ⟨htakes, hf⟩ := hf
  have hall := hs.uncover htakes
  cases k with
  | unary op line =>
    refine ⟨ρ, .ofResult line ?_ (UnaryOp.apply_rename ρ op v) hf⟩
    exact hall.discard.holdResult line fun w => UnaryOp.isPlain_of_apply
  | left op line right => exact ⟨ρ, rfl, rfl, ⟨hs.twin, hs.chained⟩, fits_of ⟨rfl, hf⟩⟩
  | right op line left =>
    refine ⟨ρ, .ofResult line ?_ (BinaryOp.apply_rename ρ op left v) hf⟩
    exact (hall.perm (List.Perm.swap _ _ _)).discard.discard.holdResult line
      fun w => BinaryOp.isPlain_of_apply
  | logical op right => exact ⟨ρ, twin_logical hall hf op right⟩
  | assign ref => exact ⟨ρ, twin_assign hall hf ref⟩
  | callee line arguments =>
    cases arguments with
    | nil => exact twin_call line hall hf hP
    | cons e rest => exact ⟨ρ, rfl, rfl, ⟨hs.twin, hs.chained⟩, fits_of ⟨rfl, hf⟩⟩
  | argument line callee ready rest => exact twin_argument line rest hall hf hP
  | get name => exact twin_get hall hf name hP
  | target name value =>
    cases v with
    | «instance» id => exact ⟨ρ, rfl, rfl, ⟨hs.twin, hs.chained⟩, fits_of ⟨rfl, hf⟩⟩
    | _ => exact ⟨ρ, rfl, rfl, hall.discard, fits_of_none⟩
  | field receiver name => exact ⟨ρ, twin_field hall hf name⟩
  | drop => exact ⟨ρ, rfl, rfl, hall.discard, fits_of hf⟩
  | print => exact ⟨ρ, twin_print hall hf⟩
  | define name => exact ⟨ρ, rfl, rfl, hall.define name.text, fits_of hf⟩
  | branch yes no => exact ⟨ρ, twin_branch hall hf yes no⟩
  | test condition body => exact ⟨ρ, twin_test hall hf condition body⟩
  | result => exact ⟨ρ, rfl, rfl, hall, fits_of hf⟩
  | superclass name parent methods =>
    cases v with
    | classObject c =>
      refine twin_declareClass hall hf name.text (some c) (fun d hd => ?_) methods fun _ =>
        hP _ _ (.heritage methods) List.mem_cons_self List.mem_cons_self
      cases hd
      exact List.mem_cons_self
    | _ => exact ⟨ρ, rfl, rfl, hall.discard, fits_of_none⟩
  | construct receiver => exact ⟨ρ, rfl, rfl, hall.discard, fits_of hf⟩
  | round | sequence | leave | finish => cases htakes

/-- A statement has ended. -/
theorem twin_doneStep {k : Cont} (hs : Setting P ρ i j [] (k :: stack))
    (hf : Fits false (k :: stack)) :
    Twin P ρ (doneStep k stack i) (doneStep (k.rename ρ) (stack.map (Cont.rename ρ)) j) := by
  obtain ⟨htakes, hf⟩ := hf
  cases k with
  | sequence rest =>
    cases rest with
    | nil => exact ⟨rfl, rfl, ⟨hs.twin, hs.chained⟩, fits_of hf⟩
    | cons s rest => exact ⟨rfl, rfl, ⟨hs.twin, hs.chained⟩, fits_of ⟨rfl, hf⟩⟩
  | round condition body => exact ⟨rfl, rfl, ⟨hs.twin, hs.chained⟩, fits_of ⟨rfl, hf⟩⟩
  | leave previous frame => exact ⟨rfl, rfl, hs.leave, fits_of hf⟩
  | finish f => exact twin_finishCall (v := .nil) (hs.holdPlain rfl) hf
  | _ => cases htakes

/-- A `return` is on its way. -/
theorem twin_returnStep {k : Cont} (hs : Setting P ρ i j [v] (k :: stack))
    (hf : Fits false (k :: stack)) :
    Twin P ρ (returnStep v k stack i)
      (returnStep (v.rename ρ) (k.rename ρ) (stack.map (Cont.rename ρ)) j) := by
  obtain ⟨htakes, hf⟩ := hf
  cases k with
  | sequence rest => exact ⟨rfl, rfl, ⟨hs.twin, hs.chained⟩, fits_of hf⟩
  | round condition body => exact ⟨rfl, rfl, ⟨hs.twin, hs.chained⟩, fits_of hf⟩
  | leave previous frame => exact ⟨rfl, rfl, hs.leave, fits_of hf⟩
  | finish f => exact twin_finishCall hs hf
  | _ => cases htakes

/-- A failure is on its way out. -/
theorem twin_failStep {k : Cont} (failure : Failure) (hs : Setting P ρ i j [] (k :: stack)) :
    Twin P ρ (failStep failure k stack i)
      (failStep failure (k.rename ρ) (stack.map (Cont.rename ρ)) j) := by
  cases k with
  | right op line left => exact ⟨rfl, rfl, Setting.discard ⟨hs.twin, hs.chained⟩, fits_of_none⟩
  | argument line callee ready rest =>
    have hall : Setting P ρ i j (callee :: ready) stack := ⟨hs.twin, hs.chained⟩
    exact ⟨rfl, rfl, (hall.perm (.of_eq (List.append_nil _).symm)).giveUp, fits_of_none⟩
  | field receiver name => exact ⟨rfl, rfl, Setting.discard ⟨hs.twin, hs.chained⟩, fits_of_none⟩
  | construct receiver => exact ⟨rfl, rfl, Setting.discard ⟨hs.twin, hs.chained⟩, fits_of_none⟩
  | leave previous frame => exact ⟨rfl, rfl, hs.leave, fits_of_none⟩
  | finish f => exact ⟨rfl, rfl, (Setting.discard ⟨hs.twin, hs.chained⟩).drain, fits_of_none⟩
  | _ => exact ⟨rfl, rfl, ⟨hs.twin, hs.chained⟩, fits_of_none⟩

/-- One step of both machines. -/
theorem Twin.step {m n : Machine} (ht : Twin P ρ m n)
    (hP : ∀ h g r, (h, r) ∈ m.created → (g, r) ∈ n.created → P h g) :
    ∃ ρ', Twin P ρ' m.step n.step := by
  obtain ⟨control, stack, i⟩ := m
  obtain ⟨control', stack', j⟩ := n
  obtain ⟨hcontrol, hstack, hs, hf⟩ := ht
  dsimp only at hcontrol hstack
  subst hcontrol hstack
  cases control with
  | eval e => exact twin_evalStep hs (hf true rfl) e hP
  | exec s => exact twin_execStep hs (hf false rfl) s hP
  | yield v =>
    cases stack with
    | nil => exact ⟨ρ, rfl, rfl, hs, hf⟩
    | cons k stack => exact twin_yieldStep hs (hf true rfl) hP
  | done =>
    cases stack with
    | nil => exact ⟨ρ, rfl, rfl, hs, hf⟩
    | cons k stack => exact ⟨ρ, twin_doneStep hs (hf false rfl)⟩
  | returning v =>
    cases stack with
    | nil => exact ⟨ρ, rfl, rfl, hs, hf⟩
    | cons k stack => exact ⟨ρ, twin_returnStep hs (hf false rfl)⟩
  | failed failure =>
    cases stack with
    | nil => exact ⟨ρ, rfl, rfl, hs, hf⟩
    | cons k stack => exact ⟨ρ, twin_failStep failure hs⟩
  | crashed => exact ⟨ρ, rfl, rfl, hs, hf⟩

end Lox.Machine
