import Lox.Proofs.Scoping.Operations

/-!
# Steps stay in place

Every step leaves all code where it is fit for. A frame that is entered stands where the code that is
executed in it is, and when a frame is left the code goes on where it stood before.
-/
namespace Lox

open Surrounding (declare)
open Arena (Grows)

theorem FunctionDecl.fits_eq (P : List Surrounding → Reference → Prop) (around : List Surrounding)
    (decl : FunctionDecl) :
    decl.Fits P around = ((∀ param ∈ decl.params, param.Plain) ∧
      Stmt.FitsAll P (⟨.body decl, decl.params.map Ident.text⟩ :: around) decl.body) := by
  cases decl
  rfl

namespace Machine

variable {P : List Surrounding → Reference → Prop} {W W' : Standing} {past later : Past}
  {i : Interpreter} {stack : List Cont} {around : List Surrounding} {v : Value}
  {e : Expr} {s : Stmt} {line : Nat}

/-- The stack can go on in the active frame. -/
structure Ready (P : List Surrounding → Reference → Prop) (W : Standing)
    (i : Interpreter) (around : List Surrounding) (stack : List Cont) : Prop where
  active : W.frame i.active around
  goes : Continues P W i.active around stack
  held : ∀ v ∈ heldAll stack, v.Placed P W
  store : i.store.Each (Value.Placed P W)

namespace Ready

theorem mono (h : Ready P W i around stack) (hW : W.Within W') : Ready P W' i around stack :=
  ⟨hW.frame _ _ h.active, h.goes.mono hW, fun v hv => (h.held v hv).mono hW,
    h.store.mono fun _ hv => hv.mono hW⟩

variable (h : Ready P W i around stack)

include h

/-! ### Changes of the store that leave frames alone -/

theorem retain (v : Value) : Ready P W (i.retain v) around stack :=
  ⟨h.active, h.goes, h.held, h.store.retain v⟩

theorem discard (v : Value) : Ready P W (i.discard v) around stack :=
  ⟨h.active, h.goes, h.held, h.store.discard v⟩

theorem discardAll (values : List Value) : Ready P W (i.discardAll values) around stack :=
  ⟨h.active, h.goes, h.held, h.store.discardAll values⟩

theorem drain : Ready P W i.drain around stack := ⟨h.active, h.goes, h.held, h.store.drain⟩

theorem assign {ref : Reference} (hplain : ref.name.Plain) (hv : v.Placed P W) :
    Ready P W (i.assign ref v).2 around stack := by
  have hsuits := Value.suits_of_plain hplain v
  unfold Interpreter.assign
  split
  · exact ⟨h.active, h.goes, h.held, h.store.assignAt _ _ hv hsuits⟩
  · exact ⟨h.active, h.goes, h.held, h.store.assign _ hv hsuits⟩

theorem writeLine (v : Value) : Ready P W (i.writeLine v).2 around stack :=
  ⟨h.active, h.goes, h.held, h.store⟩

/-! ### What can be done next -/

theorem eval (he : e.Fits (P around)) : Placed P W ⟨.eval e, stack, i⟩ :=
  ⟨⟨around, h.active, he, h.goes⟩, h.held, h.store⟩

theorem exec (hs : s.Fits P around) (hnone : s.declared = []) : Placed P W ⟨.exec s, stack, i⟩ := by
  refine ⟨⟨around, h.active, hs, ?_⟩, h.held, h.store⟩
  rw [hnone, Surrounding.declare_nil]
  exact h.goes

theorem yield (hv : v.Placed P W) : Placed P W ⟨.yield v, stack, i⟩ :=
  ⟨⟨around, h.active, h.goes⟩, List.forall_mem_cons.2 ⟨hv, h.held⟩, h.store⟩

theorem done : Placed P W ⟨.done, stack, i⟩ := ⟨⟨around, h.active, h.goes⟩, h.held, h.store⟩

theorem returning (hv : v.Placed P W) : Placed P W ⟨.returning v, stack, i⟩ :=
  ⟨⟨around, h.goes⟩, List.forall_mem_cons.2 ⟨hv, h.held⟩, h.store⟩

theorem failed (failure : Failure) : Placed P W ⟨.failed failure, stack, i⟩ :=
  ⟨trivial, h.held, h.store⟩

theorem ofResult {result : Except RuntimeError Value} (hv : ∀ v, result = .ok v → v.Placed P W) :
    Placed P W ⟨ofResult line result, stack, i⟩ := by
  cases result with
  | ok v => exact h.yield (hv v rfl)
  | error cause => exact h.failed _

/-- The same with one more continuation to come. -/
theorem push (k : Cont) (hk : Continues P W i.active around (k :: stack))
    (hheld : ∀ v ∈ k.held, v.Placed P W) : Ready P W i around (k :: stack) :=
  ⟨h.active, hk, List.forall_mem_append.2 ⟨hheld, h.held⟩, h.store⟩

end Ready

/-! ## Expressions are taken apart -/

variable (hr : i.store.arena.Recycles) (hpast : past.Within later)

include hr hpast

theorem placed_evalStep (he : e.Fits (P around)) (h : Ready P (past.standing i.store.arena) i around stack)
    (hnew : opened ⟨.eval e, stack, i⟩ ⊆ later.openings)
    (hW : (later.standing (evalStep e stack i).state.store.arena).Within W) :
    Placed P W (evalStep e stack i) := by
  have hready : Ready P W i around stack :=
    h.mono ((Past.standing_within (grows_evalStep (B := fun _ _ => True) hr e) hpast).trans hW)
  cases e with
  | literal value => exact hready.yield (Value.placed_of_isPlain (Value.isPlain_ofLiteral value))
  | grouping inner => exact hready.eval he
  | unary op line operand => exact (hready.push (.unary op line) ⟨trivial, hready.goes⟩ nofun).eval he
  | binary op line left right =>
    exact (hready.push (.left op line right) ⟨he.2, hready.goes⟩ nofun).eval he.1
  | logical op line left right => exact (hready.push (.logical op right) ⟨he.2, hready.goes⟩ nofun).eval he.1
  | assign ref value => exact (hready.push (.assign ref) ⟨he.2, hready.goes⟩ nofun).eval he.1
  | call callee line arguments =>
    exact (hready.push (.callee line arguments) ⟨he.2, hready.goes⟩ nofun).eval he.1
  | get object name => exact (hready.push (.get name) ⟨trivial, hready.goes⟩ nofun).eval he
  | set object name value => exact (hready.push (.target name value) ⟨he.1, hready.goes⟩ nofun).eval he.2
  | «variable» ref | this ref =>
    unfold evalStep
    dsimp only
    split
    · next v hv =>
      refine (hready.retain v).yield ?_
      unfold Interpreter.lookup? at hv
      split at hv
      · exact (hready.store.findAt? hv).1
      · exact (hready.store.find? hv).1
    · exact hready.failed _
  | super ref method =>
    rw [store_super] at hW
    have hopened : ∀ m, i.methodOfSuper? ref method.text = some m →
        i.store.openedByBind m ∈ later.openings := fun m hm =>
      hnew (List.mem_map_of_mem (Option.mem_toList.2 hm))
    obtain ⟨hstore, hv⟩ := Interpreter.placed_superMethod h.store hr hpast ref method.text hopened hW
    have hactive := i.active_superMethod ref method.text
    have hsuper : Ready P W (i.superMethod ref method.text).2 around stack :=
      ⟨hactive ▸ hready.active, hactive ▸ hready.goes, hready.held, hstore⟩
    unfold evalStep
    dsimp only
    split <;> rename_i heq <;> rw [heq] at hsuper hv
    · exact hsuper.yield (hv _ rfl)
    · exact hsuper.failed _
    · exact hsuper.failed _

/-! ## Statements are taken apart -/

/-- The name of a class is bound when its methods are made, and they stand where it is. -/
theorem ready_declareClass {name : Ident} (hplain : name.Plain) (superclass : Option Class)
    {methods : List FunctionDecl}
    (hactive : i.store.arena.Stands past.openings i.active around)
    (hgoes : Continues P (past.standing i.store.arena) i.active (declare [name.text] around) stack)
    (hheld : ∀ v ∈ heldAll stack, v.Placed P (past.standing i.store.arena))
    (hstore : i.store.Each (Value.Placed P (past.standing i.store.arena)))
    (hparent : ∀ c ∈ superclass, c.Placed P (past.standing i.store.arena) ∧
      ⟨((i.define name.text .nil).enter i.active).active, .heritage methods, i.active⟩ ∈ later.openings)
    (hfits : FunctionDecl.FitsAll P (match superclass with
      | none => declare [name.text] around
      | some _ => ⟨.heritage methods, ["super"]⟩ :: declare [name.text] around) methods)
    (hfunctions : (match superclass with
      | none => (i.define name.text .nil).closeOverMethods Bindings.empty methods
      | some parent => (i.define name.text .nil).closeOverDerived parent methods).1.values ⊆ later.functions)
    (hW : (later.standing (i.declareClass name.text superclass methods).store.arena).Within W) :
    Ready P W (i.declareClass name.text superclass methods) (declare [name.text] around) stack := by
  have hgrows : Grows (fun _ _ => True) i.store.arena
      (i.declareClass name.text superclass methods).store.arena :=
    Interpreter.grows_declareClass hr superclass methods trivial
  have hmono : (past.standing i.store.arena).Within W :=
    (Past.standing_within hgrows hpast).trans hW
  have hplace : W.frame i.active (declare [name.text] around) :=
    hW.stands ((Interpreter.stands_declareClass hactive hr name.text superclass methods).grow
      (.refl (B := fun _ _ => True) hgrows.recycles) hpast.openings)
  have hmethods : ∀ {table : Bindings Function}, table.values ⊆ later.functions →
      ∀ method ∈ table.values, W.method method := fun htable method hm => hW.method _ (htable hm)
  have hnil : (i.define name.text .nil).store.Each (Value.Placed P W) :=
    (hstore.mono fun _ hv => hv.mono hmono).define i.active (v := .nil) trivial
      (Value.suits_of_plain hplain _)
  have hsame : (i.declareClass name.text superclass methods).active = i.active := by
    cases superclass with
    | none => exact Interpreter.closeOverMethods_active (i.define name.text .nil) Bindings.empty methods
    | some parent => rfl
  refine ⟨hsame ▸ hplace, hsame ▸ hgoes.mono hmono, fun v hv => (hheld v hv).mono hmono, ?_⟩
  cases superclass with
  | none =>
    obtain ⟨hstore, htable⟩ := Interpreter.each_closeOverMethods (i := i.define name.text .nil)
      Bindings.empty hfits hplace hnil nofun
    exact Interpreter.each_bindClass hplain hstore nofun (hmethods hfunctions) htable
  | some parent =>
    obtain ⟨hplaced, hnew⟩ := hparent parent rfl
    have hheritage := hW.stands
      (Interpreter.stands_heritage hactive hr name.text parent methods hpast.openings hnew)
    have hrecycles : (i.define name.text .nil).store.arena.Recycles :=
      (Interpreter.grows_define (B := fun _ _ => True) hr .nil trivial).recycles
    obtain ⟨hstore, htable⟩ := Interpreter.each_closeOverDerived (i := i.define name.text .nil) hfits
      hheritage hnil hrecycles (hplaced.mono hmono)
    refine Interpreter.each_bindClass hplain hstore (fun c hc => ?_) (hmethods hfunctions) htable
    cases Option.mem_def.1 hc
    exact hplaced.mono hmono

theorem placed_execStep (hm : Placed P (past.standing i.store.arena) ⟨.exec s, stack, i⟩)
    (hnew : opened ⟨.exec s, stack, i⟩ ⊆ later.openings)
    (hfunctions : functions ⟨.exec s, stack, i⟩ ⊆ later.functions)
    (hW : (later.standing (execStep s stack i).state.store.arena).Within W) :
    Placed P W (execStep s stack i) := by
  obtain ⟨⟨around, hactive, hs, hgoes⟩, hheld, hstore⟩ := hm
  have hmono : (past.standing i.store.arena).Within W :=
    (Past.standing_within (grows_execStep hr s) hpast).trans hW
  have hready : s.declared = [] → Ready P W i around stack := fun hnone => by
    rw [hnone, Surrounding.declare_nil] at hgoes
    exact Ready.mono ⟨hactive, hgoes, hheld, hstore⟩ hmono
  cases s with
  | expression e => exact ((hready rfl).push .drop ⟨trivial, (hready rfl).goes⟩ nofun).eval hs
  | print e => exact ((hready rfl).push .print ⟨trivial, (hready rfl).goes⟩ nofun).eval hs
  | var name initializer =>
    cases initializer with
    | none =>
      have hdefined := hactive.define hr name.text .nil
      have hgrows : Grows (fun _ _ => True) i.store.arena (i.define name.text .nil).store.arena :=
        Interpreter.grows_define hr .nil trivial
      have hplace := hW.stands
        (hdefined.grow (.refl (B := fun _ _ => True) hgrows.recycles) hpast.openings)
      have hnil := (hstore.mono fun _ hv => hv.mono hmono).define i.active (v := .nil) trivial
        (Value.suits_of_plain hs.1 _)
      exact ⟨⟨_, hplace, hgoes.mono hmono⟩, fun v hv => (hheld v hv).mono hmono, hnil⟩
    | some e =>
      exact ⟨⟨around, hmono.frame _ _ hactive, hs.2 e rfl, hs.1, hgoes.mono hmono⟩,
        fun v hv => (hheld v hv).mono hmono, hstore.mono fun _ hv => hv.mono hmono⟩
  | block body =>
    have hstands : (execStep (.block body) stack i).state.store.arena.Stands later.openings
        (i.enter i.active).active (⟨.block body, []⟩ :: around) :=
      hactive.create hr hpast.openings (hnew List.mem_cons_self)
    have hcreate := (hready rfl).store.create hr i.active
    exact ⟨⟨_, hW.stands hstands, hs, around, (hready rfl).active, (hready rfl).goes⟩, (hready rfl).held,
      hcreate⟩
  | branch condition yes no =>
    have hnone : (Stmt.branch condition yes no).declared = [] ∧ condition.Fits (P around) ∧
        Cont.Fits P around (.branch yes no) := by
      cases no with
      | none => exact ⟨hs.2.2, hs.1, hs.2, nofun⟩
      | some no =>
        obtain ⟨hcondition, hyes, hno⟩ := hs
        refine ⟨?_, hcondition, hyes, fun s hs => ?_⟩
        · rw [Stmt.declared, hyes.2, hno.2]
          rfl
        · cases Option.mem_def.1 hs
          exact hno
    obtain ⟨hdeclared, hcondition, hfits⟩ := hnone
    exact ((hready hdeclared).push (.branch yes no) ⟨hfits, (hready hdeclared).goes⟩ nofun).eval hcondition
  | loop condition body =>
    have hnone : (Stmt.loop condition body).declared = [] := hs.2.2
    exact ((hready hnone).push (.test condition body) ⟨hs, (hready hnone).goes⟩ nofun).eval hs.1
  | function decl =>
    have hclosed :=
      hactive.grow (Interpreter.grows_closeOver (B := fun _ _ => True) hr decl false) hpast.openings
    have hrecycles := (Interpreter.grows_closeOver (B := fun _ _ => True) hr decl false).recycles
    have hplace := hW.stands
      (hclosed.define hrecycles decl.name.text (.function (i.closeOver decl false).1))
    have hmade := hW.function _ (.inl (hfunctions List.mem_cons_self))
    have hstore := Interpreter.each_declareFunction hs.1 hs.2 hplace hmade
      (hstore.mono fun _ hv => hv.mono hmono)
    exact ⟨⟨_, hplace, hgoes.mono hmono⟩, fun v hv => (hheld v hv).mono hmono, hstore⟩
  | classDecl name superclass methods =>
    cases superclass with
    | none =>
      exact (ready_declareClass hr hpast hs.1 none hactive hgoes hheld hstore nofun hs.2 hfunctions hW).done
    | some parent =>
      exact ⟨⟨around, hmono.frame _ _ hactive, hs.2.1, ⟨hs.1, hs.2.2⟩, hgoes.mono hmono⟩,
        fun v hv => (hheld v hv).mono hmono, hstore.mono fun _ hv => hv.mono hmono⟩
  | ret n value =>
    cases value with
    | none => exact (hready rfl).returning (v := .nil) trivial
    | some e => exact ((hready rfl).push .result ⟨trivial, (hready rfl).goes⟩ nofun).eval (hs e rfl)

/-! ## Calls -/

omit hr hpast

theorem stands_foldl_define {os : List Opening} {i : Interpreter}
    (hs : i.store.arena.Stands os i.active around)
    (hr : i.store.arena.Recycles) (bindings : List (Ident × Value)) :
    let j := bindings.foldl (fun j (p, v) => j.define p.text v) i
    j.store.arena.Stands os i.active (declare (bindings.map fun b => b.1.text) around) := by
  induction bindings generalizing i around with
  | nil =>
    rw [List.map_nil, Surrounding.declare_nil]
    exact hs
  | cons binding rest ih =>
    have hgrows : Grows (fun _ _ => True) i.store.arena (i.define binding.1.text binding.2).store.arena :=
      Interpreter.grows_define hr binding.2 trivial
    have hdefined : (i.define binding.1.text binding.2).store.arena.Stands os i.active
        (declare [binding.1.text] around) := hs.define hr binding.1.text binding.2
    have hrest := ih (i := i.define binding.1.text binding.2) hdefined hgrows.recycles
    rw [← Surrounding.declare_append] at hrest
    exact hrest

theorem each_foldl_define {i : Interpreter} (hs : i.store.Each (Value.Placed P W))
    {bindings : List (Ident × Value)} (hv : ∀ b ∈ bindings, b.1.Plain ∧ b.2.Placed P W) :
    (bindings.foldl (fun j (p, v) => j.define p.text v) i).store.Each (Value.Placed P W) := by
  induction bindings generalizing i with
  | nil => exact hs
  | cons binding rest ih =>
    obtain ⟨hfirst, hrest⟩ := List.forall_mem_cons.1 hv
    exact ih (i := i.define binding.1.text binding.2)
      (hs.define _ hfirst.2 (Value.suits_of_plain hfirst.1 _)) hrest

include hr hpast

/-- The body of a function is executed in a frame that stands where the function has been declared. -/
theorem placed_callFunction {f : Function} {arguments : List Value}
    (h : Ready P (past.standing i.store.arena) i around stack)
    (hf : Value.Placed P (past.standing i.store.arena) (.function f))
    (harguments : ∀ v ∈ arguments, v.Placed P (past.standing i.store.arena))
    (harity : arguments.length = f.arity) (hnew : openedByCallFunction f i ⊆ later.openings)
    (hW : (later.standing (callFunction line f arguments stack i).state.store.arena).Within W) :
    Placed P W (callFunction line f arguments stack i) := by
  have hmono : (past.standing i.store.arena).Within W :=
    (Past.standing_within (grows_callFunction (B := fun _ _ => True) hr line f arguments) hpast).trans hW
  have hready := h.mono hmono
  unfold openedByCallFunction at hnew
  revert hW
  unfold callFunction
  split
  · next hcontains =>
    intro hW
    rw [if_pos hcontains] at hnew
    have hcallee : Value.Placed P W (.function f) := hf.mono hmono
    obtain ⟨-, -, outer, hclosure, hfits, -⟩ := hf
    have hbody := hfits
    rw [FunctionDecl.fits_eq] at hbody
    have henter : (i.enter f.closure).store.arena.Stands later.openings (i.enter f.closure).active
        (⟨.body f.decl, []⟩ :: outer) := hclosure.create hr hpast.openings (hnew List.mem_cons_self)
    have hbound := stands_foldl_define henter (Arena.recycles_create hr f.closure)
      (f.decl.params.zip arguments)
    have hzip : (f.decl.params.zip arguments).map Prod.fst = f.decl.params := List.map_fst_zip harity.ge
    have hnames : ((f.decl.params.zip arguments).map fun b => b.1.text) = f.decl.params.map Ident.text := by
      rw [← hzip, List.map_map, hzip]
      rfl
    rw [hnames, ← Interpreter.foldl_define_active (f.decl.params.zip arguments)] at hbound
    have hstore : (i.enter f.closure).store.Each (Value.Placed P W) := hready.store.create hr f.closure
    have hbindings : ∀ b ∈ f.decl.params.zip arguments, b.1.Plain ∧ b.2.Placed P W := fun b hb =>
      ⟨hbody.1 _ (List.of_mem_zip hb).1, (harguments _ (List.of_mem_zip hb).2).mono hmono⟩
    exact ⟨⟨_, hW.stands hbound, hbody.2, around, hready.active, around, hready.active, hready.goes⟩,
      List.forall_mem_cons.2 ⟨hcallee, hready.held⟩, each_foldl_define hstore hbindings⟩
  · exact fun _ => ((hready.discardAll arguments).discard (.function f)).drain.failed _

theorem placed_instantiate {c : Class} {arguments : List Value}
    (h : Ready P (past.standing i.store.arena) i around stack)
    (hc : c.Placed P (past.standing i.store.arena))
    (harguments : ∀ v ∈ arguments, v.Placed P (past.standing i.store.arena))
    (harity : arguments.length = c.arity) (hnew : openedByInstantiate c i ⊆ later.openings)
    (hW : (later.standing (instantiate line c arguments stack i).state.store.arena).Within W) :
    Placed P W (instantiate line c arguments stack i) := by
  have hmono : (past.standing i.store.arena).Within W :=
    (Past.standing_within (grows_instantiate (B := fun _ _ => True) hr line c arguments) hpast).trans hW
  let receiver := (i.store.allocate (.instance c Bindings.empty)).1
  let allocated := (i.store.allocate (.instance c Bindings.empty)).2
  unfold openedByInstantiate at hnew
  unfold instantiate at hW ⊢
  unfold Class.arity at harity
  dsimp only at hW hnew ⊢
  have hclass : ∀ V : Value → Prop, V (.classObject c) →
      ∀ v ∈ (Payload.instance c Bindings.empty).values, V v :=
    fun V hV v hv => List.mem_singleton.1 hv ▸ hV
  cases hmethod : c.findMethod? initializerName with
  | none =>
    rw [hmethod] at hW
    have hready := h.mono hmono
    exact Ready.yield (v := .instance receiver) ⟨hready.active, hready.goes, hready.held,
      hready.store.allocate (hclass _ (hc.mono hmono))⟩ trivial
  | some method =>
    rw [hmethod] at hW hnew harity
    -- first the initializer is bound, and then it is called
    obtain ⟨hmade, hbindable⟩ := hc initializerName method hmethod
    have hbound := Function.Bindable.bind (s := allocated) hbindable hmade hr hpast
      (hnew List.mem_cons_self) (.instance receiver)
    have hgrows : Grows (fun _ _ => True) i.store.arena
        (allocated.bind method (.instance receiver)).2.arena :=
      Store.grows_bind (s := allocated) hr method (.instance receiver)
    have hstands : (past.standing i.store.arena).Within
        (later.standing (allocated.bind method (.instance receiver)).2.arena) :=
      Past.standing_within hgrows hpast
    have hready := h.mono hstands
    have hstore := (hready.store.allocate (hclass _ (hc.mono hstands))).bind (s := allocated) hr method
      (show Value.Placed P _ (.instance receiver) from trivial)
    have hready' : Ready P (later.standing (allocated.bind method (.instance receiver)).2.arena)
        { i with store := (allocated.bind method (.instance receiver)).2 } around
        (.construct receiver :: stack) :=
      ⟨hready.active, ⟨trivial, hready.goes⟩, List.forall_mem_cons.2 ⟨trivial, hready.held⟩, hstore⟩
    exact placed_callFunction (i := { i with store := (allocated.bind method (.instance receiver)).2 })
      hgrows.recycles (.refl later) hready' hbound
      (fun v hv => (harguments v hv).mono hstands) harity
      (fun _ hr => hnew (List.mem_cons_of_mem _ hr)) hW

omit hr hpast in
theorem ready_callArrayMethod (id : ObjectId) (method : ArrayMethod) {arguments : List Value}
    (h : Ready P W i around stack) (harguments : ∀ v ∈ arguments, v.Placed P W) :
    Ready P W (callArrayMethod id method arguments i).2 around stack ∧
      (callArrayMethod id method arguments i).1.Placed P W := by
  unfold callArrayMethod
  split
  · exact ⟨h.retain _, h.store.element (show Value.Placed P W .nil from trivial) _⟩
  · next index v _ =>
    have hv := harguments v (List.mem_cons_of_mem _ List.mem_cons_self)
    have hset := h.store.setElement id index hv
    have hresult : (i.store.setElement id index v).1.Placed P W := by
      unfold Store.setElement
      split
      · exact hv
      · trivial
    exact ⟨⟨h.active, h.goes, h.held, hset.retain _⟩, hresult⟩
  · exact ⟨h, trivial⟩

theorem placed_call {callee : Value} {arguments : List Value}
    (h : Ready P (past.standing i.store.arena) i around stack)
    (hcallee : callee.Placed P (past.standing i.store.arena))
    (harguments : ∀ v ∈ arguments, v.Placed P (past.standing i.store.arena))
    (hnew : openedByCall callee arguments i ⊆ later.openings)
    (hW : (later.standing (call line callee arguments stack i).state.store.arena).Within W) :
    Placed P W (call line callee arguments stack i) := by
  have hmono : (past.standing i.store.arena).Within W :=
    (Past.standing_within (grows_call (B := fun _ _ => True) hr line callee arguments) hpast).trans hW
  have hready := h.mono hmono
  have hgive := fun cause => ((hready.discardAll arguments).discard callee).failed (.runtime line cause)
  unfold openedByCall at hnew
  revert hW
  unfold call
  split
  · exact fun _ => hgive _
  · next arity harity =>
    split
    · next hlength =>
      rw [harity, if_pos (congrArg some hlength.symm)] at hnew
      split
      · next n =>
        obtain ⟨hstore, hv⟩ := Interpreter.placed_callNative hready.store n
          fun v hv => (harguments v hv).mono hmono
        have hactive := i.active_callNative n arguments
        have hnative : Ready P W (i.callNative n arguments).2 around stack :=
          ⟨hactive ▸ hready.active, hactive ▸ hready.goes, hready.held, hstore⟩
        split <;> rename_i heq <;> rw [heq] at hnative hv <;> intro _
        · exact (hnative.discardAll arguments).yield (hv _ rfl)
        · exact (hnative.discardAll arguments).failed _
        · exact ⟨trivial, hnative.held, hnative.store⟩
      · exact placed_callFunction hr hpast h hcallee harguments
          (hlength.trans (Option.some.inj harity.symm)) hnew
      · exact placed_instantiate hr hpast h hcallee harguments
          (hlength.trans (Option.some.inj harity.symm)) hnew
      · next id method =>
        intro _
        obtain ⟨hcalled, hv⟩ := ready_callArrayMethod id method hready
          fun v hv => (harguments v hv).mono hmono
        exact ((hcalled.discardAll arguments).discard (.arrayMethod id method)).yield hv
      · exact fun _ => hgive _
    · exact fun _ => hgive _

/-! ## Values are handed on -/

theorem placed_yieldStep {k : Cont} (hm : Placed P (past.standing i.store.arena) ⟨.yield v, k :: stack, i⟩)
    (htakes : k.takesValue = true) (hnew : opened ⟨.yield v, k :: stack, i⟩ ⊆ later.openings)
    (hfunctions : functions ⟨.yield v, k :: stack, i⟩ ⊆ later.functions)
    (hW : (later.standing (yieldStep v k stack i).state.store.arena).Within W) :
    Placed P W (yieldStep v k stack i) := by
  have hmono : (past.standing i.store.arena).Within W :=
    (Past.standing_within (grows_yieldStep hr v k) hpast).trans hW
  obtain ⟨⟨around, hactive, hgoes⟩, hheld, hstore⟩ := hm
  obtain ⟨hv, hheld⟩ := List.forall_mem_cons.1 hheld
  have hheld : ∀ w ∈ k.held ++ heldAll stack, w.Placed P (past.standing i.store.arena) := hheld
  obtain ⟨hk, hrest⟩ := List.forall_mem_append.1 hheld
  -- the same when the step is over
  have hvalue : v.Placed P W := hv.mono hmono
  have hready : Continues P (past.standing i.store.arena) i.active around stack → Ready P W i around stack :=
    fun hgoes => Ready.mono ⟨hactive, hgoes, hrest, hstore⟩ hmono
  cases k with
  | unary op line =>
    exact ((hready hgoes.2).discard v).ofResult fun w hw =>
      Value.placed_of_isPlain (UnaryOp.isPlain_of_apply hw)
  | left op line right =>
    have hpush := (hready hgoes.2).push (.right op line v) ⟨trivial, (hready hgoes.2).goes⟩
      fun w hw => List.mem_singleton.1 hw ▸ hvalue
    exact hpush.eval hgoes.1
  | right op line left =>
    exact (((hready hgoes.2).discard left).discard v).ofResult fun w hw =>
      Value.placed_of_isPlain (BinaryOp.isPlain_of_apply hw)
  | logical op right =>
    unfold yieldStep
    dsimp only
    split
    · exact (hready hgoes.2).yield hvalue
    · exact ((hready hgoes.2).discard v).eval hgoes.1
  | assign ref =>
    have hassign := ((hready hgoes.2).retain v).assign hgoes.1.1 hvalue
    unfold yieldStep
    dsimp only
    split <;> rename_i heq <;> rw [heq] at hassign
    · exact hassign.yield hvalue
    · exact (hassign.discard v).failed _
  | callee line arguments =>
    cases arguments with
    | nil => exact placed_call hr hpast ⟨hactive, hgoes.2, hrest, hstore⟩ hv nofun hnew hW
    | cons e rest =>
      have hpush := (hready hgoes.2).push (.argument line v [] rest) ⟨hgoes.1.2, (hready hgoes.2).goes⟩
        fun w hw => List.mem_singleton.1 hw ▸ hvalue
      exact hpush.eval hgoes.1.1
  | argument line callee ready rest =>
    obtain ⟨hcallee, hargs⟩ := List.forall_mem_cons.1 hk
    have harguments : ∀ w ∈ ready ++ [v], w.Placed P (past.standing i.store.arena) :=
      List.forall_mem_append.2 ⟨hargs, fun w hw => List.mem_singleton.1 hw ▸ hv⟩
    cases rest with
    | nil => exact placed_call hr hpast ⟨hactive, hgoes.2, hrest, hstore⟩ hcallee harguments hnew hW
    | cons e rest =>
      have hpush := (hready hgoes.2).push (.argument line callee (ready ++ [v]) rest)
        ⟨hgoes.1.2, (hready hgoes.2).goes⟩
        (List.forall_mem_cons.2 ⟨hcallee.mono hmono, fun w hw => (harguments w hw).mono hmono⟩)
      exact hpush.eval hgoes.1.1
  | get name =>
    have hsame : (yieldStep v (.get name) stack i).state.store.arena =
        (i.property v name.text).2.store.arena := Store.arena_discard _ v
    rw [hsame] at hW
    have hopened : ∀ m, i.methodOf? v name.text = some m → i.store.openedByBind m ∈ later.openings :=
      fun m hm => hnew (List.mem_map_of_mem (Option.mem_toList.2 hm))
    obtain ⟨hproperty, hresult⟩ := Interpreter.placed_property hstore hr hpast v name.text hopened hW
    have hkept := i.active_property v name.text
    have hread : Ready P W (i.property v name.text).2 around stack :=
      ⟨hkept ▸ (hready hgoes.2).active, hkept ▸ (hready hgoes.2).goes, (hready hgoes.2).held, hproperty⟩
    exact (hread.discard v).ofResult hresult
  | target name value =>
    unfold yieldStep
    dsimp only
    split
    · exact ((hready hgoes.2).push (.field _ name) ⟨trivial, (hready hgoes.2).goes⟩
        fun w hw => List.mem_singleton.1 hw ▸ trivial).eval hgoes.1
    · exact ((hready hgoes.2).discard _).failed _
    · exact ((hready hgoes.2).discard _).failed _
  | field receiver name =>
    have hset := (((hready hgoes.2).retain v).store.setField receiver name.text hvalue).discard
      (.instance receiver)
    exact Ready.yield ⟨(hready hgoes.2).active, (hready hgoes.2).goes, (hready hgoes.2).held, hset⟩ hvalue
  | drop => exact ((hready hgoes.2).discard v).done
  | print =>
    have hwrite := (hready hgoes.2).writeLine v
    unfold yieldStep
    dsimp only
    split <;> rename_i heq <;> rw [heq] at hwrite
    · exact (hwrite.discard v).done
    · exact (hwrite.discard v).failed _
  | define name =>
    have hgrows : Grows (fun _ _ => True) i.store.arena (i.define name.text v).store.arena :=
      Interpreter.grows_define hr v trivial
    have hplace := hW.stands ((hactive.define hr name.text v).grow
      (.refl (B := fun _ _ => True) hgrows.recycles) hpast.openings)
    exact ⟨⟨_, hplace, hgoes.2.mono hmono⟩, fun w hw => (hrest w hw).mono hmono,
      (hstore.mono fun _ hv => hv.mono hmono).define _ hvalue (Value.suits_of_plain hgoes.1 _)⟩
  | branch yes no =>
    obtain ⟨⟨hyes, hno⟩, hgoes⟩ := hgoes
    unfold yieldStep
    dsimp only
    split
    · exact ((hready hgoes).discard v).exec hyes.1 hyes.2
    · split
      · exact ((hready hgoes).discard v).exec (hno _ rfl).1 (hno _ rfl).2
      · exact ((hready hgoes).discard v).done
  | test condition body =>
    unfold yieldStep
    dsimp only
    split
    · exact (((hready hgoes.2).discard v).push (.round condition body)
        ⟨hgoes.1, (hready hgoes.2).goes⟩ nofun).exec hgoes.1.2.1 hgoes.1.2.2
    · exact ((hready hgoes.2).discard v).done
  | result => exact (hready hgoes.2).returning hvalue
  | superclass name parent methods =>
    have hkept : i.store.Each (Value.Placed P W) := hstore.mono fun _ hv => hv.mono hmono
    have hgive : ∀ failure, Placed P W ⟨.failed failure, stack, i.discard v⟩ := fun _ =>
      ⟨trivial, fun w hw => (hrest w hw).mono hmono, hkept.discard v⟩
    cases v with
    | classObject c =>
      have hparent : ∀ d ∈ some c, d.Placed P (past.standing i.store.arena) ∧
          ⟨((i.define name.text .nil).enter i.active).active, .heritage methods, i.active⟩ ∈
            later.openings := fun d hd => ⟨Option.some.inj hd ▸ hv, hnew List.mem_cons_self⟩
      exact (ready_declareClass hr hpast hgoes.1.1 (some c) hactive hgoes.2 hrest hstore hparent hgoes.1.2
        hfunctions hW).done
    | _ => exact hgive _
  | construct receiver => exact ((hready hgoes.2).discard v).yield trivial
  | round condition body => cases htakes
  | sequence rest => cases htakes
  | leave previous frame => cases htakes
  | finish f => cases htakes

/-! ## Statements end -/

omit hr hpast

/-- A call that is over has a value that is placed, and its caller goes on. -/
theorem placed_finishCall {f : Function} (h : Ready P W i around stack) (hv : v.Placed P W) :
    Placed P W (finishCall f v stack i) := by
  have hresult : Ready P W (callResult f v i).2 around stack ∧ (callResult f v i).1.Placed P W := by
    unfold callResult
    split
    · refine ⟨(h.retain _).discard v, ?_⟩
      cases hthis : i.store.arena.find? f.closure "this" with
      | none => trivial
      | some this => exact (h.store.find? hthis).1
    · exact ⟨h, hv⟩
  exact (hresult.1.discard (.function f)).drain.yield hresult.2

theorem each_leave (hs : i.store.Each (Value.Placed P W)) (previous frame : Handle) :
    (i.leave previous frame).store.Each (Value.Placed P W) := (hs.release frame).drain

theorem placed_doneStep {k : Cont} (hm : Placed P W ⟨.done, k :: stack, i⟩) (htakes : k.takesValue = false) :
    Placed P W (doneStep k stack i) := by
  obtain ⟨⟨around, hactive, hgoes⟩, hheld, hstore⟩ := hm
  have hheld : ∀ w ∈ k.held ++ heldAll stack, w.Placed P W := hheld
  have hrest := (List.forall_mem_append.1 hheld).2
  cases k with
  | sequence body =>
    obtain ⟨hbody, hgoes⟩ := hgoes
    cases body with
    | nil =>
      rw [List.flatMap_nil, Surrounding.declare_nil] at hgoes
      exact Ready.done ⟨hactive, hgoes, hrest, hstore⟩
    | cons s rest =>
      rw [List.flatMap_cons, Surrounding.declare_append] at hgoes
      exact ⟨⟨around, hactive, hbody.1, hbody.2, hgoes⟩, hrest, hstore⟩
  | round condition body =>
    have hready : Ready P W i around stack := ⟨hactive, hgoes.2, hrest, hstore⟩
    exact (hready.push (.test condition body) hgoes nofun).eval hgoes.1.1
  | leave previous frame =>
    obtain ⟨outside, hprevious, hgoes⟩ := hgoes
    exact ⟨⟨outside, hprevious, hgoes⟩, hrest, each_leave hstore previous frame⟩
  | finish f =>
    obtain ⟨outside, hcaller, hgoes⟩ := hgoes
    exact placed_finishCall ⟨hcaller, hgoes, hrest, hstore⟩ trivial
  | _ => cases htakes

theorem placed_returnStep {k : Cont} (hm : Placed P W ⟨.returning v, k :: stack, i⟩) :
    Placed P W (returnStep v k stack i) := by
  obtain ⟨⟨around, hgoes⟩, hheld, hstore⟩ := hm
  have hheld : ∀ w ∈ v :: (k.held ++ heldAll stack), w.Placed P W := hheld
  obtain ⟨hv, hheld⟩ := List.forall_mem_cons.1 hheld
  have hrest := (List.forall_mem_append.1 hheld).2
  have hgive : ∀ w ∈ v :: heldAll stack, w.Placed P W := List.forall_mem_cons.2 ⟨hv, hrest⟩
  cases k with
  | leave previous frame =>
    obtain ⟨outside, -, hgoes⟩ := hgoes
    exact ⟨⟨outside, hgoes⟩, hgive, each_leave hstore previous frame⟩
  | finish f =>
    obtain ⟨outside, hcaller, hgoes⟩ := hgoes
    exact placed_finishCall ⟨hcaller, hgoes, hrest, hstore⟩ hv
  | _ => exact ⟨⟨_, hgoes.2⟩, hgive, hstore⟩

theorem placed_failStep {k : Cont} {failure : Failure} (hm : Placed P W ⟨.failed failure, k :: stack, i⟩) :
    Placed P W (failStep failure k stack i) := by
  obtain ⟨-, hheld, hstore⟩ := hm
  have hheld : ∀ w ∈ k.held ++ heldAll stack, w.Placed P W := hheld
  have hrest := (List.forall_mem_append.1 hheld).2
  refine ⟨trivial, hrest, ?_⟩
  cases k with
  | right op line left => exact hstore.discard left
  | argument line callee ready rest => exact (hstore.discardAll ready).discard callee
  | field receiver name => exact hstore.discard (.instance receiver)
  | construct receiver => exact hstore.discard (.instance receiver)
  | leave previous frame => exact each_leave hstore previous frame
  | finish f => exact (hstore.discard (.function f)).drain
  | _ => exact hstore

/-! ## Every step -/

/-- The frames that a step makes stand where the code that is executed in them is. -/
theorem Placed.step {m : Machine} (hm : m.Placed P (past.standing m.state.store.arena))
    (hr : m.state.store.arena.Recycles)
    (hfits : ∀ value, m.control.givesValue? = some value → Fits value m.stack) :
    m.step.Placed P ((past.add m).standing m.step.state.store.arena) := by
  have hpast : past.Within (past.add m) := past.within_add m
  have hnew : m.opened ⊆ (past.add m).openings := List.subset_append_right _ _
  have hfunctions : m.functions ⊆ (past.add m).functions := List.subset_append_right _ _
  have hmono : m.Placed P ((past.add m).standing m.step.state.store.arena) :=
    hm.mono (Past.standing_within (grows_step m hr) hpast)
  obtain ⟨control, stack, i⟩ := m
  cases control with
  | eval e =>
    obtain ⟨⟨around, hactive, he, hgoes⟩, hheld, hstore⟩ := hm
    exact placed_evalStep hr hpast he ⟨hactive, hgoes, hheld, hstore⟩ hnew (.refl _)
  | exec s => exact placed_execStep hr hpast hm hnew hfunctions (.refl _)
  | yield v =>
    cases stack with
    | nil => exact hmono
    | cons k stack => exact placed_yieldStep hr hpast hm (hfits true rfl).1 hnew hfunctions (.refl _)
  | done =>
    cases stack with
    | nil => exact hmono
    | cons k stack => exact placed_doneStep hmono (hfits false rfl).1
  | returning v =>
    cases stack with
    | nil => exact hmono
    | cons k stack => exact placed_returnStep hmono
  | failed failure =>
    cases stack with
    | nil => exact hmono
    | cons k stack => exact placed_failStep hmono
  | crashed => exact hmono

end Machine
end Lox
