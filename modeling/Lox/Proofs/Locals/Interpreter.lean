import Lox.Interpreter
import Lox.Proofs.Locals.Store

/-!
# Interpreters under other names

A reference reads and writes in both runs what is bound in the same frame, by the name that is declared for it
there. So the operations of the language give the like.
-/
namespace Lox

/-- The active frame has these marks. Resolution has found the same distances for both. -/
structure Interpreter.Exchanged (ξ : Exchange) (μ : Marking) (marks : List Bool) (i j : Interpreter) : Prop where
  store : i.store.Exchanged ξ μ j.store
  around : μ i.active = some marks
  active : j.active = i.active
  distances : ∀ id : Nat, i.distances[id]? = ξ.distances id
  same : ∀ id : Nat, j.distances[id]? = i.distances[id]?
  sink : j.sink = i.sink
  clock : j.clock = i.clock

section

variable (ξ : Exchange) (μ : Marking)

inductive NativeResult.Exchanged : Interpreter.NativeResult → Interpreter.NativeResult → Prop where
  | value {v w} (h : v.Exchanged ξ μ w) : NativeResult.Exchanged (.value v) (.value w)
  | error (cause : RuntimeError) : NativeResult.Exchanged (.error cause) (.error cause)
  | crash : NativeResult.Exchanged .crash .crash

end

namespace Interpreter.Exchanged

variable {ξ : Exchange} {μ : Marking} {marks : List Bool} {i j : Interpreter} {v w : Value}
  {values values' : List Value}

theorem of_store (h : i.Exchanged ξ μ marks j) {μ' : Marking} (hμ : μ.Extends μ') {s u : Store}
    (hs : s.Exchanged ξ μ' u) {active : Handle} (ha : active = i.active) :
    Interpreter.Exchanged ξ μ' marks { i with store := s } { j with store := u, active := active } :=
  ⟨hs, hμ _ _ h.around, ha, h.distances, h.same, h.sink, h.clock⟩

section

variable (h : i.Exchanged ξ μ marks j)

include h

theorem retain (hv : v.Exchanged ξ μ w) : (i.retain v).Exchanged ξ μ marks (j.retain w) :=
  h.of_store (.refl μ) (h.store.retain hv) h.active

theorem discard (hv : v.Exchanged ξ μ w) : (i.discard v).Exchanged ξ μ marks (j.discard w) :=
  h.of_store (.refl μ) (h.store.discard hv) h.active

theorem discardAll (hvalues : List.Forall₂ (Value.Exchanged ξ μ) values values') :
    (i.discardAll values).Exchanged ξ μ marks (j.discardAll values') :=
  h.of_store (.refl μ) (h.store.discardAll hvalues) h.active

theorem drain : i.drain.Exchanged ξ μ marks j.drain := h.of_store (.refl μ) h.store.drain h.active

/-! ## Variables -/

theorem lookup? (ref : Reference) :
    Option.Rel (Value.Exchanged ξ μ) (i.lookup? ref) (j.lookup? (ref.exchange ξ marks)) := by
  unfold Interpreter.lookup?
  rw [h.same, h.distances, Reference.exchange_id, h.distances, h.active]
  cases hd : ξ.distances ref.id with
  | some distance =>
    rw [Reference.exchange_of_some hd]
    exact h.store.arena.findAt? h.store.covers h.around distance ref.name.text
  | none =>
    have hfind := h.store.arena.find? .globals ref.name.text
    rw [Marking.mark_of_some h.store.covers.globals] at hfind
    rw [Reference.exchange_of_none hd]
    exact hfind

theorem assign (ref : Reference) (hv : v.Exchanged ξ μ w) :
    (j.assign (ref.exchange ξ marks) w).1 = (i.assign ref v).1 ∧
      (i.assign ref v).2.Exchanged ξ μ marks (j.assign (ref.exchange ξ marks) w).2 := by
  unfold Interpreter.assign
  rw [h.same, h.distances, Reference.exchange_id, h.distances, h.active]
  cases hd : ξ.distances ref.id with
  | some distance =>
    rw [Reference.exchange_of_some hd]
    obtain ⟨hfound, hstore⟩ := h.store.assignAt h.around distance ref.name.text hv
    exact ⟨hfound, h.of_store (.refl μ) hstore rfl⟩
  | none =>
    obtain ⟨hfound, hstore⟩ := h.store.assign .globals ref.name.text hv
    rw [Marking.mark_of_some h.store.covers.globals] at hfound hstore
    rw [Reference.exchange_of_none hd]
    exact ⟨hfound, h.of_store (.refl μ) hstore rfl⟩

theorem define (name : String) (hv : v.Exchanged ξ μ w) :
    (i.define name v).Exchanged ξ μ marks (j.define (ξ.text (isMarked marks 0) name) w) := by
  have hdefine := h.store.define i.active name hv
  rw [Marking.mark_of_some h.around] at hdefine
  unfold Interpreter.define
  rw [h.active]
  exact h.of_store (.refl μ) hdefine rfl

theorem define_fixed {name : String} (hname : ξ.text (isMarked marks 0) name = name) (hv : v.Exchanged ξ μ w) :
    (i.define name v).Exchanged ξ μ marks (j.define name w) := by
  have hdefine := h.define name hv
  rwa [hname] at hdefine

/-- A new frame in a frame with marks is made for a scope that is marked or not. -/
theorem enter {enclosing : Handle} {outer : List Bool} (he : μ enclosing = some outer) (mark : Bool) :
    ∃ μ', μ.Extends μ' ∧ (i.enter enclosing).Exchanged ξ μ' (mark :: outer) (j.enter enclosing) := by
  obtain ⟨μ', hμ, hnew, hhandle, hstore⟩ := h.store.create he mark
  exact ⟨μ', hμ, hstore, hnew, hhandle, h.distances, h.same, h.sink, h.clock⟩

theorem leave {previous : Handle} {outer : List Bool} (hp : μ previous = some outer) (frame : Handle) :
    (i.leave previous frame).Exchanged ξ μ outer (j.leave previous frame) :=
  ⟨(h.store.release frame).drain, hp, rfl, h.distances, h.same, h.sink, h.clock⟩

/-! ## Functions and classes -/

theorem closeOver (inner : List Bool) {decl decl' : FunctionDecl} (hdecl : decl.Exchanged ξ (inner ++ marks) decl')
    (isInitializer : Bool) :
    (i.closeOver decl isInitializer).1.Exchanged ξ μ inner (j.closeOver decl' isInitializer).1 ∧
      (i.closeOver decl isInitializer).2.Exchanged ξ μ marks (j.closeOver decl' isInitializer).2 := by
  obtain ⟨hf, hstore⟩ := (h.store.capture i.active).closeOver h.around hdecl isInitializer
  unfold Interpreter.closeOver
  rw [h.active]
  exact ⟨hf, h.of_store (.refl μ) hstore rfl⟩

theorem declareFunction {decl decl' : FunctionDecl}
    (hname : ξ.text (isMarked marks 0) decl.name.text = decl.name.text) (hdecl : decl.Exchanged ξ marks decl') :
    (i.declareFunction decl).Exchanged ξ μ marks (j.declareFunction decl') := by
  obtain ⟨hf, hi⟩ := h.closeOver [] hdecl false
  have hdefine := hi.define_fixed hname (v := .function _) (w := .function _) ⟨_, rfl, hf⟩
  unfold Interpreter.declareFunction
  rw [hdecl.name]
  exact hdefine

omit h

theorem closeOverMethods {i j : Interpreter} (h : i.Exchanged ξ μ marks j) {table table' : Bindings Function}
    (htable : table.Matched id (Function.Exchanged ξ μ [false]) table') {methods methods' : List FunctionDecl}
    (hmethods : FunctionDecl.ExchangedAll ξ (false :: marks) methods methods') :
    (i.closeOverMethods table methods).1.Matched id (Function.Exchanged ξ μ [false])
        (j.closeOverMethods table' methods').1 ∧
      (i.closeOverMethods table methods).2.Exchanged ξ μ marks (j.closeOverMethods table' methods').2 := by
  induction methods generalizing i j table table' methods' with
  | nil =>
    cases hmethods
    exact ⟨htable, h⟩
  | cons decl rest ih =>
    cases hmethods with
    | cons hdecl hrest =>
      obtain ⟨hf, hi⟩ := h.closeOver [false] hdecl (decl.name.text = initializerName)
      have hinsert := htable.insert Function.injective_id decl.name.text hf
      rw [Interpreter.closeOverMethods, Interpreter.closeOverMethods, hdecl.name]
      exact ih hi hinsert hrest

include h

theorem closeOverDerived {c d : Class} (hc : c.Exchanged ξ μ d) {methods methods' : List FunctionDecl}
    (hmethods : FunctionDecl.ExchangedAll ξ (false :: false :: marks) methods methods') :
    ∃ μ', μ.Extends μ' ∧
      (i.closeOverDerived c methods).1.Matched id (Function.Exchanged ξ μ' [false])
        (j.closeOverDerived d methods').1 ∧
      (i.closeOverDerived c methods).2.Exchanged ξ μ' marks (j.closeOverDerived d methods').2 := by
  obtain ⟨μ', hμ, henter⟩ := h.enter h.around false
  have hparent : Value.Exchanged ξ μ' (.classObject c) (.classObject d) := ⟨d, rfl, hc.mono hμ⟩
  have hsuper := henter.define_fixed (show ξ.text _ "super" = "super" from rfl) hparent
  obtain ⟨htable, hinner⟩ := hsuper.closeOverMethods .empty hmethods
  unfold Interpreter.closeOverDerived
  dsimp only
  rw [h.active, hinner.active]
  exact ⟨μ', hμ, htable, hinner.store.release _, hμ _ _ h.around, rfl, hinner.distances, hinner.same, hinner.sink,
    hinner.clock⟩

theorem bindClass {name : String} (hname : ξ.text (isMarked marks 0) name = name)
    {superclass superclass' : Option Class} (hsuperclass : Option.Rel (Class.Exchanged ξ μ) superclass superclass')
    {table table' : Bindings Function} (htable : table.Matched id (Function.Exchanged ξ μ [false]) table') :
    Interpreter.Exchanged ξ μ marks
      ({ i with store := (i.store.makeClass name superclass table).2 }.define name
        (.classObject (i.store.makeClass name superclass table).1))
      ({ j with store := (j.store.makeClass name superclass' table').2 }.define name
        (.classObject (j.store.makeClass name superclass' table').1)) := by
  obtain ⟨hc, hstore⟩ := h.store.makeClass name hsuperclass htable
  exact (h.of_store (.refl μ) hstore h.active).define_fixed hname ⟨_, rfl, hc⟩

theorem declareBase {name : String} (hname : ξ.text (isMarked marks 0) name = name)
    {methods methods' : List FunctionDecl}
    (hmethods : FunctionDecl.ExchangedAll ξ (false :: marks) methods methods') :
    (i.declareClass name none methods).Exchanged ξ μ marks (j.declareClass name none methods') := by
  have hdefine := h.define_fixed hname (v := .nil) (w := .nil) rfl
  obtain ⟨htable, hi⟩ := hdefine.closeOverMethods .empty hmethods
  exact hi.bindClass hname .none htable

theorem declareDerived {name : String} (hname : ξ.text (isMarked marks 0) name = name) {c d : Class}
    (hc : c.Exchanged ξ μ d) {methods methods' : List FunctionDecl}
    (hmethods : FunctionDecl.ExchangedAll ξ (false :: false :: marks) methods methods') :
    ∃ μ', μ.Extends μ' ∧
      (i.declareClass name (some c) methods).Exchanged ξ μ' marks (j.declareClass name (some d) methods') := by
  have hdefine := h.define_fixed hname (v := .nil) (w := .nil) rfl
  obtain ⟨μ', hμ, htable, hi⟩ := hdefine.closeOverDerived hc hmethods
  exact ⟨μ', hμ, hi.bindClass hname (.some (hc.mono hμ)) htable⟩

/-! ## Properties -/

theorem bind {f g : Function} (hf : f.Exchanged ξ μ [false] g) (hv : v.Exchanged ξ μ w) :
    ∃ μ', μ.Extends μ' ∧ (i.store.bind f v).1.Exchanged ξ μ' [] (j.store.bind g w).1 ∧
      Interpreter.Exchanged ξ μ' marks { i with store := (i.store.bind f v).2 }
        { j with store := (j.store.bind g w).2 } := by
  obtain ⟨μ', hμ, hbound, hstore⟩ := h.store.bind hf hv
  exact ⟨μ', hμ, hbound, h.of_store hμ hstore h.active⟩

theorem property (hv : v.Exchanged ξ μ w) (name : String) :
    ∃ μ', μ.Extends μ' ∧ Outcome.Exchanged ξ μ' (i.property v name).1 (j.property w name).1 ∧
      (i.property v name).2.Exchanged ξ μ' marks (j.property w name).2 := by
  cases v with
  | «instance» id =>
    cases hv
    unfold Interpreter.property
    dsimp only
    obtain ⟨hs, hu⟩ | ⟨x, y, hs, hu, hxy⟩ := rel_cases (h.store.field? id name)
    · rw [hs, hu]
      dsimp only
      obtain ⟨hs, hu⟩ | ⟨c, d, hs, hu, hc⟩ := rel_cases (h.store.parent? id)
      · rw [hs, hu]
        exact ⟨μ, .refl μ, .error _, h⟩
      · rw [hs, hu, Option.bind_some, Option.bind_some]
        obtain ⟨hs, hu⟩ | ⟨f, g, hs, hu, hf⟩ := rel_cases (hc.methods name)
        · rw [hs, hu]
          exact ⟨μ, .refl μ, .error _, h⟩
        · rw [hs, hu]
          obtain ⟨μ', hμ, hbound, hi⟩ := h.bind hf (v := .instance id) (w := .instance id) rfl
          exact ⟨μ', hμ, .ok ⟨_, rfl, hbound⟩, hi⟩
    · rw [hs, hu]
      exact ⟨μ, .refl μ, .ok hxy, h.retain hxy⟩
  | array id =>
    cases hv
    unfold Interpreter.property
    dsimp only
    split
    · exact ⟨μ, .refl μ, .ok rfl, h.retain rfl⟩
    · exact ⟨μ, .refl μ, .ok rfl, h.retain rfl⟩
    · rw [h.store.length]
      exact ⟨μ, .refl μ, .ok rfl, h⟩
    · exact ⟨μ, .refl μ, .error _, h⟩
  | function f =>
    obtain ⟨g, rfl, -⟩ := hv
    exact ⟨μ, .refl μ, .error _, h⟩
  | classObject c =>
    obtain ⟨d, rfl, -⟩ := hv
    exact ⟨μ, .refl μ, .error _, h⟩
  | _ =>
    cases hv
    exact ⟨μ, .refl μ, .error _, h⟩

theorem findAt?_fixed (distance : Nat) {name : String} (hname : ∀ mark, ξ.text mark name = name) :
    Option.Rel (Value.Exchanged ξ μ) (i.store.arena.findAt? i.active distance name)
      (j.store.arena.findAt? j.active distance name) := by
  have hfind := h.store.arena.findAt? h.store.covers h.around distance name
  rw [hname] at hfind
  rw [h.active]
  exact hfind

theorem superMethod (ref : Reference) (name : String) :
    ∃ μ', μ.Extends μ' ∧
      Outcome.Exchanged ξ μ' (i.superMethod ref name).1 (j.superMethod (ref.exchange ξ marks) name).1 ∧
      (i.superMethod ref name).2.Exchanged ξ μ' marks (j.superMethod (ref.exchange ξ marks) name).2 := by
  have herror : ∀ cause : RuntimeError, ∃ μ', μ.Extends μ' ∧
      Outcome.Exchanged ξ μ' (.error cause) (.error cause) ∧ i.Exchanged ξ μ' marks j :=
    fun cause => ⟨μ, .refl μ, .error cause, h⟩
  unfold Interpreter.superMethod
  rw [h.same, Reference.exchange_id]
  cases i.distances[ref.id]? with
  | none => exact herror _
  | some distance =>
    dsimp only
    obtain ⟨hs, hu⟩ | ⟨x, y, hs, hu, hxy⟩ := rel_cases (h.findAt?_fixed distance ξ.text_super)
    · rw [hs, hu]
      exact herror _
    · rw [hs, hu]
      cases x with
      | classObject c =>
        obtain ⟨d, rfl, hc⟩ := hxy
        cases distance with
        | zero => exact herror _
        | succ inner =>
          dsimp only
          obtain ⟨hs, hu⟩ | ⟨x, y, hs, hu, hxy⟩ := rel_cases (h.findAt?_fixed inner ξ.text_this)
          · rw [hs, hu]
            exact herror _
          · rw [hs, hu]
            cases x with
            | «instance» id =>
              cases hxy
              dsimp only
              obtain ⟨hs, hu⟩ | ⟨f, g, hs, hu, hf⟩ := rel_cases (hc.methods name)
              · rw [hs, hu]
                exact herror _
              · rw [hs, hu]
                obtain ⟨μ', hμ, hbound, hi⟩ := h.bind hf (v := .instance id) (w := .instance id) rfl
                exact ⟨μ', hμ, .ok ⟨_, rfl, hbound⟩, hi⟩
            | function f =>
              obtain ⟨g, rfl, -⟩ := hxy
              exact herror _
            | classObject c =>
              obtain ⟨d, rfl, -⟩ := hxy
              exact herror _
            | _ =>
              cases hxy
              exact herror _
      | function f =>
        obtain ⟨g, rfl, -⟩ := hxy
        exact herror _
      | _ =>
        cases hxy
        exact herror _

/-! ## Output and built-in functions -/

theorem write (text : String) :
    (j.write text).1 = (i.write text).1 ∧ (i.write text).2.Exchanged ξ μ marks (j.write text).2 := by
  unfold Interpreter.write
  rw [h.sink]
  exact ⟨rfl, h.store, h.around, h.active, h.distances, h.same, rfl, h.clock⟩

theorem writeLine (hv : v.Exchanged ξ μ w) :
    (j.writeLine w).1 = (i.writeLine v).1 ∧ (i.writeLine v).2.Exchanged ξ μ marks (j.writeLine w).2 := by
  unfold Interpreter.writeLine
  rw [h.store.display hv]
  exact h.write _

/-- What is made is an array in both, with the like in it. -/
theorem allocateArray {elements elements' : Array Value}
    (helements : ∀ k : Nat, Option.Rel (Value.Exchanged ξ μ) elements[k]? elements'[k]?) :
    NativeResult.Exchanged ξ μ (.value (.array (i.store.allocate (.array elements)).1))
        (.value (.array (j.store.allocate (.array elements')).1)) ∧
      Interpreter.Exchanged ξ μ marks { i with store := (i.store.allocate (.array elements)).2 }
        { j with store := (j.store.allocate (.array elements')).2 } := by
  obtain ⟨hid, hstore⟩ := h.store.allocate (.array helements)
  exact ⟨.value (congrArg Value.array hid), h.of_store (.refl μ) hstore h.active⟩

theorem allocateCopy (hv : v.Exchanged ξ μ w) :
    NativeResult.Exchanged ξ μ (.value (.array ((i.store.retain v).allocate (.array #[v])).1))
        (.value (.array ((j.store.retain w).allocate (.array #[w])).1)) ∧
      Interpreter.Exchanged ξ μ marks { i with store := ((i.store.retain v).allocate (.array #[v])).2 }
        { j with store := ((j.store.retain w).allocate (.array #[w])).2 } := by
  have hretain := h.retain hv
  exact hretain.allocateArray (rel_push (R := fun _ => Value.Exchanged ξ μ) (a := #[]) (b := #[]) (fun _ => .none) hv)

theorem callNative (n : Native) (hvalues : List.Forall₂ (Value.Exchanged ξ μ) values values') :
    NativeResult.Exchanged ξ μ (i.callNative n values).1 (j.callNative n values').1 ∧
      (i.callNative n values).2.Exchanged ξ μ marks (j.callNative n values').2 := by
  cases n with
  | clock =>
    unfold Interpreter.callNative
    rw [h.clock]
    exact ⟨.value rfl, h.store, h.around, h.active, h.distances, h.same, h.sink, rfl⟩
  | clear =>
    obtain ⟨hcause, hi⟩ := h.write clearSequence
    unfold Interpreter.callNative
    dsimp only
    revert hcause hi
    rcases i.write clearSequence with ⟨cause, i'⟩
    rcases j.write clearSequence with ⟨cause', j'⟩
    rintro hcause hi
    cases show cause' = cause from hcause
    cases cause with
    | some cause => exact ⟨.error _, hi⟩
    | none =>
      dsimp only at hi ⊢
      rw [hi.sink]
      cases i'.sink.flush with
      | some cause => exact ⟨.error _, hi⟩
      | none => exact ⟨.value rfl, hi⟩
  | sleep =>
    cases hvalues with
    | nil => exact ⟨.error _, h⟩
    | @cons v w _ _ hv _ =>
      cases v with
      | number x =>
        cases hv
        unfold Interpreter.callNative
        dsimp only
        rw [h.clock]
        split
        · cases i.clock.wait? x with
          | none => exact ⟨.crash, h⟩
          | some clock => exact ⟨.value rfl, h.store, h.around, h.active, h.distances, h.same, h.sink, rfl⟩
        · exact ⟨.error _, h⟩
      | function f =>
        obtain ⟨g, rfl, -⟩ := hv
        exact ⟨.error _, h⟩
      | classObject c =>
        obtain ⟨d, rfl, -⟩ := hv
        exact ⟨.error _, h⟩
      | _ =>
        cases hv
        exact ⟨.error _, h⟩
  | array =>
    cases hvalues with
    | nil => exact h.allocateArray fun _ => .none
    | @cons v w _ _ hv _ =>
      have hcopy := h.allocateCopy hv
      cases v with
      | number x =>
        cases hv
        unfold Interpreter.callNative
        dsimp only
        cases Number.toNat? x with
        | none => exact ⟨.error _, h⟩
        | some size =>
          dsimp only
          split
          · exact ⟨.error _, h⟩
          · refine h.allocateArray fun k => ?_
            rw [Array.getElem?_replicate]
            split
            · exact .some rfl
            · exact .none
      | function f =>
        obtain ⟨g, rfl, -⟩ := hv
        exact hcopy
      | classObject c =>
        obtain ⟨d, rfl, -⟩ := hv
        exact hcopy
      | _ =>
        cases hv
        exact hcopy

end

end Interpreter.Exchanged

end Lox
