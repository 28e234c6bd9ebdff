import Lox.Proofs.Failures
import Lox.Proofs.Locals.Interpreter
import Lox.Proofs.Reclamation.Machine

/-!
# Machines under other names

Two machines that run code with different names for local variables take the same steps, as long as what
resolution has found is found at run time.
-/
namespace Lox

section

variable (ξ : Exchange) (μ : Marking) (marks : List Bool)

inductive Control.Exchanged : Control → Control → Prop where
  | eval (e : Expr) : Control.Exchanged (.eval e) (.eval (e.exchange ξ marks))
  | exec {s s'} (h : Stmt.Exchanged ξ marks s s') : Control.Exchanged (.exec s) (.exec s')
  | yield {v w} (h : Value.Exchanged ξ μ v w) : Control.Exchanged (.yield v) (.yield w)
  | done : Control.Exchanged .done .done
  | returning {v w} (h : Value.Exchanged ξ μ v w) : Control.Exchanged (.returning v) (.returning w)
  | failed (failure : Failure) : Control.Exchanged (.failed failure) (.failed failure)
  | crashed : Control.Exchanged .crashed .crashed

/-- What remains to be done in the frame with these marks. -/
inductive Cont.Exchanged : Cont → Cont → Prop where
  | unary (op : UnaryOp) (line : Nat) : Cont.Exchanged (.unary op line) (.unary op line)
  | left (op : BinaryOp) (line : Nat) (e : Expr) :
    Cont.Exchanged (.left op line e) (.left op line (e.exchange ξ marks))
  | right (op : BinaryOp) (line : Nat) {v w} (h : Value.Exchanged ξ μ v w) :
    Cont.Exchanged (.right op line v) (.right op line w)
  | logical (op : LogicalOp) (e : Expr) : Cont.Exchanged (.logical op e) (.logical op (e.exchange ξ marks))
  | assign (ref : Reference) : Cont.Exchanged (.assign ref) (.assign (ref.exchange ξ marks))
  | callee (line : Nat) (arguments : List Expr) :
    Cont.Exchanged (.callee line arguments) (.callee line (Expr.exchangeAll ξ marks arguments))
  | argument (line : Nat) {v w} (h : Value.Exchanged ξ μ v w) {ready ready'}
    (hready : List.Forall₂ (Value.Exchanged ξ μ) ready ready') (rest : List Expr) :
    Cont.Exchanged (.argument line v ready rest) (.argument line w ready' (Expr.exchangeAll ξ marks rest))
  | get (name : Ident) : Cont.Exchanged (.get name) (.get name)
  | target (name : Ident) (value : Expr) :
    Cont.Exchanged (.target name value) (.target name (value.exchange ξ marks))
  | field (receiver : ObjectId) (name : Ident) : Cont.Exchanged (.field receiver name) (.field receiver name)
  | drop : Cont.Exchanged .drop .drop
  | print : Cont.Exchanged .print .print
  | define (name : Ident) : Cont.Exchanged (.define name) (.define (name.exchange ξ (isMarked marks 0)))
  | branch {yes yes' no no'} (hyes : Stmt.Exchanged ξ marks yes yes')
    (hno : Option.Rel (Stmt.Exchanged ξ marks) no no') : Cont.Exchanged (.branch yes no) (.branch yes' no')
  | test (condition : Expr) {body body'} (h : Stmt.Exchanged ξ marks body body') :
    Cont.Exchanged (.test condition body) (.test (condition.exchange ξ marks) body')
  | round (condition : Expr) {body body'} (h : Stmt.Exchanged ξ marks body body') :
    Cont.Exchanged (.round condition body) (.round (condition.exchange ξ marks) body')
  | sequence {rest rest'} (h : Stmt.ExchangedAll ξ marks rest rest') :
    Cont.Exchanged (.sequence rest) (.sequence rest')
  | result : Cont.Exchanged .result .result
  | superclass {name parent parent' : Ident} {methods methods'}
    (hname : ξ.text (isMarked marks 0) name.text = name.text) (hline : parent'.line = parent.line)
    (hmethods : FunctionDecl.ExchangedAll ξ (false :: false :: marks) methods methods') :
    Cont.Exchanged (.superclass name parent methods) (.superclass name parent' methods')
  | finish {f g} (h : Function.Exchanged ξ μ [] f g) : Cont.Exchanged (.finish f) (.finish g)
  | construct (receiver : ObjectId) : Cont.Exchanged (.construct receiver) (.construct receiver)

end

/-- What remains when a frame is left has the marks of the frame that is gone back to. -/
inductive Cont.ExchangedAll (ξ : Exchange) (μ : Marking) : List Bool → List Cont → List Cont → Prop where
  | nil : Cont.ExchangedAll ξ μ [] [] []
  | cons {marks k k' rest rest'} (h : Cont.Exchanged ξ μ marks k k') (hrest : Cont.ExchangedAll ξ μ marks rest rest') :
    Cont.ExchangedAll ξ μ marks (k :: rest) (k' :: rest')
  | leave {marks outer previous rest rest'} (frame : Handle) (h : μ previous = some outer)
    (hrest : Cont.ExchangedAll ξ μ outer rest rest') :
    Cont.ExchangedAll ξ μ marks (.leave previous frame :: rest) (.leave previous frame :: rest')

structure Machine.Exchanged (ξ : Exchange) (μ : Marking) (marks : List Bool) (m n : Machine) : Prop where
  control : m.control.Exchanged ξ μ marks n.control
  stack : Cont.ExchangedAll ξ μ marks m.stack n.stack
  state : m.state.Exchanged ξ μ marks n.state

/-- The machines go on beside each other, perhaps in frames that have been made meanwhile. -/
def Machine.Beside (ξ : Exchange) (μ : Marking) (m n : Machine) : Prop :=
  ∃ μ' marks, μ.Extends μ' ∧ m.Exchanged ξ μ' marks n

/-- What resolution has found for the next reference is there. -/
def Machine.Resolved (ξ : Exchange) (m : Machine) : Prop :=
  ∀ ref, m.reference? = some ref → ξ.distances ref.id ≠ none → m.state.lookup? ref ≠ none

/-- The machine finds what resolution has found, and gives values only to what takes them. -/
structure Machine.Proper (ξ : Exchange) (m : Machine) : Prop where
  resolved : m.Resolved ξ
  fits : ∀ b, m.control.givesValue? = some b → Machine.Fits b m.stack

variable {ξ : Exchange} {μ μ' : Marking} {marks : List Bool}

theorem forall₂_mono {values values' : List Value} (h : List.Forall₂ (Value.Exchanged ξ μ) values values')
    (hμ : μ.Extends μ') : List.Forall₂ (Value.Exchanged ξ μ') values values' := h.imp fun _ _ hv => hv.mono hμ

theorem Cont.Exchanged.mono {k k' : Cont} (h : k.Exchanged ξ μ marks k') (hμ : μ.Extends μ') :
    k.Exchanged ξ μ' marks k' := by
  cases h with
  | unary op line => exact .unary op line
  | left op line e => exact .left op line e
  | right op line h => exact .right op line (h.mono hμ)
  | logical op e => exact .logical op e
  | assign ref => exact .assign ref
  | callee line arguments => exact .callee line arguments
  | argument line h hready rest => exact .argument line (h.mono hμ) (forall₂_mono hready hμ) rest
  | get name => exact .get name
  | target name value => exact .target name value
  | field receiver name => exact .field receiver name
  | drop => exact .drop
  | print => exact .print
  | define name => exact .define name
  | branch hyes hno => exact .branch hyes hno
  | test condition h => exact .test condition h
  | round condition h => exact .round condition h
  | sequence h => exact .sequence h
  | result => exact .result
  | superclass hname hline hmethods => exact .superclass hname hline hmethods
  | finish h => exact .finish (h.mono hμ)
  | construct receiver => exact .construct receiver

theorem Cont.ExchangedAll.mono {stack stack' : List Cont} (h : Cont.ExchangedAll ξ μ marks stack stack')
    (hμ : μ.Extends μ') : Cont.ExchangedAll ξ μ' marks stack stack' := by
  induction h with
  | nil => exact .nil
  | cons h _ ih => exact .cons (h.mono hμ) ih
  | leave frame h _ ih => exact .leave frame (hμ _ _ h) ih

namespace Machine

theorem Exchanged.beside {m n : Machine} (h : m.Exchanged ξ μ marks n) : m.Beside ξ μ n :=
  ⟨μ, marks, .refl μ, h⟩

theorem Beside.extends {m n : Machine} (h : m.Beside ξ μ' n) (hμ : μ.Extends μ') : m.Beside ξ μ n := by
  obtain ⟨μ'', marks, hμ', hm⟩ := h
  exact ⟨μ'', marks, hμ.trans hμ', hm⟩

theorem Exchanged.isFinal {m n : Machine} (h : m.Exchanged ξ μ marks n) : n.isFinal = m.isFinal := by
  obtain ⟨control, stack, i⟩ := m
  obtain ⟨control', stack', j⟩ := n
  obtain ⟨hcontrol, hstack, -⟩ := h
  cases hcontrol <;> cases hstack <;> rfl

variable {stack stack' : List Cont} {i j : Interpreter} {v w : Value} {values values' : List Value}
  {f g : Function}

theorem ofResult_exchanged (line : Nat) {r r' : Except RuntimeError Value} (h : Outcome.Exchanged ξ μ r r') :
    (ofResult line r).Exchanged ξ μ marks (ofResult line r') := by
  cases h with
  | ok h => exact .yield h
  | error cause => exact .failed _

section

variable (hstack : Cont.ExchangedAll ξ μ marks stack stack') (hi : i.Exchanged ξ μ marks j)

include hi

/-! ## Calls -/

omit hi in
theorem foldl_define_exchanged {i j : Interpreter} {mark : Bool} {outer : List Bool}
    (hi : i.Exchanged ξ μ (mark :: outer) j) (params : List Ident)
    (hvalues : List.Forall₂ (Value.Exchanged ξ μ) values values') :
    ((params.zip values).foldl (fun i (p, v) => i.define p.text v) i).Exchanged ξ μ (mark :: outer)
      (((params.map (Ident.exchange ξ mark)).zip values').foldl (fun i (p, v) => i.define p.text v) j) := by
  induction params generalizing i j values values' with
  | nil => exact hi
  | cons param rest ih =>
    cases hvalues with
    | nil => exact hi
    | cons hv hrest => exact ih (hi.define param.text hv) hrest

theorem giveUp_exchanged (hv : v.Exchanged ξ μ w) (hvalues : List.Forall₂ (Value.Exchanged ξ μ) values values') :
    ((i.discardAll values).discard v).Exchanged ξ μ marks ((j.discardAll values').discard w) :=
  (hi.discardAll hvalues).discard hv

include hstack

/-- The body runs in a frame whose scope is marked if parameters or locals have other names. -/
theorem callFunction_exchanged (line : Nat) (hf : f.Exchanged ξ μ [] g)
    (hvalues : List.Forall₂ (Value.Exchanged ξ μ) values values') :
    Beside ξ μ (callFunction line f values stack i) (callFunction line g values' stack' j) := by
  unfold callFunction
  rw [hf.closure, hi.store.arena.contains]
  split
  · obtain ⟨outer, houter, hcode⟩ := hf.code
    have hdecl := hcode
    rcases hdf : f.decl with ⟨name, params, body⟩
    rcases hdg : g.decl with ⟨name', params', body'⟩
    rw [hdf, hdg] at hcode
    cases hcode with
    | mk mark hbody =>
      obtain ⟨μ', hμ, henter⟩ := hi.enter houter mark
      have hbound := foldl_define_exchanged henter params (forall₂_mono hvalues hμ)
      have hfinish : Cont.ExchangedAll ξ μ' marks (.finish f :: stack) (.finish g :: stack') :=
        .cons (.finish (hf.mono hμ)) (hstack.mono hμ)
      have hleave : Cont.ExchangedAll ξ μ' (mark :: outer) _ _ := .leave (((params.zip values).foldl
        (fun i (p, v) => i.define p.text v) (i.enter f.closure)).active) (hμ _ _ hi.around) hfinish
      refine ⟨μ', mark :: outer, hμ, .done, .cons (.sequence hbody) ?_, hbound⟩
      dsimp only
      rw [hbound.active, hi.active]
      exact hleave
  · rw [hf.name]
    have hgive := giveUp_exchanged hi (v := .function f) (w := .function g) ⟨g, rfl, hf⟩ hvalues
    exact Exchanged.beside ⟨.failed _, hstack, hgive.drain⟩

theorem instantiate_exchanged (line : Nat) {c d : Class} (hc : c.Exchanged ξ μ d)
    (hvalues : List.Forall₂ (Value.Exchanged ξ μ) values values') :
    Beside ξ μ (instantiate line c values stack i) (instantiate line d values' stack' j) := by
  obtain ⟨hid, hstore⟩ := hi.store.allocate (.instance hc .empty)
  have hallocated := hi.of_store (.refl μ) hstore hi.active
  unfold instantiate
  revert hid hallocated
  rcases i.store.allocate (.instance c Bindings.empty) with ⟨id, s⟩
  rcases j.store.allocate (.instance d Bindings.empty) with ⟨id', u⟩
  intro hid hallocated
  cases show id' = id from hid
  dsimp only at hallocated ⊢
  obtain ⟨hs, hu⟩ | ⟨f, g, hs, hu, hf⟩ := rel_cases (hc.methods initializerName)
  · rw [hs, hu]
    exact Exchanged.beside ⟨.yield rfl, hstack, hallocated⟩
  · rw [hs, hu]
    obtain ⟨μ', hμ, hbound, hbind⟩ := hallocated.bind hf (v := .instance id) (w := .instance id) rfl
    exact (callFunction_exchanged (.cons (.construct id) (hstack.mono hμ)) hbind line hbound
      (forall₂_mono hvalues hμ)).extends hμ

omit hstack in
theorem callArrayMethod_exchanged (id : ObjectId) (method : ArrayMethod)
    (hvalues : List.Forall₂ (Value.Exchanged ξ μ) values values') :
    (callArrayMethod id method values i).1.Exchanged ξ μ (callArrayMethod id method values' j).1 ∧
      (callArrayMethod id method values i).2.Exchanged ξ μ marks (callArrayMethod id method values' j).2 := by
  cases method with
  | get =>
    cases hvalues with
    | nil => exact ⟨rfl, hi⟩
    | cons hindex hrest =>
      have helement := hi.store.element id hindex
      exact ⟨helement, hi.retain helement⟩
  | set =>
    cases hvalues with
    | nil => exact ⟨rfl, hi⟩
    | cons hindex hrest =>
      cases hrest with
      | nil => exact ⟨rfl, hi⟩
      | cons hv hrest =>
        obtain ⟨hresult, hstore⟩ := hi.store.setElement id hindex hv
        exact ⟨hresult, (hi.of_store (.refl μ) hstore hi.active).retain hresult⟩

theorem call_exchanged (line : Nat) (hv : v.Exchanged ξ μ w)
    (hvalues : List.Forall₂ (Value.Exchanged ξ μ) values values') :
    Beside ξ μ (call line v values stack i) (call line w values' stack' j) := by
  have hgive := giveUp_exchanged hi hv hvalues
  have hfailed : ∀ cause, Beside ξ μ ⟨fail line cause, stack, (i.discardAll values).discard v⟩
      ⟨fail line cause, stack', (j.discardAll values').discard w⟩ :=
    fun cause => Exchanged.beside ⟨.failed _, hstack, hgive⟩
  unfold call
  rw [hv.arity?, ← hvalues.length_eq]
  cases v.arity? with
  | none => exact hfailed _
  | some arity =>
    dsimp only
    split
    · cases v with
      | native n =>
        cases hv
        obtain ⟨hresult, hcalled⟩ := hi.callNative n hvalues
        dsimp only
        revert hresult hcalled
        rcases i.callNative n values with ⟨r, i'⟩
        rcases j.callNative n values' with ⟨r', j'⟩
        intro hresult hcalled
        cases hresult with
        | value h => exact Exchanged.beside ⟨.yield h, hstack, hcalled.discardAll hvalues⟩
        | error cause => exact Exchanged.beside ⟨.failed _, hstack, hcalled.discardAll hvalues⟩
        | crash => exact Exchanged.beside ⟨.crashed, hstack, hcalled⟩
      | function f =>
        obtain ⟨g, rfl, hf⟩ := hv
        exact callFunction_exchanged hstack hi line hf hvalues
      | classObject c =>
        obtain ⟨d, rfl, hc⟩ := hv
        exact instantiate_exchanged hstack hi line hc hvalues
      | arrayMethod id method =>
        cases hv
        obtain ⟨hresult, hcalled⟩ := callArrayMethod_exchanged hi id method hvalues
        exact Exchanged.beside ⟨.yield hresult, hstack,
          giveUp_exchanged hcalled (v := .arrayMethod id method) (w := .arrayMethod id method) rfl hvalues⟩
      | _ =>
        cases hv
        exact hfailed _
    · exact hfailed _

omit hstack in
theorem callResult_exchanged (hf : f.Exchanged ξ μ [] g) (hv : v.Exchanged ξ μ w) :
    (callResult f v i).1.Exchanged ξ μ (callResult g w j).1 ∧
      (callResult f v i).2.Exchanged ξ μ marks (callResult g w j).2 := by
  unfold callResult
  rw [hf.isInitializer, hf.closure]
  split
  · have hthis : ((i.store.arena.find? f.closure "this").getD .nil).Exchanged ξ μ
        ((j.store.arena.find? f.closure "this").getD .nil) := by
      have hfind := hi.store.arena.find? f.closure "this"
      rw [ξ.text_this] at hfind
      obtain ⟨hs, hu⟩ | ⟨x, y, hs, hu, hxy⟩ := rel_cases hfind
      · rw [hs, hu]
        exact rfl
      · rw [hs, hu]
        exact hxy
    exact ⟨hthis, (hi.retain hthis).discard hv⟩
  · exact ⟨hv, hi⟩

theorem finishCall_exchanged (hf : f.Exchanged ξ μ [] g) (hv : v.Exchanged ξ μ w) :
    Beside ξ μ (finishCall f v stack i) (finishCall g w stack' j) := by
  obtain ⟨hresult, hreturned⟩ := callResult_exchanged hi hf hv
  exact Exchanged.beside ⟨.yield hresult, hstack,
    (hreturned.discard (v := .function f) (w := .function g) ⟨g, rfl, hf⟩).drain⟩

/-! ## Steps -/

/-- Only a global can be missing, and globals keep their names. -/
theorem variable_exchanged (ref : Reference) (hfound : ξ.distances ref.id ≠ none → i.lookup? ref ≠ none) :
    Beside ξ μ (evalStep (.variable ref) stack i) (evalStep (.variable (ref.exchange ξ marks)) stack' j) := by
  unfold evalStep
  dsimp only
  obtain ⟨hs, hu⟩ | ⟨x, y, hs, hu, hxy⟩ := rel_cases (hi.lookup? ref)
  · have hglobal : ξ.distances ref.id = none := by
      by_contra hsome
      exact hfound hsome hs
    rw [hs, hu, Reference.exchange_of_none hglobal]
    exact Exchanged.beside ⟨.failed _, hstack, hi⟩
  · rw [hs, hu]
    exact Exchanged.beside ⟨.yield hxy, hstack, hi.retain hxy⟩

theorem super_exchanged (ref : Reference) (method : Ident) :
    Beside ξ μ (evalStep (.super ref method) stack i) (evalStep (.super (ref.exchange ξ marks) method) stack' j) := by
  obtain ⟨μ', hμ, hresult, hi'⟩ := hi.superMethod ref method.text
  unfold evalStep
  dsimp only
  revert hresult hi'
  rcases i.superMethod ref method.text with ⟨r, i'⟩
  rcases j.superMethod (ref.exchange ξ marks) method.text with ⟨r', j'⟩
  intro hresult hi'
  cases hresult with
  | ok h => exact ⟨μ', marks, hμ, .yield h, hstack.mono hμ, hi'⟩
  | error cause =>
    rw [Reference.exchange_line]
    cases cause <;> exact ⟨μ', marks, hμ, .failed _, hstack.mono hμ, hi'⟩

theorem evalStep_exchanged (e : Expr) (hresolved : Resolved ξ ⟨.eval e, stack, i⟩) :
    Beside ξ μ (evalStep e stack i) (evalStep (e.exchange ξ marks) stack' j) := by
  cases e with
  | literal value => exact Exchanged.beside ⟨.yield (.literal value), hstack, hi⟩
  | grouping inner => exact Exchanged.beside ⟨.eval inner, hstack, hi⟩
  | unary op line operand => exact Exchanged.beside ⟨.eval operand, .cons (.unary op line) hstack, hi⟩
  | binary op line left right => exact Exchanged.beside ⟨.eval left, .cons (.left op line right) hstack, hi⟩
  | logical op line left right => exact Exchanged.beside ⟨.eval left, .cons (.logical op right) hstack, hi⟩
  | «variable» ref => exact variable_exchanged hstack hi ref (hresolved ref rfl)
  | this ref => exact variable_exchanged hstack hi ref (hresolved ref rfl)
  | assign ref value => exact Exchanged.beside ⟨.eval value, .cons (.assign ref) hstack, hi⟩
  | call callee line arguments => exact Exchanged.beside ⟨.eval callee, .cons (.callee line arguments) hstack, hi⟩
  | get object name => exact Exchanged.beside ⟨.eval object, .cons (.get name) hstack, hi⟩
  | set object name value => exact Exchanged.beside ⟨.eval object, .cons (.target name value) hstack, hi⟩
  | super ref method => exact super_exchanged hstack hi ref method

theorem execStep_exchanged {s s' : Stmt} (hs : s.Exchanged ξ marks s') :
    Beside ξ μ (execStep s stack i) (execStep s' stack' j) := by
  cases hs with
  | @expression _ e => exact Exchanged.beside ⟨.eval e, .cons .drop hstack, hi⟩
  | @print _ e => exact Exchanged.beside ⟨.eval e, .cons .print hstack, hi⟩
  | @var _ name value =>
    cases value with
    | none => exact Exchanged.beside ⟨.done, hstack, hi.define name.text rfl⟩
    | some e => exact Exchanged.beside ⟨.eval e, .cons (.define name) hstack, hi⟩
  | block mark hbody =>
    obtain ⟨μ', hμ, henter⟩ := hi.enter hi.around mark
    have hleave : Cont.ExchangedAll ξ μ' (mark :: marks) _ _ :=
      .leave (i.enter i.active).active (hμ _ _ hi.around) (hstack.mono hμ)
    unfold execStep
    dsimp only
    rw [hi.active, henter.active]
    exact ⟨μ', mark :: marks, hμ, .done, .cons (.sequence hbody) hleave, henter⟩
  | @branch _ condition _ _ hyes =>
    exact Exchanged.beside ⟨.eval condition, .cons (.branch hyes .none) hstack, hi⟩
  | @branchElse _ condition _ _ _ _ hyes hno =>
    exact Exchanged.beside ⟨.eval condition, .cons (.branch hyes (.some hno)) hstack, hi⟩
  | @loop _ condition _ _ hbody =>
    exact Exchanged.beside ⟨.eval condition, .cons (.test condition hbody) hstack, hi⟩
  | function hname hdecl => exact Exchanged.beside ⟨.done, hstack, hi.declareFunction hname hdecl⟩
  | base hname hmethods => exact Exchanged.beside ⟨.done, hstack, hi.declareBase hname hmethods⟩
  | @derived _ name parent _ _ hname hmethods =>
    exact Exchanged.beside ⟨.eval (.variable parent),
      .cons (.superclass hname (Reference.exchange_line parent) hmethods) hstack, hi⟩
  | @ret _ line value =>
    cases value with
    | none => exact Exchanged.beside ⟨.returning rfl, hstack, hi⟩
    | some e => exact Exchanged.beside ⟨.eval e, .cons .result hstack, hi⟩

theorem assign_exchanged (ref : Reference) (hv : v.Exchanged ξ μ w)
    (hfound : ξ.distances ref.id ≠ none → i.lookup? ref ≠ none) :
    Beside ξ μ (yieldStep v (.assign ref) stack i) (yieldStep w (.assign (ref.exchange ξ marks)) stack' j) := by
  obtain ⟨hsame, hassigned⟩ := (hi.retain hv).assign ref hv
  have hlookup := (i.retain v).assign_found ref v
  rw [Interpreter.lookup?_retain] at hlookup
  unfold yieldStep
  dsimp only
  revert hsame hassigned hlookup
  rcases (i.retain v).assign ref v with ⟨found, i'⟩
  rcases (j.retain w).assign (ref.exchange ξ marks) w with ⟨found', j'⟩
  intro hsame hassigned hlookup
  cases show found' = found from hsame
  cases found with
  | true => exact Exchanged.beside ⟨.yield hv, hstack, hassigned⟩
  | false =>
    have hglobal : ξ.distances ref.id = none := by
      by_contra hsome
      exact hfound hsome (Option.isSome_eq_false_iff.1 hlookup.symm |> Option.isNone_iff_eq_none.1)
    rw [Reference.exchange_of_none hglobal]
    exact Exchanged.beside ⟨.failed _, hstack, hassigned.discard hv⟩

theorem target_exchanged (name : Ident) (value : Expr) (hv : v.Exchanged ξ μ w) :
    Beside ξ μ (yieldStep v (.target name value) stack i)
      (yieldStep w (.target name (value.exchange ξ marks)) stack' j) := by
  have hfailed : ∀ cause, Beside ξ μ ⟨fail name.line cause, stack, i.discard v⟩
      ⟨fail name.line cause, stack', j.discard w⟩ :=
    fun cause => Exchanged.beside ⟨.failed _, hstack, hi.discard hv⟩
  cases v with
  | «instance» id =>
    cases hv
    exact Exchanged.beside ⟨.eval value, .cons (.field id name) hstack, hi⟩
  | function f =>
    obtain ⟨g, rfl, -⟩ := hv
    exact hfailed _
  | classObject c =>
    obtain ⟨d, rfl, -⟩ := hv
    exact hfailed _
  | _ =>
    cases hv
    exact hfailed _

theorem superclass_exchanged {name parent parent' : Ident} {methods methods' : List FunctionDecl}
    (hname : ξ.text (isMarked marks 0) name.text = name.text) (hline : parent'.line = parent.line)
    (hmethods : FunctionDecl.ExchangedAll ξ (false :: false :: marks) methods methods') (hv : v.Exchanged ξ μ w) :
    Beside ξ μ (yieldStep v (.superclass name parent methods) stack i)
      (yieldStep w (.superclass name parent' methods') stack' j) := by
  have hfailed : Beside ξ μ ⟨fail parent.line .superclassNotClass, stack, i.discard v⟩
      ⟨fail parent'.line .superclassNotClass, stack', j.discard w⟩ := by
    rw [hline]
    exact Exchanged.beside ⟨.failed _, hstack, hi.discard hv⟩
  cases v with
  | classObject c =>
    obtain ⟨d, rfl, hc⟩ := hv
    obtain ⟨μ', hμ, hdeclared⟩ := hi.declareDerived hname hc hmethods
    exact ⟨μ', marks, hμ, .done, hstack.mono hμ, hdeclared⟩
  | function f =>
    obtain ⟨g, rfl, -⟩ := hv
    exact hfailed
  | _ =>
    cases hv
    exact hfailed

theorem yieldStep_exchanged {k k' : Cont} (hk : k.Exchanged ξ μ marks k') (hv : v.Exchanged ξ μ w)
    (hresolved : Resolved ξ ⟨.yield v, k :: stack, i⟩) :
    Beside ξ μ (yieldStep v k stack i) (yieldStep w k' stack' j) := by
  have hdiscard := hi.discard hv
  cases hk with
  | unary op line => exact Exchanged.beside ⟨ofResult_exchanged line (op.apply_exchanged hv), hstack, hdiscard⟩
  | left op line e => exact Exchanged.beside ⟨.eval e, .cons (.right op line hv) hstack, hi⟩
  | right op line hleft =>
    exact Exchanged.beside ⟨ofResult_exchanged line (op.apply_exchanged hleft hv), hstack,
      (hi.discard hleft).discard hv⟩
  | logical op e =>
    unfold yieldStep
    dsimp only
    rw [hv.isTruthy]
    split
    · exact Exchanged.beside ⟨.yield hv, hstack, hi⟩
    · exact Exchanged.beside ⟨.eval e, hstack, hdiscard⟩
  | assign ref => exact assign_exchanged hstack hi ref hv (hresolved ref rfl)
  | callee line arguments =>
    cases arguments with
    | nil => exact call_exchanged hstack hi line hv .nil
    | cons e rest => exact Exchanged.beside ⟨.eval e, .cons (.argument line hv .nil rest) hstack, hi⟩
  | argument line hcallee hready rest =>
    have hall := List.rel_append hready (.cons hv .nil)
    cases rest with
    | nil => exact call_exchanged hstack hi line hcallee hall
    | cons e rest => exact Exchanged.beside ⟨.eval e, .cons (.argument line hcallee hall rest) hstack, hi⟩
  | get name =>
    obtain ⟨μ', hμ, hresult, hi'⟩ := hi.property hv name.text
    exact ⟨μ', marks, hμ, ofResult_exchanged name.line hresult, hstack.mono hμ, hi'.discard (hv.mono hμ)⟩
  | target name value => exact target_exchanged hstack hi name value hv
  | field receiver name =>
    have hset := ((hi.store.retain hv).setField receiver name.text hv).discard (v := .instance receiver)
      (w := .instance receiver) rfl
    exact Exchanged.beside ⟨.yield hv, hstack, hi.of_store (.refl μ) hset hi.active⟩
  | drop => exact Exchanged.beside ⟨.done, hstack, hdiscard⟩
  | print =>
    obtain ⟨hcause, hwritten⟩ := hi.writeLine hv
    unfold yieldStep
    dsimp only
    revert hcause hwritten
    rcases i.writeLine v with ⟨cause, i'⟩
    rcases j.writeLine w with ⟨cause', j'⟩
    intro hcause hwritten
    cases show cause' = cause from hcause
    cases cause with
    | none => exact Exchanged.beside ⟨.done, hstack, hwritten.discard hv⟩
    | some cause => exact Exchanged.beside ⟨.failed _, hstack, hwritten.discard hv⟩
  | define name => exact Exchanged.beside ⟨.done, hstack, hi.define name.text hv⟩
  | branch hyes hno =>
    unfold yieldStep
    dsimp only
    rw [hv.isTruthy]
    split
    · exact Exchanged.beside ⟨.exec hyes, hstack, hdiscard⟩
    · cases hno with
      | none => exact Exchanged.beside ⟨.done, hstack, hdiscard⟩
      | some hno => exact Exchanged.beside ⟨.exec hno, hstack, hdiscard⟩
  | test condition hbody =>
    unfold yieldStep
    dsimp only
    rw [hv.isTruthy]
    split
    · exact Exchanged.beside ⟨.exec hbody, .cons (.round condition hbody) hstack, hdiscard⟩
    · exact Exchanged.beside ⟨.done, hstack, hdiscard⟩
  | result => exact Exchanged.beside ⟨.returning hv, hstack, hi⟩
  | superclass hname hline hmethods => exact superclass_exchanged hstack hi hname hline hmethods hv
  | construct receiver => exact Exchanged.beside ⟨.yield rfl, hstack, hdiscard⟩
  | round condition hbody => exact Exchanged.beside ⟨.yield hv, hstack, hi⟩
  | sequence hrest => exact Exchanged.beside ⟨.yield hv, hstack, hi⟩
  | finish hf => exact Exchanged.beside ⟨.yield hv, hstack, hi⟩

theorem doneStep_exchanged {k k' : Cont} (hk : k.Exchanged ξ μ marks k') :
    Beside ξ μ (doneStep k stack i) (doneStep k' stack' j) := by
  cases hk with
  | sequence hrest =>
    cases hrest with
    | nil => exact Exchanged.beside ⟨.done, hstack, hi⟩
    | cons hs hrest => exact Exchanged.beside ⟨.exec hs, .cons (.sequence hrest) hstack, hi⟩
  | round condition hbody => exact Exchanged.beside ⟨.eval condition, .cons (.test condition hbody) hstack, hi⟩
  | finish hf => exact finishCall_exchanged hstack hi hf (v := .nil) (w := .nil) rfl
  | _ => exact Exchanged.beside ⟨.done, hstack, hi⟩

theorem returnStep_exchanged {k k' : Cont} (hk : k.Exchanged ξ μ marks k') (hv : v.Exchanged ξ μ w) :
    Beside ξ μ (returnStep v k stack i) (returnStep w k' stack' j) := by
  cases hk with
  | finish hf => exact finishCall_exchanged hstack hi hf hv
  | _ => exact Exchanged.beside ⟨.returning hv, hstack, hi⟩

theorem failStep_exchanged (failure : Failure) {k k' : Cont} (hk : k.Exchanged ξ μ marks k') :
    Beside ξ μ (failStep failure k stack i) (failStep failure k' stack' j) := by
  have hinstance : ∀ receiver, (i.discard (.instance receiver)).Exchanged ξ μ marks (j.discard (.instance receiver)) :=
    fun receiver => hi.discard (v := .instance receiver) (w := .instance receiver) rfl
  cases hk with
  | right op line hleft => exact Exchanged.beside ⟨.failed _, hstack, hi.discard hleft⟩
  | argument line hcallee hready rest =>
    exact Exchanged.beside ⟨.failed _, hstack, giveUp_exchanged hi hcallee hready⟩
  | field receiver name => exact Exchanged.beside ⟨.failed _, hstack, hinstance receiver⟩
  | construct receiver => exact Exchanged.beside ⟨.failed _, hstack, hinstance receiver⟩
  | @finish f g hf =>
    exact Exchanged.beside ⟨.failed _, hstack,
      (hi.discard (v := .function f) (w := .function g) ⟨g, rfl, hf⟩).drain⟩
  | _ => exact Exchanged.beside ⟨.failed _, hstack, hi⟩

end

/-- Every step keeps the machines beside each other. -/
theorem Exchanged.step {m n : Machine} (h : m.Exchanged ξ μ marks n) (hm : m.Proper ξ) :
    m.step.Beside ξ μ n.step := by
  obtain ⟨control, stack, i⟩ := m
  obtain ⟨control', stack', j⟩ := n
  obtain ⟨hcontrol, hstack, hi⟩ := h
  cases hcontrol with
  | eval e => exact evalStep_exchanged hstack hi e hm.resolved
  | exec hs => exact execStep_exchanged hstack hi hs
  | yield hv =>
    cases hstack with
    | nil => exact Exchanged.beside ⟨.yield hv, .nil, hi⟩
    | cons hk hrest => exact yieldStep_exchanged hrest hi hk hv hm.resolved
    | leave frame hp hrest => exact absurd (hm.fits true rfl).1 nofun
  | done =>
    cases hstack with
    | nil => exact Exchanged.beside ⟨.done, .nil, hi⟩
    | cons hk hrest => exact doneStep_exchanged hrest hi hk
    | leave frame hp hrest => exact ⟨μ, _, .refl μ, .done, hrest, hi.leave hp frame⟩
  | returning hv =>
    cases hstack with
    | nil => exact Exchanged.beside ⟨.returning hv, .nil, hi⟩
    | cons hk hrest => exact returnStep_exchanged hrest hi hk hv
    | leave frame hp hrest => exact ⟨μ, _, .refl μ, .returning hv, hrest, hi.leave hp frame⟩
  | failed failure =>
    cases hstack with
    | nil => exact Exchanged.beside ⟨.failed failure, .nil, hi⟩
    | cons hk hrest => exact failStep_exchanged hrest hi failure hk
    | leave frame hp hrest => exact ⟨μ, _, .refl μ, .failed failure, hrest, hi.leave hp frame⟩
  | crashed => exact Exchanged.beside ⟨.crashed, hstack, hi⟩

end Machine

end Lox
