import Lox.Proofs.Growth
import Lox.Proofs.Reclamation.Unobservable
import Lox.Proofs.Resolution.Globals

/-!
# The names of globals

Only what is declared at the top level of a program becomes a global: everything else is executed inside
of activations, in frames of their own. The invariant is about the continuations that run outside of
all activations, and about what they still have to declare.
-/
namespace Lox

/-- The names that the continuation can bind in the frame that is active when it goes on. -/
def Cont.declares : Cont → List String
  | define name | superclass name _ _ => [name.text]
  | branch yes none => yes.declared
  | branch yes (some no) => yes.declared ++ no.declared
  | test _ body | round _ body => body.declared
  | sequence rest => rest.flatMap Stmt.declared
  | _ => []

def Control.declares : Control → List String
  | exec s => s.declared
  | _ => []

namespace Machine

variable {D : List String} {stack rest ks : List Cont} {m n : Machine}

theorem activations_append (h : activations ks = []) : activations (ks ++ rest) = activations rest := by
  induction ks with
  | nil => rfl
  | cons k ks ih =>
    cases k with
    | leave => cases h
    | _ => exact ih h

/-- What is still to be declared outside of all activations is in `D`. -/
def Pending (D : List String) : List Cont → Prop
  | [] => True
  | k :: rest => (activations rest = [] → ∀ x ∈ k.declares, x ∈ D) ∧ Pending D rest

theorem pending_append (h : activations ks = []) : Pending D (ks ++ rest) ↔
    (activations rest = [] → ∀ x ∈ ks.flatMap Cont.declares, x ∈ D) ∧ Pending D rest := by
  induction ks with
  | nil => exact ⟨fun hrest => ⟨fun _ => nofun, hrest⟩, And.right⟩
  | cons k ks ih =>
    have hks : activations ks = [] := by
      cases k with
      | leave => cases h
      | _ => exact h
    rw [List.cons_append, Pending, ih hks, activations_append hks, List.flatMap_cons]
    simp only [List.mem_append]
    constructor
    · rintro ⟨hk, hks, hrest⟩
      exact ⟨fun he x hx => hx.elim (hk he x) (hks he x), hrest⟩
    · rintro ⟨hboth, hrest⟩
      exact ⟨fun he x hx => hboth he x (.inl hx), fun he x hx => hboth he x (.inr hx), hrest⟩

/-! ## How a step goes on -/

/-- A step stays where it is, goes into a new frame, or leaves one. -/
inductive Flows (m : Machine) : Machine → Prop where
  | goes (popped pushed : List Cont) {rest : List Cont} {c : Control} {i : Interpreter}
      (hstack : m.stack = popped ++ rest) (hpopped : activations popped = [])
      (hpushed : activations pushed = [])
      (hdeclares : ∀ x ∈ c.declares ++ pushed.flatMap Cont.declares,
        x ∈ m.control.declares ++ popped.flatMap Cont.declares) : Flows m ⟨c, pushed ++ rest, i⟩
  | enters (popped pushed : List Cont) {rest : List Cont} {previous : Handle} {body : List Stmt}
      {i : Interpreter} (hstack : m.stack = popped ++ rest) (hpopped : activations popped = [])
      (hpushed : activations pushed = []) (hnone : pushed.flatMap Cont.declares = [])
      (hnew : ¬ m.state.store.arena.Issued i.active) :
      Flows m ⟨.done, .sequence body :: .leave previous i.active :: (pushed ++ rest), i⟩
  | leaves {previous frame : Handle} {rest : List Cont} {c : Control} {i : Interpreter}
      (hstack : m.stack = .leave previous frame :: rest) (hnone : c.declares = []) :
      Flows m ⟨c, rest, i⟩

variable {i j : Interpreter} {c c' : Control} {k : Cont}

namespace Flows

/-- Nothing is pushed, and nothing more is to be declared. -/
theorem pop (hk : activations [k] = []) (hc : c'.declares = []) :
    Flows ⟨c, k :: stack, i⟩ ⟨c', stack, j⟩ := by
  refine .goes [k] [] rfl hk rfl fun x hx => ?_
  rw [hc] at hx
  cases hx

/-- Nothing is popped. -/
theorem push (ks : List Cont) (hks : activations ks = [])
    (hdeclares : ∀ x ∈ c'.declares ++ ks.flatMap Cont.declares, x ∈ c.declares) :
    Flows ⟨c, stack, i⟩ ⟨c', ks ++ stack, j⟩ := by
  refine .goes [] ks rfl rfl hks fun x hx => ?_
  rw [List.flatMap_nil, List.append_nil]
  exact hdeclares x hx

end Flows

theorem flows_evalStep (e : Expr) : Flows ⟨.eval e, stack, i⟩ (evalStep e stack i) := by
  cases e with
  | «variable» ref | this ref =>
    unfold evalStep
    dsimp only
    split <;> exact .push [] rfl nofun
  | super ref method =>
    unfold evalStep
    dsimp only
    split <;> exact .push [] rfl nofun
  | literal | grouping => exact .push [] rfl nofun
  | _ => exact .push [_] rfl nofun

theorem flows_execStep (s : Stmt) (hr : i.store.arena.Recycles) :
    Flows ⟨.exec s, stack, i⟩ (execStep s stack i) := by
  cases s with
  | expression e | print e => exact .push [_] rfl (List.forall_mem_nil _)
  | var name initializer =>
    cases initializer with
    | none => exact .push [] rfl (List.forall_mem_nil _)
    | some e => exact .push [.define name] rfl fun x hx => hx
  | block body => exact .enters [] [] rfl rfl rfl rfl (Arena.not_issued_create hr i.active)
  | branch condition yes no =>
    refine .push [.branch yes no] rfl fun x hx => ?_
    cases no <;> simpa [Control.declares, Cont.declares, Stmt.declared] using hx
  | loop condition body =>
    refine .push [.test condition body] rfl fun x hx => ?_
    simpa [Control.declares, Cont.declares, Stmt.declared] using hx
  | function decl => exact .push [] rfl (List.forall_mem_nil _)
  | classDecl name superclass methods =>
    cases superclass with
    | none => exact .push [] rfl (List.forall_mem_nil _)
    | some parent => exact .push [.superclass name parent.name methods] rfl fun x hx => hx
  | ret line value =>
    cases value with
    | none => exact .push [] rfl (List.forall_mem_nil _)
    | some e => exact .push [.result] rfl (List.forall_mem_nil _)

theorem flows_callFunction (popped pushed : List Cont) (hstack : m.stack = popped ++ rest)
    (hpopped : activations popped = []) (hpushed : activations pushed = [])
    (hnone : pushed.flatMap Cont.declares = []) (hr : i.store.arena.Recycles)
    (hissued : ∀ h, m.state.store.arena.Issued h → i.store.arena.Issued h) (line : Nat) (f : Function)
    (arguments : List Value) : Flows m (callFunction line f arguments (pushed ++ rest) i) := by
  unfold callFunction
  split
  · refine .enters popped (.finish f :: pushed) hstack hpopped hpushed hnone ?_
    rw [Interpreter.foldl_define_active]
    exact fun hi => Arena.not_issued_create hr f.closure (hissued _ hi)
  · refine .goes popped pushed hstack hpopped hpushed fun x hx => ?_
    rw [hnone] at hx
    cases hx

theorem flows_instantiate (hk : activations [k] = []) (hr : i.store.arena.Recycles) (line : Nat)
    (cls : Class) (arguments : List Value) :
    Flows ⟨c, k :: stack, i⟩ (instantiate line cls arguments stack i) := by
  unfold instantiate
  dsimp only
  split
  · exact .pop hk rfl
  · next method _ =>
    have hbind := Store.grows_bind (B := fun _ _ => False)
      (s := (i.store.allocate (.instance cls Bindings.empty)).2) hr method
      (.instance (i.store.allocate (.instance cls Bindings.empty)).1)
    exact flows_callFunction [k] [_] rfl hk rfl rfl hbind.recycles
      hbind.issued line _ arguments

theorem flows_call (hk : activations [k] = []) (hr : i.store.arena.Recycles) (line : Nat)
    (callee : Value) (arguments : List Value) :
    Flows ⟨c, k :: stack, i⟩ (call line callee arguments stack i) := by
  unfold call
  split
  · exact .pop hk rfl
  · split
    · split
      · split <;> exact .pop hk rfl
      · exact flows_callFunction [k] [] rfl hk rfl rfl hr (fun _ hi => hi) line _ _
      · exact flows_instantiate hk hr line _ arguments
      · exact .pop hk rfl
      · exact .pop hk rfl
    · exact .pop hk rfl

theorem declares_ofResult (line : Nat) (result : Except RuntimeError Value) :
    (ofResult line result).declares = [] := by
  cases result <;> rfl

theorem flows_yieldStep (v : Value) (htakes : k.takesValue = true) (hr : i.store.arena.Recycles) :
    Flows ⟨.yield v, k :: stack, i⟩ (yieldStep v k stack i) := by
  cases k with
  | unary op line | right op line left | get name => exact .pop rfl (declares_ofResult _ _)
  | left op line right => exact .goes [_] [_] rfl rfl rfl nofun
  | logical op right =>
    unfold yieldStep
    dsimp only
    split <;> exact .pop rfl rfl
  | assign ref =>
    unfold yieldStep
    dsimp only
    split <;> exact .pop rfl rfl
  | callee line arguments =>
    cases arguments with
    | nil => exact flows_call rfl hr line v []
    | cons e rest => exact .goes [_] [_] rfl rfl rfl nofun
  | argument line callee ready rest =>
    cases rest with
    | nil => exact flows_call rfl hr line callee _
    | cons e rest => exact .goes [_] [_] rfl rfl rfl nofun
  | target name value =>
    cases v with
    | «instance» id => exact .goes [_] [_] rfl rfl rfl nofun
    | _ => exact .pop rfl rfl
  | print =>
    unfold yieldStep
    dsimp only
    split <;> exact .pop rfl rfl
  | branch yes no =>
    unfold yieldStep
    dsimp only
    split
    · refine .goes [_] [] rfl rfl rfl fun x hx => ?_
      cases no <;> simp_all [Control.declares, Cont.declares]
    · split
      · refine .goes [_] [] rfl rfl rfl fun x hx => ?_
        simp_all [Control.declares, Cont.declares]
      · exact .pop rfl rfl
  | test condition body =>
    unfold yieldStep
    dsimp only
    split
    · refine .goes [_] [.round condition body] rfl rfl rfl fun x hx => ?_
      simp_all [Control.declares, Cont.declares]
    · exact .pop rfl rfl
  | superclass name parent methods =>
    cases v with
    | classObject c => exact .pop rfl rfl
    | _ => exact .pop rfl rfl
  | leave => cases htakes
  | _ => exact .pop rfl rfl

theorem flows_doneStep (k : Cont) : Flows ⟨.done, k :: stack, i⟩ (doneStep k stack i) := by
  cases k with
  | sequence rest =>
    cases rest with
    | nil => exact .pop rfl rfl
    | cons s rest =>
      exact .goes [_] [.sequence rest] rfl rfl rfl fun x hx => by
        simpa [Control.declares, Cont.declares] using hx
  | round condition body => exact .goes [_] [.test condition body] rfl rfl rfl fun x hx => hx
  | leave previous frame => exact .leaves rfl rfl
  | _ => exact .pop rfl rfl

theorem flows_returnStep (v : Value) (k : Cont) :
    Flows ⟨.returning v, k :: stack, i⟩ (returnStep v k stack i) := by
  cases k with
  | leave previous frame => exact .leaves rfl rfl
  | _ => exact .pop rfl rfl

theorem flows_failStep (failure : Failure) (k : Cont) :
    Flows ⟨.failed failure, k :: stack, i⟩ (failStep failure k stack i) := by
  cases k with
  | leave previous frame => exact .leaves rfl rfl
  | _ => exact .pop rfl rfl

/-- The only continuations that a step takes into account are those on top. -/
theorem flows_step (m : Machine) (hr : m.state.store.arena.Recycles)
    (hfits : ∀ b, m.control.givesValue? = some b → Fits b m.stack) : Flows m m.step := by
  obtain ⟨control, stack, i⟩ := m
  have hstay : Flows ⟨control, stack, i⟩ ⟨control, stack, i⟩ := by
    refine .goes [] [] rfl rfl rfl fun x hx => hx
  cases control with
  | eval e => exact flows_evalStep e
  | exec s => exact flows_execStep s hr
  | crashed => exact hstay
  | yield v =>
    cases stack with
    | nil => exact hstay
    | cons k stack => exact flows_yieldStep v (hfits true rfl).1 hr
  | done =>
    cases stack with
    | nil => exact hstay
    | cons k stack => exact flows_doneStep k
  | returning v =>
    cases stack with
    | nil => exact hstay
    | cons k stack => exact flows_returnStep v k
  | failed failure =>
    cases stack with
    | nil => exact hstay
    | cons k stack => exact flows_failStep failure k

/-! ## What is declared outside of all activations -/

/-- All names of globals, and those that are still to be declared outside of all activations, are
in `D`. Activations are in frames of their own. -/
structure Declares (D : List String) (m : Machine) : Prop where
  names : ∀ x ∈ m.state.globalNames, x ∈ D
  control : activations m.stack = [] → ∀ x ∈ m.control.declares, x ∈ D
  pending : Pending D m.stack
  frames : ∀ a ∈ activations m.stack, a.frame ≠ .globals

theorem mem_bound {x : String} (hx : x ∈ m.bound) :
    x ∈ m.control.declares ∨ ∃ k rest, m.stack = k :: rest ∧ activations [k] = [] ∧ x ∈ k.declares := by
  unfold bound at hx
  split at hx
  · exact .inl hx
  · exact .inl hx
  · exact .inr ⟨_, _, rfl, rfl, hx⟩
  · exact .inr ⟨_, _, rfl, rfl, hx⟩
  · exact .inl hx
  · cases hx

variable {P : Handle → Handle → Prop} {ρ : Renaming}

theorem Twin.issued_globals (ht : Twin P ρ m n) : m.state.store.arena.Issued .globals := by
  obtain ⟨f, hf⟩ := Arena.contains_iff.1 ht.setting.twin.contains_globals
  exact Arena.issued_of_frame? hf

theorem Twin.recycles (ht : Twin P ρ m n) : m.state.store.arena.Recycles :=
  ht.setting.twin.store.healthy.accounted.recycles

/-- Whatever is bound in the global frame is declared outside of all activations. -/
theorem Declares.binds (hd : Declares D m) (ht : Twin P ρ m n) {x : String}
    (hx : m.binds .globals x) : x ∈ D := by
  obtain ⟨hactive, hx⟩ := hx
  have houtside : activations m.stack = [] := by
    cases hacts : activations m.stack with
    | nil => rfl
    | cons a acts =>
      have hcurrent := ht.setting.twin.active
      rw [hacts] at hcurrent
      have hframe := hd.frames a (hacts ▸ List.mem_cons_self)
      exact absurd (hactive.trans hcurrent).symm hframe
  obtain hx | ⟨k, rest, hstack, hk, hx⟩ := mem_bound hx
  · exact hd.control houtside x hx
  · have hpending := hd.pending
    rw [hstack] at hpending houtside
    rw [← List.singleton_append, activations_append hk] at houtside
    exact hpending.1 houtside x hx

theorem Declares.step (hd : Declares D m) (ht : Twin P ρ m n) : Declares D m.step := by
  have hnames : ∀ x ∈ m.step.state.globalNames, x ∈ D := fun x hx =>
    ((grows_step m ht.recycles).names ht.issued_globals x hx).elim (hd.names x) (hd.binds ht)
  have hflows := flows_step m ht.recycles ht.fits
  generalize m.step = m' at hnames hflows
  obtain ⟨-, hcontrol, hpending, hframes⟩ := hd
  cases hflows with
  | goes popped pushed hstack hpopped hpushed hdeclares =>
    rw [hstack] at hpending
    obtain ⟨hpopped', hrest⟩ := (pending_append hpopped).1 hpending
    rw [hstack, activations_append hpopped] at hcontrol hframes
    have hall := fun houtside x hx => (List.mem_append.1 (hdeclares x hx)).elim
      (hcontrol houtside x) (hpopped' houtside x)
    refine ⟨hnames, fun houtside x hx => ?_, ?_, ?_⟩
    · dsimp only at houtside
      rw [activations_append hpushed] at houtside
      exact hall houtside x (List.mem_append_left _ hx)
    · exact (pending_append hpushed).2
        ⟨fun houtside x hx => hall houtside x (List.mem_append_right _ hx), hrest⟩
    · dsimp only
      rw [activations_append hpushed]
      exact hframes
  | @enters popped pushed rest _ _ _ hstack hpopped hpushed hnone hnew =>
    rw [hstack] at hpending
    obtain ⟨-, hrest⟩ := (pending_append hpopped).1 hpending
    rw [hstack, activations_append hpopped] at hframes
    have hbelow : Pending D (pushed ++ rest) := by
      refine (pending_append hpushed).2 ⟨fun _ x hx => ?_, hrest⟩
      rw [hnone] at hx
      cases hx
    refine ⟨hnames, fun _ => nofun, ⟨nofun, fun _ => nofun, hbelow⟩, fun a ha => ?_⟩
    obtain rfl | ha := List.mem_cons.1 ha
    · intro heq
      dsimp only at heq
      rw [heq] at hnew
      exact hnew ht.issued_globals
    · rw [activations_append hpushed] at ha
      exact hframes a ha
  | leaves hstack hnone =>
    rw [hstack] at hpending hframes
    refine ⟨hnames, fun _ x hx => ?_, hpending.2, fun a ha => hframes a (List.mem_cons_of_mem _ ha)⟩
    dsimp only at hx
    rw [hnone] at hx
    cases hx

theorem Declares.run {a b : Record} (hd : Declares D m) (ht : Twin (Recorded a b) ρ m n) (fuel : Nat) :
    Declares D (m.run fuel) := by
  have halong := (ht.run fuel).1
  refine forall_history hd (fun m' hm' hd' => ?_) _ (run_mem_history fuel m)
  obtain ⟨P, ρ', n', ht'⟩ := halong.twin hm'
  exact hd'.step ht'

end Machine

namespace Interpreter

variable {D : List String} {i j : Interpreter} {P : Handle → Handle → Prop} {ρ : Renaming}

theorem grows_settle {B : Binds} (hr : i.store.arena.Recycles) :
    Arena.Grows B i.store.arena i.settle.store.arena := by
  have hdrain := grows_drain (B := B) hr
  obtain hsettle | ⟨roots, hsettle⟩ := Showing.settle_cases i
  · exact hsettle ▸ hdrain
  · exact hsettle ▸ hdrain.and (Store.grows_collect hdrain.recycles roots)

theorem globalNames_settle {held : List Value} (ht : i.Twin P ρ j [] held []) {x : String}
    (hx : x ∈ i.settle.globalNames) : x ∈ i.globalNames := by
  have hr := ht.store.healthy.accounted.recycles
  obtain ⟨f, hf⟩ := Arena.contains_iff.1 ht.contains_globals
  exact ((grows_settle (B := fun _ _ => False) hr).names (Arena.issued_of_frame? hf) x hx).elim id nofun

/-- A program makes globals of what it declares at its top level, and of nothing else. -/
theorem globalNames_interpret {a b : Record} (program : List Stmt) (fuel : Nat)
    (hidle : Idle (Recorded a b) i j) (hnames : ∀ x ∈ i.globalNames, x ∈ D)
    (hprogram : ∀ x ∈ program.flatMap Stmt.declared, x ∈ D)
    (hcompleted : (i.interpret fuel program).1 = .completed) :
    ∀ x ∈ (i.interpret fuel program).2.globalNames, x ∈ D := by
  induction program generalizing i j a b with
  | nil =>
    unfold interpret
    split <;> exact hnames
  | cons s rest ih =>
    obtain ⟨ρ, ht⟩ := hidle
    have hstart := ht.start (c := .exec s) rfl rfl
    rw [List.flatMap_cons] at hprogram
    have hdeclares : Machine.Declares D ⟨.exec s, [], i⟩ :=
      ⟨hnames, fun _ x hx => hprogram x (List.mem_append_left _ hx), trivial, nofun⟩
    have hran := (hdeclares.run hstart fuel).names
    obtain ⟨-, ρ', hrun⟩ := hstart.run fuel
    unfold interpret at hcompleted ⊢
    generalize Machine.run fuel ⟨.exec s, [], i⟩ = m at hran hrun hcompleted ⊢
    generalize Machine.run fuel ⟨.exec s, [], j⟩ = n at hrun
    obtain ⟨control, stack, i'⟩ := m
    obtain ⟨control', stack', j'⟩ := n
    obtain ⟨hcontrol, hstack, hs, -⟩ := hrun
    dsimp only at hcontrol hstack hran
    subst hcontrol hstack
    have hrest := fun x hx => hprogram x (List.mem_append_right _ hx)
    have hgo : ∀ {a b : Record} {i'' j'' : Interpreter} {ρ'' : Renaming},
        i''.Twin (Recorded a b) ρ'' j'' [] [] [] → i''.globalNames = i'.globalNames →
        (i''.settle.interpret fuel rest).1 = .completed →
        ∀ x ∈ (i''.settle.interpret fuel rest).2.globalNames, x ∈ D := fun ht heq =>
      ih ⟨_, ht.settle⟩ (fun x hx => hran x (heq ▸ globalNames_settle ht hx)) hrest
    have hdiscard : ∀ v, (i'.discard v).globalNames = i'.globalNames := fun v =>
      congrArg (Arena.names · .globals) (Store.arena_discard i'.store v)
    cases control with
    | eval e | exec e | crashed => cases hcompleted
    | yield v | returning v =>
      cases stack with
      | nil => exact hgo hs.twin.discard (hdiscard v) hcompleted
      | cons k stack => cases hcompleted
    | done =>
      cases stack with
      | nil => exact hgo hs.twin rfl hcompleted
      | cons k stack => cases hcompleted
    | failed failure =>
      cases stack with
      | nil =>
        dsimp only at hcompleted
        unfold abort at hcompleted
        dsimp only at hcompleted
        split at hcompleted <;> cases hcompleted
      | cons k stack => cases hcompleted

end Interpreter
end Lox
