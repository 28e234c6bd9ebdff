import Lox.Proofs.Failures
import Lox.Proofs.Scoping.Steps

/-!
# Frames are made where code stands

What is around a frame is decided when the frame is made, and what is around the frame of a call when the
function is made. Every function that is called has been made before, and has kept what it closes over.
-/
namespace Lox

variable {P : List Surrounding → Reference → Prop} {past : Past} {i : Interpreter}

namespace Interpreter

/-- Methods close over the active frame, and are not bound. -/
theorem mem_closeOverMethods {table : Bindings Function} {methods : List FunctionDecl} {f : Function}
    (hf : f ∈ (i.closeOverMethods table methods).1.values) :
    f ∈ table.values ∨ f.closure = i.active ∧ f.binding = none := by
  induction methods generalizing i table with
  | nil => exact .inl hf
  | cons decl rest ih =>
    obtain h | h := ih (i := (i.closeOver decl (decl.name.text = initializerName)).2) hf
    · obtain rfl | h := mem_values_insert h
      · exact .inr ⟨rfl, rfl⟩
      · exact .inl h
    · exact .inr h

end Interpreter

namespace Machine

/-- The frames of a block and of a superclass are made inside of the active frame, that of a receiver inside
of the one that the method closes over, and that of a call inside of the one that the function closes over,
which is the frame of the receiver where an instance is made. -/
def Encloses (past : Past) (m : Machine) (o : Opening) : Prop :=
  match o.region with
  | .block _ | .heritage _ => o.outer = m.state.active
  | .receiver decl => ∃ method ∈ past.functions, method.decl = decl ∧ method.closure = o.outer
  | .body decl =>
    (∃ f arguments, m.call? = some (.function f, arguments) ∧ past.Knows f ∧ f.decl = decl ∧
      f.closure = o.outer) ∨ ∃ outer, ⟨o.outer, .receiver decl, outer⟩ ∈ m.opened

/-- What the next step makes is made where the code stands that it executes. -/
structure Lexical (past : Past) (m : Machine) : Prop where
  frames : ∀ o ∈ m.opened, m.Encloses past o
  /-- A method of a class with a superclass closes over the frame that is made for the superclass. -/
  functions : ∀ f ∈ m.functions, f.closure = m.state.active ∨
    ∃ methods, ⟨f.closure, .heritage methods, m.state.active⟩ ∈ m.opened
  links : ∀ h f f', m.state.store.arena.frame? h = some f → m.step.state.store.arena.frame? h = some f' →
    f'.enclosing = f.enclosing

variable {m : Machine}

theorem encloses_call {callee : Value} {arguments : List Value} (hcall : m.call? = some (callee, arguments))
    (hopened : openedByCall callee arguments m.state ⊆ m.opened)
    (hcallee : callee.Placed P (past.standing m.state.store.arena)) :
    ∀ o ∈ openedByCall callee arguments m.state, m.Encloses past o := by
  unfold openedByCall at hopened ⊢
  split at hopened
  · next harity =>
    rw [if_pos harity]
    cases callee with
    | function f =>
      intro o ho
      cases eq_of_mem_openedByCallFunction ho
      exact .inl ⟨f, arguments, hcall, hcallee.1, rfl, rfl⟩
    | classObject c =>
      dsimp only at hopened ⊢
      unfold openedByInstantiate at hopened ⊢
      dsimp only at hopened ⊢
      cases hmethod : c.findMethod? initializerName with
      | none => nofun
      | some method =>
        rw [hmethod] at hopened
        intro o ho
        obtain rfl | ho := List.mem_cons.1 ho
        · exact ⟨method, (hcallee initializerName method hmethod).1, rfl, rfl⟩
        · cases eq_of_mem_openedByCallFunction ho
          exact .inr ⟨method.closure, hopened List.mem_cons_self⟩
    | _ => nofun
  · next harity =>
    rw [if_neg harity]
    nofun

theorem encloses_bind {method? : Option Function}
    (hmade : ∀ method, method? = some method → method ∈ past.functions) :
    ∀ o ∈ method?.toList.map i.store.openedByBind, m.Encloses past o := by
  intro o ho
  obtain ⟨method, hmethod, rfl⟩ := List.mem_map.1 ho
  exact ⟨method, hmade method (Option.mem_toList.1 hmethod), rfl, rfl⟩

theorem Placed.encloses (hm : m.Placed P (past.standing m.state.store.arena)) :
    ∀ o ∈ m.opened, m.Encloses past o := by
  obtain ⟨control, stack, i⟩ := m
  obtain ⟨-, hheld, hstore⟩ := hm
  cases control with
  | eval e =>
    cases e with
    | super ref method =>
      exact encloses_bind fun found hfound => (Interpreter.bindable_of_methodOfSuper? hstore hfound).1
    | _ => nofun
  | exec s =>
    cases s with
    | block body =>
      intro o ho
      cases List.mem_singleton.1 ho
      rfl
    | _ => nofun
  | yield v =>
    have hv : v.Placed P (past.standing i.store.arena) := hheld v List.mem_cons_self
    cases stack with
    | nil => nofun
    | cons k stack =>
      cases k with
      | callee line arguments =>
        cases arguments with
        | nil =>
          exact encloses_call (m := ⟨.yield v, .callee line [] :: stack, i⟩) rfl (List.Subset.refl _) hv
        | cons e rest => nofun
      | argument line callee ready rest =>
        cases rest with
        | nil =>
          have hcallee := hheld callee (List.mem_cons_of_mem _ List.mem_cons_self)
          exact encloses_call (m := ⟨.yield v, .argument line callee ready [] :: stack, i⟩) rfl
            (List.Subset.refl _) hcallee
        | cons e rest => nofun
      | get name =>
        exact encloses_bind fun found hfound => (Interpreter.bindable_of_methodOf? hstore hfound).1
      | superclass name parent methods =>
        cases v with
        | classObject c =>
          intro o ho
          cases List.mem_singleton.1 ho
          rfl
        | _ => nofun
      | _ => nofun
  | _ => nofun

/-- Whatever the state, functions close over the active frame or a new one inside of it. -/
theorem closure_of_functions (m : Machine) : ∀ f ∈ m.functions, f.closure = m.state.active ∨
    ∃ methods, ⟨f.closure, .heritage methods, m.state.active⟩ ∈ m.opened := by
  unfold functions
  split
  · intro f hf
    cases List.mem_singleton.1 hf
    exact .inl rfl
  · intro f hf
    obtain h | h := Interpreter.mem_closeOverMethods hf
    · cases h
    · exact .inl h.1
  · next c name parent methods stack i =>
    intro f hf
    obtain h | h := Interpreter.mem_closeOverMethods hf
    · cases h
    · obtain ⟨stamp, decl, closure, isInitializer, binding⟩ := f
      cases h.1
      exact .inr ⟨methods, List.mem_cons_self⟩
  · nofun

theorem binding_of_functions (m : Machine) : ∀ f ∈ m.functions, f.binding = none := by
  unfold functions
  split
  · intro f hf
    cases List.mem_singleton.1 hf
    rfl
  · intro f hf
    obtain h | h := Interpreter.mem_closeOverMethods hf
    · cases h
    · exact h.2
  · intro f hf
    obtain h | h := Interpreter.mem_closeOverMethods hf
    · cases h
    · exact h.2
  · nofun

theorem Placed.lexical (hm : m.Placed P (past.standing m.state.store.arena))
    (hr : m.state.store.arena.Recycles) : m.Lexical past := by
  refine ⟨hm.encloses, m.closure_of_functions, fun h f f' hf hf' => ?_⟩
  obtain ⟨old, hold, henclosing, -⟩ := (grows_step m hr).frames h f' (Arena.issued_of_frame? hf) hf'
  exact Option.some.inj (hf.symm.trans hold) ▸ henclosing

end Machine
end Lox
