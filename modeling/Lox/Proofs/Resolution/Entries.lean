import Lox.Proofs.Resolution.Walks

/-!
# Entries of distance tables

Resolution records distances of the references of its tree and of no others, whatever the tree.
-/
namespace Lox

namespace Resolver

/-- Whatever is recorded on the way is about these references. -/
def Records (refs : List Reference) (r q : Resolver) : Prop :=
  ∀ entry ∈ q.distances, entry ∈ r.distances ∨ entry.1 ∈ refs.map Reference.id

namespace Records

variable {refs refs' : List Reference} {r q t : Resolver}

theorem of_eq (h : q.distances = r.distances) : Records refs r q := fun _ hentry => .inl (h ▸ hentry)

theorem trans (h : Records refs r q) (h' : Records refs' q t) : Records (refs ++ refs') r t := by
  intro entry hentry
  rw [List.map_append, List.mem_append]
  rcases h' entry hentry with hbefore | hnew
  · rcases h entry hbefore with hfirst | hsecond
    · exact .inl hfirst
    · exact .inr (.inl hsecond)
  · exact .inr (.inr hnew)

theorem refer (r : Resolver) (ref : Reference) : Records [ref] r (r.refer ref) := by
  unfold Resolver.refer
  dsimp only
  split
  · intro entry hentry
    rcases List.mem_cons.1 hentry with rfl | hbefore
    · exact .inr List.mem_cons_self
    · exact .inl hbefore
  · repeat' split
    all_goals exact .of_eq rfl

theorem mark (r : Resolver) (text : String) (ready : Bool) : Records [] r (r.mark text ready) := by
  unfold Resolver.mark
  split <;> exact .of_eq rfl

theorem declare (r : Resolver) (name : Ident) : Records [] r (r.declare name) := by
  unfold Resolver.declare
  split
  · split
    · exact .of_eq rfl
    · exact .mark r name.text false
  · dsimp only
    split <;> exact .mark _ name.text false

end Records

theorem bracketed_records : Bracketed Records where
  refl _ := .of_eq rfl
  trans := .trans
  report _ _ _ := .of_eq rfl
  refer := .refer
  declare := .declare
  ready r text := .mark r text true
  scope h := h

theorem Records.finish {refs : List Reference} {globals : List String} {q : Resolver}
    {d : List (Nat × Nat)} (h : Records refs (.start globals) q) (hd : q.finish = .ok d) :
    ∀ entry ∈ d, entry.1 ∈ refs.map Reference.id := by
  unfold Resolver.finish at hd
  split at hd
  · cases hd
    intro entry hentry
    rcases h entry hentry with hstart | hnew
    · cases hstart
    · exact hnew
  · cases hd

end Resolver

open Resolver (bracketed_records)

variable {globals : List String} {d : List (Nat × Nat)}

theorem mem_ids_of_resolveProgram {tree : List Stmt} (h : resolveProgram globals tree = .ok d) :
    ∀ entry ∈ d, entry.1 ∈ (Stmt.referencesAll tree).map Reference.id :=
  Resolver.Records.finish (Stmt.resolveAll_bracketed bracketed_records .topLevel _ tree) h

theorem mem_ids_of_resolveExpression {e : Expr} (h : resolveExpression globals e = .ok d) :
    ∀ entry ∈ d, entry.1 ∈ e.references.map Reference.id :=
  Resolver.Records.finish (Expr.resolve_steady bracketed_records.toSteady .topLevel _ e) h

end Lox
