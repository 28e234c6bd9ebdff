/-!
# Name tables

Finite maps from names to values, in the order in which the names were first bound.
-/
namespace Lox

structure Bindings (α : Type) where
  entries : List (String × α) := []
  deriving Repr

namespace Bindings

variable {α : Type}

def empty : Bindings α := ⟨[]⟩

def lookup (name : String) : List (String × α) → Option α
  | [] => none
  | (other, a) :: rest => if other = name then some a else lookup name rest

def find? (b : Bindings α) (name : String) : Option α := lookup name b.entries

def contains (b : Bindings α) (name : String) : Bool := (b.find? name).isSome

def place (name : String) (a : α) : List (String × α) → List (String × α)
  | [] => [(name, a)]
  | (other, old) :: rest =>
    if other = name then (other, a) :: rest else (other, old) :: place name a rest

/-- Binds `name`; a name that is bound already keeps its position. -/
def insert (b : Bindings α) (name : String) (a : α) : Bindings α := ⟨place name a b.entries⟩

def names (b : Bindings α) : List String := b.entries.map Prod.fst

def values (b : Bindings α) : List α := b.entries.map Prod.snd

theorem lookup_place (name other : String) (a : α) (entries : List (String × α)) :
    lookup other (place name a entries) =
      if name = other then some a else lookup other entries := by
  induction entries with
  | nil => rfl
  | cons p rest ih =>
    obtain ⟨key, old⟩ := p
    by_cases hk : key = name
    · subst hk
      by_cases h : key = other <;> simp [place, lookup, h]
    · by_cases h : key = other
      · subst h
        have : name ≠ key := fun e => hk e.symm
        simp [place, lookup, hk, this]
      · simp [place, lookup, hk, h, ih]

@[simp] theorem find?_empty (name : String) : (empty : Bindings α).find? name = none := rfl

theorem find?_insert (b : Bindings α) (name other : String) (a : α) :
    (b.insert name a).find? other = if name = other then some a else b.find? other :=
  lookup_place name other a b.entries

theorem contains_insert (b : Bindings α) (name other : String) (a : α) :
    (b.insert name a).contains other = (decide (name = other) || b.contains other) := by
  by_cases h : name = other <;> simp [contains, find?_insert, h]

end Bindings
end Lox
