import Lox.Bindings

/-!
# Changing all values of a name table

The names and their order stay as they are.
-/
namespace Lox

namespace Bindings

variable {α β : Type}

def map (f : α → β) (b : Bindings α) : Bindings β := ⟨b.entries.map fun e => (e.1, f e.2)⟩

@[simp] theorem map_empty (f : α → β) : (empty : Bindings α).map f = empty := rfl

theorem values_map (f : α → β) (b : Bindings α) : (b.map f).values = b.values.map f := by
  simp [map, values]

theorem names_map (f : α → β) (b : Bindings α) : (b.map f).names = b.names := by
  simp [map, names]

theorem find?_map (f : α → β) (b : Bindings α) (name : String) :
    (b.map f).find? name = (b.find? name).map f := by
  obtain ⟨entries⟩ := b
  unfold map find?
  dsimp only
  induction entries with
  | nil => rfl
  | cons entry rest ih =>
    rw [List.map_cons, lookup, lookup]
    split
    · rfl
    · exact ih

theorem map_insert (f : α → β) (b : Bindings α) (name : String) (a : α) :
    (b.insert name a).map f = (b.map f).insert name (f a) := by
  obtain ⟨entries⟩ := b
  unfold map insert
  dsimp only
  congr 1
  induction entries with
  | nil => rfl
  | cons entry rest ih =>
    rw [List.map_cons, place, place]
    split
    · rfl
    · rw [List.map_cons, ih]

theorem map_congr {f g : α → β} {b : Bindings α} (h : ∀ a ∈ b.values, f a = g a) :
    b.map f = b.map g := by
  unfold map
  congr 1
  refine List.map_congr_left fun e he => ?_
  rw [h e.2 (List.mem_map_of_mem he)]

theorem map_map {γ : Type} (f : α → β) (g : β → γ) (b : Bindings α) :
    (b.map f).map g = b.map fun a => g (f a) := by
  unfold map
  dsimp only
  rw [List.map_map]
  rfl

theorem map_id (b : Bindings α) : b.map (fun a => a) = b := by
  simp [map]

end Bindings

end Lox
