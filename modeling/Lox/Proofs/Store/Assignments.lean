import Lox.Proofs.Store.Captures

/-!
# Assignments change one binding

Who assigns along the links from a frame finds the binding that a read along the same links finds, and
changes nothing but this binding. Other frames may lead to it as well, and then they read the new value.
-/
namespace Lox

namespace Arena

variable {a b : Arena} {g h : Handle}

theorem find?_eq_some_iff {name : String} {v : Value} :
    a.find? h name = some v ↔ ∃ f, a.frame? h = some f ∧ f.bindings.find? name = some v :=
  Option.bind_eq_some_iff

theorem Alike.contains_iff (hab : a.Alike b) (g : Handle) : a.contains g = b.contains g := by
  have hframes := congrArg Option.isSome (hab.frames g)
  rwa [Option.isSome_map, Option.isSome_map] at hframes

/-- The same links lead to the same frames. -/
theorem Alike.ancestor? (hab : a.Alike b) (g : Handle) (d : Nat) : a.ancestor? g d = b.ancestor? g d := by
  induction d generalizing g with
  | zero => rw [Arena.ancestor?, Arena.ancestor?, hab.contains_iff]
  | succ d ih =>
    have hframes := hab.frames g
    rw [Arena.ancestor?, Arena.ancestor?]
    cases ha : a.frame? g with
    | none =>
      rw [ha] at hframes
      rw [Option.map_eq_none_iff.1 hframes.symm]
    | some f =>
      rw [ha] at hframes
      obtain ⟨f', hb, heq⟩ := Option.map_eq_some_iff.1 hframes.symm
      obtain ⟨he, -⟩ := Prod.mk.inj heq
      rw [hb]
      dsimp only
      rw [he]
      cases f.enclosing with
      | none => rfl
      | some outer => exact ih outer

/-- Nothing was made or freed, and the frames stand inside of each other as they did. -/
structure SameShape (a b : Arena) : Prop where
  alike : b.Alike a
  steady : a.Steady b
  free : b.free = a.free
  live : b.live = a.live

theorem SameShape.refl (a : Arena) : SameShape a a := ⟨.refl a, fun _ => ⟨rfl, rfl⟩, rfl, rfl⟩

/-- One more binding in a frame, or another value for a name that it binds. -/
def bound (a : Arena) (target : Handle) (f : Frame) (name : String) (v : Value) : Arena :=
  a.put target { f with bindings := f.bindings.insert name v }

section

variable {target : Handle} {f : Frame} (hf : a.frame? target = some f) (name : String) (v : Value)
include hf

theorem sameShape_bound : a.SameShape (a.bound target f name v) :=
  ⟨Alike.put hf rfl rfl, steady_put hf _, rfl, rfl⟩

theorem find?_bound (g : Handle) (other : String) : (a.bound target f name v).find? g other =
    if g = target ∧ other = name then some v else a.find? g other := by
  unfold find? bound
  rw [frame?_put hf]
  by_cases hg : g = target
  · subst hg
    rw [if_pos rfl, hf, Option.bind_some, Option.bind_some, Bindings.find?_insert]
    simp only [true_and, eq_comm]
  · rw [if_neg hg, if_neg fun hboth => hg hboth.1]

theorem findAt?_bound (g : Handle) (d : Nat) (other : String) : (a.bound target f name v).findAt? g d other =
    if a.ancestor? g d = some target ∧ other = name then some v else a.findAt? g d other := by
  unfold findAt?
  rw [(sameShape_bound hf name v).alike.ancestor?]
  cases a.ancestor? g d with
  | none => simp
  | some outer =>
    simp only [Option.bind_some, find?_bound hf, Option.some.injEq]

end

end Arena

namespace Store

variable {s : Store} {h target : Handle} {d : Nat} {name : String} {f : Frame}

theorem arena_define (hf : s.arena.frame? target = some f) (name : String) (v : Value) :
    (s.define target name v).arena = s.arena.bound target f name v := by
  rw [define_of_some hf]
  rfl

/-- An assignment finds what a read finds. -/
theorem assignAt_cases (s : Store) (h : Handle) (d : Nat) (name : String) (v : Value) :
    (∃ target f old, s.arena.ancestor? h d = some target ∧ s.arena.frame? target = some f ∧
      s.arena.findAt? h d name = some old ∧
      s.assignAt h d name v = (true, s.define target name v)) ∨
    s.arena.findAt? h d name = none ∧ s.assignAt h d name v = (false, s.discard v) := by
  unfold assignAt
  cases ha : s.arena.ancestor? h d with
  | none =>
    refine .inr ⟨?_, rfl⟩
    rw [Arena.findAt?, ha]
    rfl
  | some target =>
    have hfindAt : s.arena.findAt? h d name = s.arena.find? target name := by
      rw [Arena.findAt?, ha]
      rfl
    dsimp only
    unfold assign
    cases hfind : s.arena.find? target name with
    | none => exact .inr ⟨hfindAt.trans hfind, rfl⟩
    | some old =>
      obtain ⟨f, hf, -⟩ := Arena.find?_eq_some_iff.1 hfind
      exact .inl ⟨target, f, old, rfl, hf, hfindAt.trans hfind, rfl⟩

/-- An assignment along the links succeeds if and only if a read along the same links finds a value. If it
succeeds, the frame at the end of the links binds the name to the new value, whichever way it is reached from,
and all that is bound elsewhere or to another name is as before. If it fails, all frames are as before. No
frame is made or freed, and none gets another link or is captured. -/
theorem assignAt_changes_one (s : Store) (h : Handle) (d : Nat) (name : String) (v : Value) :
    let a := s.arena
    let b := (s.assignAt h d name v).2.arena
    ((s.assignAt h d name v).1 = true ↔ (a.findAt? h d name).isSome = true) ∧
    ((s.assignAt h d name v).1 = true → ∃ target, a.ancestor? h d = some target ∧
      b.findAt? h d name = some v ∧
      (∀ g other, b.find? g other = if g = target ∧ other = name then some v else a.find? g other) ∧
      ∀ g e other, b.findAt? g e other =
        if a.ancestor? g e = some target ∧ other = name then some v else a.findAt? g e other) ∧
    ((s.assignAt h d name v).1 = false → ∀ g, b.frame? g = a.frame? g) ∧
    a.SameShape b := by
  intro a b
  obtain ⟨target, f, old, htarget, hf, hold, hassign⟩ | ⟨hnone, hassign⟩ := assignAt_cases s h d name v
  · have hb : b = a.bound target f name v := by
      rw [← arena_define hf]
      exact congrArg (·.2.arena) hassign
    rw [hb, hassign, hold]
    have hread := a.findAt?_bound hf name v
    refine ⟨by simp, fun _ => ⟨target, htarget, ?_, a.find?_bound hf name v, hread⟩, nofun,
      a.sameShape_bound hf name v⟩
    rw [hread, if_pos ⟨htarget, rfl⟩]
  · have hb : b = a := (congrArg (·.2.arena) hassign).trans (arena_discard s v)
    rw [hb, hassign, hnone]
    exact ⟨by simp, nofun, fun _ _ => rfl, .refl a⟩

/-- A global is assigned to past a frame that binds the same name. Past the global frame there is nothing
to assign to. -/
theorem assignAt_changes_one_shadowed :
    let s := (Ledger.start.run [.define .globals "x" .nil, .create .globals,
      .define ⟨1, 0⟩ "x" (.boolean false), .create ⟨1, 0⟩]).store
    let b := (s.assignAt ⟨2, 0⟩ 2 "x" (.boolean true)).2.arena
    (s.assignAt ⟨2, 0⟩ 2 "x" (.boolean true)).1 = true ∧
      b.find? .globals "x" = some (.boolean true) ∧ b.findAt? ⟨1, 0⟩ 1 "x" = some (.boolean true) ∧
      b.find? ⟨1, 0⟩ "x" = some (.boolean false) ∧
      (s.assignAt ⟨2, 0⟩ 3 "x" .nil).1 = false ∧
      ∀ g, (s.assignAt ⟨2, 0⟩ 3 "x" .nil).2.arena.frame? g = s.arena.frame? g := by
  intro s b
  have hdone : (s.assignAt ⟨2, 0⟩ 2 "x" (.boolean true)).1 = true := by decide +kernel
  have hfailed : (s.assignAt ⟨2, 0⟩ 3 "x" .nil).1 = false := by decide +kernel
  have hglobals : s.arena.ancestor? ⟨2, 0⟩ 2 = some .globals := by decide +kernel
  have hroundabout : s.arena.ancestor? ⟨1, 0⟩ 1 = some .globals := by decide +kernel
  obtain ⟨target, htarget, -, hfind, hfindAt⟩ :=
    (assignAt_changes_one s ⟨2, 0⟩ 2 "x" (.boolean true)).2.1 hdone
  obtain rfl := Option.some.inj (hglobals.symm.trans htarget)
  refine ⟨hdone, (hfind _ _).trans (if_pos ⟨rfl, rfl⟩), (hfindAt _ _ _).trans (if_pos ⟨hroundabout, rfl⟩), ?_,
    hfailed, (assignAt_changes_one s ⟨2, 0⟩ 3 "x" .nil).2.2.1 hfailed⟩
  exact (hfind _ _).trans (if_neg (by decide))

end Store
end Lox
