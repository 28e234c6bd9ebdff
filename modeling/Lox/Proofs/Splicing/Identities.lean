import Lox.Proofs.Resolution.Entries
import Lox.Proofs.Splicing.Analysis

/-!
# Identities in use

Everything that an interpreter knows and all code that it holds is about identities that have been given
out. So it makes no difference to a program what is known of identities that are given out later.
-/
namespace Lox

/-- Lines, and the identities below `n`, stay as they are; others do not get below `n`. -/
structure Labels.Keeps (φ : Labels) (n : Nat) : Prop where
  line : φ.line = fun line => line
  below : ∀ x, x < n → φ.id x = x
  above : ∀ x, n ≤ x → n ≤ φ.id x

namespace Labels.Keeps

variable {φ : Labels} {n m : Nat}

theorem mono (h : φ.Keeps m) (hle : n ≤ m) : φ.Keeps n := by
  refine ⟨h.line, fun id hid => h.below id (Nat.lt_of_lt_of_le hid hle), fun id hid => ?_⟩
  by_cases hm : id < m
  · rw [h.below id hm]
    exact hid
  · exact Nat.le_trans hle (h.above id (Nat.le_of_not_lt hm))

theorem fixes (h : φ.Keeps m) : φ.Fixes n m := fun id _ hid => h.below id hid

end Labels.Keeps

section

variable {n m : Nat} {globals : List String} {source : String} {d : List (Nat × Nat)}

theorem Parses.distances {tree : List Stmt} (h : Parses n source tree m)
    (hd : resolveProgram globals tree = .ok d) : ∀ entry ∈ d, n ≤ entry.1 ∧ entry.1 < m := by
  have hdistinct := (distinct_parseProgram n (tokenize source).1).2
  rw [h.2] at hdistinct
  exact fun entry hentry => hdistinct.of_mem_ids (mem_ids_of_resolveProgram hd entry hentry)

theorem distances_of_parseExpression {e : Expr}
    (h : parseExpression n (tokenize source).1 = ⟨some e, [], m⟩)
    (hd : resolveExpression globals e = .ok d) : ∀ entry ∈ d, n ≤ entry.1 ∧ entry.1 < m := by
  have hdistinct := (distinct_parseExpression n (tokenize source).1).2
  rw [h] at hdistinct
  exact fun entry hentry => hdistinct.of_mem_ids (mem_ids_of_resolveExpression hd entry hentry)

end

namespace Interpreter

/-- Only identities below `n` are in use. -/
structure Closed (n : Nat) (i : Interpreter) : Prop where
  store : ∀ φ : Labels, φ.Keeps n → i.store.relabel φ = i.store
  distances : ∀ id, n ≤ id → i.distances[id]? = none

namespace Closed

variable {n m p : Nat} {i : Interpreter} {φ : Labels}

theorem relabels (h : i.Closed n) (hφ : φ.Keeps n) : Relabels φ i i := by
  refine ⟨i.distances, fun id => ?_, ?_⟩
  · by_cases hid : id < n
    · rw [hφ.below id hid]
    · have hle := Nat.le_of_not_lt hid
      rw [h.distances id hle, h.distances _ (hφ.above id hle)]
  · unfold relabel
    rw [h.store φ hφ]

theorem of_relabels (h : ∀ φ : Labels, φ.Keeps n → Relabels φ i i)
    (hd : ∀ id, n ≤ id → i.distances[id]? = none) : i.Closed n := by
  refine ⟨fun φ hφ => ?_, hd⟩
  obtain ⟨D, -, hi⟩ := h φ hφ
  exact (congrArg Interpreter.store hi).symm

theorem mono (h : i.Closed n) (hle : n ≤ m) : i.Closed m :=
  ⟨fun φ hφ => h.store φ (hφ.mono hle), fun id hid => h.distances id (Nat.le_trans hle hid)⟩

theorem learn {d : List (Nat × Nat)} (h : i.Closed n) (hd : ∀ entry ∈ d, entry.1 < n) :
    (i.learn d).Closed n := by
  refine ⟨h.store, fun id hid => ?_⟩
  rw [getElem?_learn_of_not_mem]
  · exact h.distances id hid
  · rintro entry hentry rfl
    exact absurd (hd entry hentry) (Nat.not_lt.2 hid)

theorem interpret {tree : List Stmt} (h : i.Closed n)
    (htree : ∀ φ : Labels, φ.Keeps n → tree.map (Stmt.relabel φ) = tree) (fuel : Nat) :
    (i.interpret fuel tree).2.Closed n := by
  refine .of_relabels (fun φ hφ => ?_) fun id hid => ?_
  · have hrun := (h.relabels hφ).interpret fuel tree
    rw [htree φ hφ] at hrun
    exact hrun.2
  · rw [distances_interpret]
    exact h.distances id hid

theorem runExpression {e : Expr} (h : i.Closed n)
    (he : ∀ φ : Labels, φ.Keeps n → e.relabel φ = e) (fuel : Nat) :
    (Session.runExpression fuel i e).2.Closed n := by
  refine .of_relabels (fun φ hφ => ?_) fun id hid => ?_
  · have hrun := (h.relabels hφ).runExpression fuel e
    rw [he φ hφ] at hrun
    exact hrun.2
  · rw [Session.distances_runExpression]
    exact h.distances id hid

/-- What is known of identities that are given out later plays no part. -/
theorem interpret_later {tree : List Stmt} {D : Distances} (h : i.Closed n)
    (htree : ∀ φ : Labels, φ.Keeps n → tree.map (Stmt.relabel φ) = tree)
    (hsame : ∀ id, id < n → D[id]? = i.distances[id]?) (hlast : ∀ id, m ≤ id → D[id]? = none)
    (fuel : Nat) : ({ i with distances := D } : Interpreter).interpret fuel tree =
      ((i.interpret fuel tree).1, { (i.interpret fuel tree).2 with distances := D }) := by
  -- Identities from `n` on are moved to where nothing is known of them.
  let φ : Labels := ⟨id, fun x => if x < n then x else x + m⟩
  have hφ : φ.Keeps n := by
    refine ⟨rfl, fun x hx => if_pos hx, fun x hx => ?_⟩
    have hmoved : φ.id x = x + m := if_neg (Nat.not_lt.2 hx)
    rw [hmoved]
    exact Nat.le_add_right_of_le hx
  have hfinds : i.Finds φ D := by
    intro x
    by_cases hx : x < n
    · rw [hφ.below x hx]
      exact hsame x hx
    · have hmoved : φ.id x = x + m := if_neg hx
      rw [hmoved, hlast _ (Nat.le_add_left m x), h.distances x (Nat.le_of_not_lt hx)]
  have hrun := interpret_relabel i fuel tree hfinds
  have hending : ∀ ending : Ending, ending.relabel φ = ending := by
    intro ending
    rcases ending with _ | (⟨line, cause⟩ | cause) | _ | _ <;> rfl
  rw [htree φ hφ, hending] at hrun
  unfold relabel at hrun
  rw [h.store φ hφ, (h.interpret htree fuel).store φ hφ] at hrun
  exact hrun

end Closed
end Interpreter

namespace Session

variable {s : Session}

/-- All identities in use have been given out. -/
def Closed (s : Session) : Prop := s.interpreter.Closed s.nextId

theorem closed_new (sink : Sink) (clock : Clock) : (Session.new sink clock).Closed := by
  have hdefine : ∀ (φ : Labels) (natives : List Native) (s : Store), s.relabel φ = s →
      (natives.foldl (fun s n => s.define .globals n.name (.native n)) s).relabel φ =
        natives.foldl (fun s n => s.define .globals n.name (.native n)) s := by
    intro φ natives s hs
    induction natives generalizing s with
    | nil => exact hs
    | cons n rest ih =>
      refine ih _ ?_
      have h := Store.define_relabel φ s (.native n) .globals n.name
      rw [hs] at h
      exact h.symm
  have hempty : ∀ φ : Labels, Store.empty.relabel φ = Store.empty := by
    intro φ
    simp [Store.relabel, Store.empty, Arena.relabel, Arena.new, Heap.relabel, Heap.empty, Slot.relabel,
      Frame.relabel]
  exact ⟨fun φ _ => hdefine φ Native.all Store.empty (hempty φ), fun x _ => Std.TreeMap.getElem?_emptyc⟩

/-- Every run gives out the identities of its source. -/
theorem Closed.run (h : s.Closed) (fuel : Nat) (mode : Mode) (source : String) :
    (s.run fuel mode source).2.Closed := by
  have hle := nextId_le_analyze s mode source
  have hstart : s.interpreter.Closed (s.analyze mode source).2 := Interpreter.Closed.mono h hle
  rw [run_eq]
  unfold Closed
  dsimp only
  cases mode with
  | program =>
    obtain ⟨diagnostics, hrejected⟩ | ⟨tree, distances, hparses, hresolved, haccepted⟩ :=
      analyze_program_cases s source
    · rw [hrejected]
      exact hstart
    · rw [haccepted]
      have hlearn := hstart.learn fun entry he => (hparses.distances hresolved entry he).2
      exact hlearn.interpret (fun φ hφ => hparses.relabel hφ.line hφ.fixes) fuel
  | expression =>
    obtain ⟨diagnostics, hrejected⟩ | ⟨e, distances, -, hparses, hresolved, haccepted⟩ :=
      analyze_expression_cases s source
    · rw [hrejected]
      exact hstart
    · rw [haccepted]
      have hlearn := hstart.learn fun entry he =>
        (distances_of_parseExpression hparses hresolved entry he).2
      exact hlearn.runExpression (fun φ hφ => relabel_of_parseExpression hparses hφ.line hφ.fixes) fuel

end Session
end Lox
