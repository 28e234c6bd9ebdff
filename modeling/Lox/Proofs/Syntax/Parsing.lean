import Lox.Proofs.Syntax.Found
import Lox.Proofs.Syntax.GivenStatements

/-!
# Parsing without faults

A program or an expression is parsed to a tree without a fault if and only if the tokens before the
end are a reading of it.
-/
namespace Lox.Parser

variable {n m : Nat} {tokens : List Token}

/-! ## Results of runs -/

theorem parseProgram_of_ok {tree : List Stmt} {c : Cursor}
    (h : program (Cursor.start n tokens).depth (Cursor.start n tokens) = .ok tree c) :
    parseProgram n tokens = ⟨tree, c.faults, c.nextId⟩ := by
  unfold parseProgram
  dsimp only
  rw [h]

theorem parseExpression_of_ok {e : Expr} {c : Cursor}
    (h : wholeExpression (Cursor.start n tokens).depth (Cursor.start n tokens) = .ok e c) :
    parseExpression n tokens = ⟨some e, c.faults, c.nextId⟩ := by
  unfold parseExpression
  dsimp only
  rw [h]

theorem parseExpression_of_error {fault : SyntaxFault} {c : Cursor}
    (h : wholeExpression (Cursor.start n tokens).depth (Cursor.start n tokens) = .error fault c) :
    parseExpression n tokens = ⟨none, c.faults ++ [fault], c.nextId⟩ := by
  unfold parseExpression
  dsimp only
  rw [h]

/-! ## Runs without faults -/

/-- A bound on the descent that is larger than the number of tokens is not met between
declarations, so a program without faults has been read to its end. -/
theorem finds_program (depth : Nat) : Finds (program depth) fun n w tree m r =>
    (w ++ r).length < depth → r = [] ∧ Reading (.many .declaration) n w tree m := by
  induction depth with
  | zero => exact Finds.pure fun _ _ h => absurd h (Nat.not_lt_zero _)
  | succ depth ih =>
    unfold program
    refine Finds.next? (Finds.pure fun n r h _ => ⟨h, .manyNil⟩) fun t => Finds.at ?_
    refine (statementsFound depth).declaration.bind fun first => ih.bind fun rest =>
      Finds.pure fun m r k v hv n u hu hhead hlength => ?_
    rw [List.append_nil] at hlength hhead ⊢
    rw [List.nil_append] at hv
    have hpos := List.length_pos_of_mem (List.mem_of_mem_head? hhead)
    simp only [List.length_append] at hv hlength hpos
    obtain ⟨s, rfl, hs⟩ | ⟨rfl, rfl, rfl, rfl⟩ := hu
    · obtain ⟨t, z, rfl, -⟩ := (given_of_reading hs).begins
      rw [List.length_cons] at hlength
      obtain ⟨hr, hv⟩ := hv (by omega)
      exact ⟨hr, .manyCons hs hv⟩
    · omega

theorem finds_wholeExpression (depth : Nat) : Finds (wholeExpression depth) fun n w e m r =>
    r = [] ∧ Reading (.expression .assignment) n w e m := by
  refine (finds_expression depth).bind fun e => Finds.next? ?_ fun t => Finds.at Finds.fail
  refine Finds.pure fun m r h n w hw => ⟨h, ?_⟩
  rwa [List.append_nil]

theorem gives_wholeExpression {w : List Token} {e : Expr}
    (h : Reading (.expression .assignment) n w e m) {depth : Nat}
    (hdepth : 16 * w.length + 11 ≤ depth) : Gives (wholeExpression depth) n w e m [] := by
  have hgives := (given_of_reading h).gives depth [] hdepth nofun
  rw [List.append_nil] at hgives
  exact hgives.bind (Gives.next?_end Gives.pure)

theorem parseProgram_eq_iff {tree : List Stmt} :
    parseProgram n tokens = ⟨tree, [], m⟩ ↔
      Reading (.many .declaration) n (Cursor.start n tokens).rest tree m := by
  have hdepth : (Cursor.start n tokens).depth = 16 * ((Cursor.start n tokens).rest.length + 1) :=
    rfl
  constructor
  · intro h
    unfold parseProgram at h
    dsimp only at h
    cases hr : program (Cursor.start n tokens).depth (Cursor.start n tokens) with
    | ok tree' c =>
      rw [hr] at h
      simp only [Parsed.mk.injEq] at h
      obtain ⟨rfl, hf, rfl⟩ := h
      obtain ⟨-, w, hw, hread⟩ := finds_program _ _ _ _ hr hf
      obtain ⟨hend, hread⟩ := hread (by rw [← hw, hdepth]; omega)
      rw [hw, hend, List.append_nil]
      exact hread
    | error fault c =>
      rw [hr] at h
      simp at h
  · intro h
    exact parseProgram_of_ok (gives_program (given_of_reading h) (Cursor.start n tokens).depth (by omega)
      (Cursor.start n tokens).endLine [])

theorem parseExpression_eq_iff {e : Expr} :
    parseExpression n tokens = ⟨some e, [], m⟩ ↔
      Reading (.expression .assignment) n (Cursor.start n tokens).rest e m := by
  have hdepth : (Cursor.start n tokens).depth = 16 * ((Cursor.start n tokens).rest.length + 1) :=
    rfl
  constructor
  · intro h
    unfold parseExpression at h
    dsimp only at h
    cases hr : wholeExpression (Cursor.start n tokens).depth (Cursor.start n tokens) with
    | ok e' c =>
      rw [hr] at h
      simp only [Parsed.mk.injEq, Option.some.injEq] at h
      obtain ⟨rfl, hf, rfl⟩ := h
      obtain ⟨-, w, hw, hend, hread⟩ := finds_wholeExpression _ _ _ _ hr hf
      rw [hw, hend, List.append_nil]
      exact hread
    | error fault c =>
      rw [hr] at h
      simp at h
  · intro h
    exact parseExpression_of_ok (gives_wholeExpression h (show _ ≤ (Cursor.start n tokens).depth by omega)
      (Cursor.start n tokens).endLine [])

/-- A tree that is missing comes with a fault. -/
theorem parseExpression_isSome (h : (parseExpression n tokens).faults = []) :
    (parseExpression n tokens).tree.isSome = true := by
  unfold parseExpression at h ⊢
  dsimp only at h ⊢
  cases hr : wholeExpression (Cursor.start n tokens).depth (Cursor.start n tokens) with
  | ok tree c => rfl
  | error fault c =>
    rw [hr] at h
    simp at h

end Lox.Parser
