import Lox.Proofs.Syntax.Progress

/-!
# Programs from anywhere

A program can be read from any cursor, to the end of its tokens, and more descents than are needed change nothing
about it. So it can be taken apart, declaration by declaration, with no account of the bound. Nor does it matter
which identities have been given out before: the same is read, with later identities.
-/
namespace Lox

/-- Forgets identities and nothing else. -/
def Labels.anonymous : Labels := ⟨fun line => line, fun _ => 0⟩

namespace Parser

variable {c d c' : Cursor} {tree trees : List Stmt}

/-- With enough descents these statements are read from here on, and then there is nothing more. -/
def ReadsTo (c : Cursor) (tree : List Stmt) (c' : Cursor) : Prop :=
  ∀ depth, 16 * c.rest.length + 15 ≤ depth → program depth c = .ok tree c'

theorem exists_readsTo (c : Cursor) : ∃ tree c', ReadsTo c tree c' := by
  obtain ⟨tree, c', -, hrun⟩ := program_cut (.bounded 0) _ c (Nat.le_refl _)
  refine ⟨tree, c', fun depth hdepth => ?_⟩
  have hagree := program_agree (.bounded 0) (.bounded 0) (Nat.le_refl _) hdepth
  rw [hrun, ← Productions.bounded_eq_cut] at hagree
  exact hagree

theorem declaration_agree {depth depth' : Nat} (hrest : c.rest ≠ [])
    (hdepth : 16 * c.rest.length + 14 ≤ depth) (hdepth' : 16 * c.rest.length + 14 ≤ depth') :
    declaration depth c = declaration depth' c := by
  obtain ⟨o, c', -, hrun⟩ := declaration_cut hrest
  have hbounded : ∀ depth, 16 * c.rest.length + 14 ≤ depth → declaration depth c = .ok o c' := by
    intro depth hdepth
    have heq := hrun (.bounded 0) depth hdepth
    rw [← Productions.bounded_eq_cut] at heq
    exact heq
  rw [hbounded depth hdepth, hbounded depth' hdepth']

namespace ReadsTo

/-- A declaration, and what is read after it. -/
theorem cons {o : Option Stmt} (hrest : c.rest ≠ [])
    (hfirst : ∀ depth, 16 * c.rest.length + 14 ≤ depth → declaration depth c = .ok o d)
    (hlater : ReadsTo d tree c') : ReadsTo c (o.toList ++ tree) c' := by
  intro depth hdepth
  obtain ⟨o', d', ho', -, hless⟩ := declaration_consumes (16 * c.rest.length + 13) hrest
  have heq := hfirst _ (Nat.le_refl _)
  rw [ho'] at heq
  cases heq
  obtain ⟨depth, rfl⟩ := Nat.exists_eq_add_of_le' (show 1 ≤ depth by omega)
  have hnext : program (depth + 1) c =
      (declaration depth >>= fun first => program depth >>= fun rest => pure (first.toList ++ rest)) c := by
    obtain ⟨_ | ⟨t, rest⟩, endLine, faults, nextId⟩ := c
    · exact absurd rfl hrest
    · rfl
  rw [hnext, bind_eq, hfirst depth (by omega)]
  dsimp only
  rw [bind_eq, hlater depth (by omega)]
  rfl

/-- What has been recorded and given out before changes nothing but the identities. -/
theorem offset (h : ReadsTo c tree c') (σ : Offset) :
    ReadsTo (c.offset σ) (tree.map (Stmt.relabel σ.labels)) (c'.offset σ) := by
  intro depth hdepth
  have hagree := agree_of_le (σ := σ) (Nat.le_refl depth) (Nat.le_refl depth) (.bounded 0) (.bounded 0)
  rw [← Productions.bounded_eq_cut] at hagree
  have hrun : Paces σ 0 _ c (program depth c) (program depth (c.offset σ)) :=
    hagree.program (.inl hdepth) c rfl
  rw [h depth hdepth] at hrun
  exact hrun.1

theorem parsed {n : Nat} {tokens : List Token} (h : ReadsTo (Cursor.start n tokens) tree c') :
    parseProgram n tokens = ⟨tree, c'.faults, c'.nextId⟩ := by
  have hdepth : (Cursor.start n tokens).depth = 16 * ((Cursor.start n tokens).rest.length + 1) := rfl
  exact parseProgram_of_ok (h _ (by omega))

/-- Declarations that have been read without a fault, and what is read after them. -/
theorem behind {n m endLine : Nat} {w rest : List Token} {faults : List SyntaxFault}
    (hw : Repeated DeclarationGiven n w trees m) (hrest : NoElse rest)
    (h : ReadsTo ⟨rest, endLine, faults, m⟩ tree c') :
    ReadsTo ⟨w ++ rest, endLine, faults, n⟩ (trees ++ tree) c' := by
  induction hw with
  | nil => exact h
  | @cons n u s k v trees m hu hv ih =>
    rw [List.append_assoc]
    refine cons (o := some s) (d := ⟨v ++ rest, endLine, faults, k⟩) ?_ (fun depth hdepth => ?_) (ih h)
    · obtain ⟨t, z, rfl, -⟩ := hu.begins
      exact List.cons_ne_nil _ _
    · rw [List.length_append] at hdepth
      exact hu.gives_declaration (by omega) (noElse_repeated hv hrest) endLine faults

end ReadsTo

theorem start_offset (n : Nat) (tokens : List Token) :
    Cursor.start n tokens = (Cursor.start 0 tokens).offset ⟨n, []⟩ := by
  unfold Cursor.offset
  rw [show (Cursor.start 0 tokens).nextId = 0 from rfl, Nat.zero_add]
  rfl

/-- The first identity only says from where on identities are given out. -/
theorem parseProgram_offset (n : Nat) (tokens : List Token) :
    parseProgram n tokens = ⟨(parseProgram 0 tokens).tree.map (Stmt.relabel (Offset.labels ⟨n, []⟩)),
      (parseProgram 0 tokens).faults, (parseProgram 0 tokens).nextId + n⟩ := by
  obtain ⟨tree, c', hrun⟩ := exists_readsTo (Cursor.start 0 tokens)
  have hshifted := hrun.offset ⟨n, []⟩
  rw [← start_offset] at hshifted
  rw [hshifted.parsed, hrun.parsed]
  rfl

theorem faults_parseProgram (n m : Nat) (tokens : List Token) :
    (parseProgram n tokens).faults = (parseProgram m tokens).faults := by
  rw [parseProgram_offset n, parseProgram_offset m]

theorem anonymous_parseProgram (n m : Nat) (tokens : List Token) :
    (parseProgram n tokens).tree.map (Stmt.relabel .anonymous) =
      (parseProgram m tokens).tree.map (Stmt.relabel .anonymous) := by
  have hforget : ∀ n, (parseProgram n tokens).tree.map (Stmt.relabel .anonymous) =
      (parseProgram 0 tokens).tree.map (Stmt.relabel .anonymous) := by
    intro n
    rw [parseProgram_offset, List.map_map]
    exact List.map_congr_left fun s _ => s.relabel_comp _ _
  rw [hforget n, hforget m]

end Parser
end Lox
