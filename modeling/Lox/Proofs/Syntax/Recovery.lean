import Lox.Proofs.Syntax.Interruptions
import Lox.Proofs.Syntax.Programs

/-!
# What recovery drops

A declaration that cannot be read is given up at some token. Recovery drops this token, and then all tokens up to the
next that follows a semicolon or begins a declaration. The first it does not look at: where a semicolon is missing at
the end of a statement, the token at which the statement is given up is that with which the next declaration begins,
and this declaration goes with it.
-/
namespace Lox

namespace Cursor

/-- Behind the first token none that begins a declaration is dropped. -/
theorem boundary_drops (last : Token) (tokens : List Token) : ∃ dropped, tokens = dropped ++ boundary last tokens ∧
    ∀ t ∈ dropped, t.kind.startsDeclaration = false := by
  induction tokens generalizing last with
  | nil => exact ⟨[], rfl, nofun⟩
  | cons t rest ih =>
    unfold boundary
    split
    · exact ⟨[], rfl, nofun⟩
    · rename_i hgo
      obtain ⟨dropped, hrest, hdropped⟩ := ih t
      refine ⟨t :: dropped, congrArg (t :: ·) hrest, List.forall_mem_cons.2 ⟨?_, hdropped⟩⟩
      simpa using (not_or.1 hgo).2

theorem synchronize_drops (c : Cursor) : ∃ dropped left, c.rest = dropped ++ left ∧
    c.synchronize = { c with rest := left } ∧ ∀ t ∈ dropped.tail, t.kind.startsDeclaration = false := by
  obtain ⟨_ | ⟨t, rest⟩, endLine, faults, nextId⟩ := c
  · exact ⟨[], [], rfl, rfl, nofun⟩
  · obtain ⟨dropped, hrest, hdropped⟩ := boundary_drops t rest
    exact ⟨t :: dropped, boundary t rest, congrArg (t :: ·) hrest, rfl, hdropped⟩

end Cursor

namespace Parser

variable {α : Type}

/-- A declaration that fails is recorded at the token ahead. That token is dropped, and behind it no other that begins
a declaration. -/
theorem declaration_recovers {depth : Nat} {c c₁ : Cursor} {fault : SyntaxFault}
    (h : declared depth c = .error fault c₁) : fault = c₁.faultAt fault.cause ∧
    ∃ dropped left, c₁.rest = dropped ++ left ∧
      declaration (depth + 1) c = .ok none { c₁ with rest := left, faults := c₁.faults ++ [fault] } ∧
      ∀ t ∈ dropped.tail, t.kind.startsDeclaration = false := by
  have hrun : Paces .none 1 _ c (declared depth c) _ := (agree_bounded depth).declared (.inr Nat.one_pos) c rfl
  rw [h] at hrun
  obtain ⟨dropped, left, hrest, hsynchronize, hdropped⟩ :=
    Cursor.synchronize_drops { c₁ with faults := c₁.faults ++ [fault] }
  refine ⟨hrun.2.2, dropped, left, hrest, ?_, hdropped⟩
  change recovering (declared depth) c = _
  unfold recovering
  rw [h]
  exact congrArg (EStateM.Result.ok none) hsynchronize

/-- What has been read is dropped, with the token at which it was given up. -/
theorem Stops.recovering {p : Parser α} {n : Nat} {input rest : List Token} {t : Token}
    (hp : Stops p n input t rest) : ∃ cause m, ∀ endLine faults,
    Parser.recovering p ⟨input, endLine, faults, n⟩ = .ok none
      ⟨Cursor.boundary t rest, endLine, faults ++ [⟨t.line, .at t.lexeme, cause⟩], m⟩ := by
  obtain ⟨cause, m, hp⟩ := hp
  refine ⟨cause, m, fun endLine faults => ?_⟩
  unfold Parser.recovering
  rw [hp]
  rfl

/-! ## Programs without their last semicolon -/

variable {n m : Nat} {w : List Token}

theorem Repeated.last {P : Nat → List Token → α → Nat → Prop} {as : List α} (h : Repeated P n w as m)
    (has : as ≠ []) : ∃ u v bs a k, w = u ++ v ∧ as = bs ++ [a] ∧ Repeated P n u bs k ∧ P k v a m := by
  induction h with
  | nil => exact absurd rfl has
  | @cons n u a k v as m h hs ih =>
    by_cases has : as = []
    · subst has
      cases hs
      exact ⟨[], u, [], a, n, List.append_nil u, rfl, .nil, h⟩
    · obtain ⟨u', v', bs, b, k', rfl, rfl, hu', hv'⟩ := ih has
      exact ⟨u ++ u', v', a :: bs, b, k', (List.append_assoc _ _ _).symm, rfl, .cons h hu', hv'⟩

theorem Repeated.mono {P Q : Nat → List Token → α → Nat → Prop} {as : List α} (h : Repeated P n w as m)
    (hPQ : ∀ n w a m, P n w a m → Q n w a m) : Repeated Q n w as m := by
  induction h with
  | nil => exact .nil
  | cons h _ ih => exact .cons (hPQ _ _ _ _ h) ih

/-- A program without its last semicolon, and a token there with which a declaration begins: the last declaration is
given up at that token, and what is read after it is read from where recovery has come to. -/
theorem readsTo_cut_short {trees : List Stmt} {t : Token} (rest : List Token) (endLine : Nat)
    (h : Repeated Severable n w trees m) (hlast : LastIs .semicolon w) (ht : t.kind.startsDeclaration = true) :
    ∃ cause k, ∀ tree c', ReadsTo ⟨Cursor.boundary t rest, endLine, [⟨t.line, .at t.lexeme, cause⟩], k⟩ tree c' →
      ReadsTo ⟨w.dropLast ++ t :: rest, endLine, [], n⟩ (trees.dropLast ++ tree) c' := by
  have htrees : trees ≠ [] := by
    rintro rfl
    cases h
    obtain ⟨_, hnone, -⟩ := hlast
    cases hnone
  obtain ⟨u, v, trees, s, k, rfl, rfl, hu, hgiven, hcut⟩ := h.last htrees
  have hv := hgiven.begins.ne_nil
  have hlastv := hlast.of_append hv
  have hahead : NoElse (v.dropLast ++ t :: rest) := ((hgiven.begins.dropLast hlastv rfl).append _).ahead_ne rfl
  have hlength : v.length = v.dropLast.length + 1 := by
    rw [List.length_dropLast, Nat.sub_add_cancel (List.length_pos_of_ne_nil hv)]
  have hstops := hcut hlastv (16 * (v.dropLast ++ t :: rest).length + 13) t rest
    (by simp only [List.length_append, List.length_cons]; omega) ht
  obtain ⟨cause, l, hrecovers⟩ := hstops.recovering
  refine ⟨cause, l, fun tree c' hc' => ?_⟩
  rw [List.dropLast_append_of_ne_nil hv, List.append_assoc, List.dropLast_concat]
  refine ReadsTo.behind (hu.mono fun _ _ _ _ h => h.1) hahead ?_
  refine ReadsTo.cons (o := none) (by simp) (fun depth hdepth => ?_) hc'
  rw [declaration_agree (by simp) hdepth (Nat.le_refl _)]
  exact hrecovers endLine []

/-- Whenever a declaration fails, its error is located at the token ahead; this token is dropped, and of the tokens
behind it none that begins a declaration.

So let a program without an error end in a semicolon, and let tokens that begin with such a token stand in place of
it. There is one error at this token, and then there are exactly those of what stands behind the boundary that recovery
comes to, not of the tokens themselves. Of the program all statements but the last are there, and then those of what
stands behind the boundary. -/
theorem recovery_drops (n nAbove nBelow : Nat) (above below : List Token) (semicolon first last : Token)
    (habove : ∀ t ∈ above, t.kind ≠ .eof) (hsemicolon : semicolon.kind = .semicolon)
    (hfaults : (parseProgram nAbove (above ++ [semicolon])).faults = [])
    (hfirst : first.kind.startsDeclaration = true) (hbelow : ∀ t ∈ below, t.kind ≠ .eof)
    (hlast : last.kind = .eof) :
    let complete := parseProgram nAbove (above ++ [semicolon])
    let left := parseProgram nBelow (Cursor.boundary first below ++ [last])
    let whole := parseProgram n (above ++ first :: below ++ [last])
    (∀ (depth : Nat) (c c₁ : Cursor) (fault : SyntaxFault), declared depth c = .error fault c₁ →
      fault = c₁.faultAt fault.cause ∧ ∃ dropped rest, c₁.rest = dropped ++ rest ∧
        declaration (depth + 1) c = .ok none { c₁ with rest := rest, faults := c₁.faults ++ [fault] } ∧
        ∀ t ∈ dropped.tail, t.kind.startsDeclaration = false) ∧
    (∃ cause, whole.faults = ⟨first.line, .at first.lexeme, cause⟩ :: left.faults) ∧
    whole.tree.map (Stmt.relabel .anonymous) =
      (complete.tree.dropLast ++ left.tree).map (Stmt.relabel .anonymous) := by
  intro complete left whole
  have hclosed : ∀ t ∈ above ++ [semicolon], t.kind ≠ .eof := by
    refine List.forall_mem_append.2 ⟨habove, List.forall_mem_singleton.2 ?_⟩
    rw [hsemicolon]
    nofun
  have hopen : ∀ t ∈ above ++ first :: below, t.kind ≠ .eof :=
    List.forall_mem_append.2 ⟨habove, List.forall_mem_cons.2 ⟨ne_of_starts hfirst rfl, hbelow⟩⟩
  have hboundary : ∀ t ∈ Cursor.boundary first below, t.kind ≠ .eof := fun t ht =>
    hbelow t ((Cursor.boundary_suffix first below).subset ht)
  obtain ⟨cause, k, hcut⟩ := readsTo_cut_short below last.line
    (endsCutShort_of_reading (reading_of_faults hclosed hfaults)) ⟨semicolon, List.getLast?_concat, hsemicolon⟩ hfirst
  -- What stands behind the boundary is read with the error on record, and with later identities.
  obtain ⟨tree, c', hrun⟩ := exists_readsTo (Cursor.start 0 (Cursor.boundary first below ++ [last]))
  let σ : Offset := ⟨k, [⟨first.line, .at first.lexeme, cause⟩]⟩
  have hshifted : ReadsTo ⟨Cursor.boundary first below, last.line, σ.faults, k⟩ (tree.map (Stmt.relabel σ.labels))
      (c'.offset σ) := by
    have hoffset := hrun.offset σ
    rw [start_closed hboundary hlast] at hoffset
    unfold Cursor.offset at hoffset ⊢
    rwa [Nat.zero_add] at hoffset
  have hstart := hcut _ _ hshifted
  rw [List.dropLast_concat, ← start_closed hopen hlast] at hstart
  have hwhole := hstart.parsed
  refine ⟨fun depth c c₁ fault h => declaration_recovers h, ⟨cause, ?_⟩, ?_⟩
  · rw [show whole.faults = _ from faults_parseProgram n nAbove _, hwhole,
      show left.faults = _ from faults_parseProgram nBelow 0 _, hrun.parsed]
    rfl
  · rw [show whole.tree.map _ = _ from anonymous_parseProgram n nAbove _, hwhole, List.map_append, List.map_append,
      show left.tree.map _ = _ from anonymous_parseProgram nBelow 0 _, hrun.parsed, List.map_map]
    exact congrArg (_ ++ ·) (List.map_congr_left fun s _ => s.relabel_comp _ _)

/-- Tokens of `print ;`, where an expression is missing. -/
def emptyPrint : List Token := [⟨.kwPrint, "print", 1⟩, ⟨.semicolon, ";", 1⟩]

/-- In `x print ;` the `print` is dropped, for it is there that the semicolon of `x ;` is missing, and its own error is
not met: of two errors one is reported. -/
theorem swallowed_print :
    (parseProgram 0 [⟨.identifier, "x", 1⟩, ⟨.semicolon, ";", 1⟩]).faults = [] ∧
    (parseProgram 0 (emptyPrint ++ [⟨.eof, "", 1⟩])).faults = [⟨1, .at ";", .expression⟩] ∧
    (parseProgram 0 ([⟨.identifier, "x", 1⟩] ++ emptyPrint ++ [⟨.eof, "", 1⟩])).faults =
      [⟨1, .at "print", .expressionEnd⟩] := by
  decide +kernel

theorem recovery_drops_emptyPrint : ∃ cause,
    (parseProgram 0 ([⟨.identifier, "x", 1⟩] ++ emptyPrint ++ [⟨.eof, "", 1⟩])).faults =
      ⟨1, .at "print", cause⟩ :: (parseProgram 0 [⟨.eof, "", 1⟩]).faults :=
  (recovery_drops 0 0 0 [⟨.identifier, "x", 1⟩] [⟨.semicolon, ";", 1⟩] ⟨.semicolon, ";", 1⟩ ⟨.kwPrint, "print", 1⟩
    ⟨.eof, "", 1⟩ (by decide) rfl (by decide +kernel) rfl (by decide) rfl).2.1

end Parser
end Lox
