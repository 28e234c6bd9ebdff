import Lox.Proofs.Syntax.Programs

/-!
# Declarations behind declarations

Tokens of whole declarations, and any tokens behind them. The declarations are read as they are read alone, and so is
what is behind them, with its errors: no production looks past its last token, except that a branch looks for an
`else`, and recovery looks no further back than the token that it drops.
-/
namespace Lox.Parser

variable {above below : List Token} {last : Token}

/-- Where there are tokens above and the end-of-file token below, parsing starts with those above. -/
theorem start_append (n m : Nat) (habove : ∀ t ∈ above, t.kind ≠ .eof) (hlast : last.kind = .eof) :
    Cursor.start n (above ++ (below ++ [last])) =
      { Cursor.start m (below ++ [last]) with
        rest := above ++ (Cursor.start m (below ++ [last])).rest, nextId := n } := by
  have hpass : ∀ t ∈ above, decide (t.kind ≠ .eof) = true := fun t ht => decide_eq_true (habove t ht)
  have hmiss : above.find? (·.kind = .eof) = none :=
    List.find?_eq_none.2 fun t ht => by simpa using habove t ht
  obtain ⟨t, ht⟩ : ∃ t, (below ++ [last]).find? (·.kind = .eof) = some t :=
    Option.isSome_iff_exists.1 (List.find?_isSome.2 ⟨last, by simp, by simpa using hlast⟩)
  unfold Cursor.start
  rw [List.takeWhile_append_of_pos hpass, List.find?_append, hmiss, Option.none_or, ht]

theorem noElse_start (m : Nat) (hbelow : ahead below ≠ some .kwElse) (hlast : last.kind = .eof) :
    NoElse (Cursor.start m (below ++ [last])).rest := by
  change ahead ((below ++ [last]).takeWhile (·.kind ≠ .eof)) ≠ some .kwElse
  cases below with
  | nil =>
    rw [List.nil_append, List.takeWhile_cons_of_neg (by simp [hlast])]
    nofun
  | cons t below =>
    rw [List.cons_append, List.takeWhile_cons]
    split
    · exact hbelow
    · nofun

/-- Identities included: what is below is parsed from the identity on that parsing has come to above. -/
theorem parseProgram_behind (n : Nat) (habove : ∀ t ∈ above, t.kind ≠ .eof)
    (hfaults : (parseProgram n above).faults = []) (hbelow : ahead below ≠ some .kwElse)
    (hlast : last.kind = .eof) :
    let first := parseProgram n above
    let second := parseProgram first.nextId (below ++ [last])
    parseProgram n (above ++ (below ++ [last])) =
      ⟨first.tree ++ second.tree, second.faults, second.nextId⟩ := by
  intro first second
  have hreading := reading_of_faults habove hfaults
  obtain ⟨tree, c', hrun⟩ := exists_readsTo (Cursor.start first.nextId (below ++ [last]))
  have hwhole := ReadsTo.behind (given_of_reading hreading) (noElse_start first.nextId hbelow hlast) hrun
  have hsecond : second = ⟨tree, c'.faults, c'.nextId⟩ := hrun.parsed
  rw [hsecond]
  refine ReadsTo.parsed ?_
  rw [start_append n first.nextId habove hlast]
  exact hwhole

/-- Tokens of declarations without an error are followed by tokens that do not begin with `else`, whatever errors
there are in those. Then what is parsed are the declarations of the first and, behind them, what is parsed of the
second alone, with the errors of the second alone. Only the identities are those that are given out in turn. -/
theorem parseProgram_append (n nAbove nBelow : Nat) (above below : List Token) (last : Token)
    (habove : ∀ t ∈ above, t.kind ≠ .eof)
    (hfaults : (parseProgram nAbove above).faults = []) (hbelow : ahead below ≠ some .kwElse)
    (hlast : last.kind = .eof) :
    let first := parseProgram nAbove above
    let second := parseProgram nBelow (below ++ [last])
    let whole := parseProgram n (above ++ (below ++ [last]))
    whole.faults = second.faults ∧
    whole.tree.map (Stmt.relabel .anonymous) = (first.tree ++ second.tree).map (Stmt.relabel .anonymous) ∧
    (n = nAbove → nBelow = first.nextId →
      whole = ⟨first.tree ++ second.tree, second.faults, second.nextId⟩) := by
  intro first second whole
  have hwhole := parseProgram_behind n habove (by rw [faults_parseProgram n nAbove, hfaults]) hbelow hlast
  refine ⟨?_, ?_, ?_⟩
  · rw [show whole = _ from hwhole]
    exact faults_parseProgram _ _ _
  · rw [show whole = _ from hwhole, List.map_append, List.map_append, anonymous_parseProgram n nAbove above,
      anonymous_parseProgram _ nBelow (below ++ [last])]
  · rintro rfl hnext
    rw [show second = parseProgram first.nextId (below ++ [last]) by rw [← hnext]]
    exact hwhole

/-- Tokens of `if (a) b;`, a statement that any `else` would go on with. -/
def branchTokens : List Token :=
  [⟨.kwIf, "if", 1⟩, ⟨.leftParen, "(", 1⟩, ⟨.identifier, "a", 1⟩, ⟨.rightParen, ")", 1⟩, ⟨.identifier, "b", 1⟩,
    ⟨.semicolon, ";", 1⟩]

/-- Tokens of `) x; var = ; y;`, with an error in two of its declarations. -/
def brokenTokens : List Token :=
  [⟨.rightParen, ")", 2⟩, ⟨.identifier, "x", 2⟩, ⟨.semicolon, ";", 2⟩, ⟨.kwVar, "var", 2⟩, ⟨.equal, "=", 2⟩,
    ⟨.semicolon, ";", 2⟩, ⟨.identifier, "y", 2⟩, ⟨.semicolon, ";", 2⟩]

theorem parseProgram_append_broken :
    (parseProgram 7 (branchTokens ++ (brokenTokens ++ [⟨.eof, "", 2⟩]))).faults =
      [⟨2, .at ")", .expression⟩, ⟨2, .at "=", .variableName⟩] := by
  have h := parseProgram_append 7 0 0 branchTokens brokenTokens ⟨.eof, "", 2⟩ (by decide) (by decide +kernel)
    (by decide) rfl
  exact h.1.trans (by decide +kernel)

end Lox.Parser
