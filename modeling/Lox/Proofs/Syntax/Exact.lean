import Lox.Proofs.Syntax.Derivations
import Lox.Proofs.Syntax.Parsing

/-!
# Parsing is exact

No fault is recorded if and only if the tokens derive from the grammar, with no more parameters and
arguments than there may be.
-/
namespace Lox

def Cursor.kinds (c : Cursor) : List Kind := c.rest.map Token.kind

namespace Parser

open Grammar

theorem rest_start {nextId : Nat} {body : List Token} {last : Token}
    (hbody : ∀ t ∈ body, t.kind ≠ .eof) (hlast : last.kind = .eof) :
    (Cursor.start nextId (body ++ [last])).rest = body := by
  have hpass : ∀ t ∈ body, decide (t.kind ≠ .eof) = true := fun t ht => decide_eq_true (hbody t ht)
  show (body ++ [last]).takeWhile _ = body
  rw [List.takeWhile_append_of_pos hpass, List.takeWhile_cons_of_neg (by simp [hlast]),
    List.append_nil]

theorem start_closed {nextId : Nat} {body : List Token} {last : Token}
    (hbody : ∀ t ∈ body, t.kind ≠ .eof) (hlast : last.kind = .eof) :
    Cursor.start nextId (body ++ [last]) = ⟨body, last.line, [], nextId⟩ := by
  have hmiss : body.find? (·.kind = .eof) = none := List.find?_eq_none.2 fun t ht => by simpa using hbody t ht
  have hfind : (body ++ [last]).find? (·.kind = .eof) = some last := by
    rw [List.find?_append, hmiss, Option.none_or, List.find?_cons_of_pos (by simpa using hlast)]
  have hrest : (Cursor.start nextId (body ++ [last])).rest = body := rest_start hbody hlast
  unfold Cursor.start at hrest ⊢
  dsimp only at hrest
  rw [hrest, hfind]

/-- Nor need an end-of-file token close them. -/
theorem rest_start_open {nextId : Nat} {body : List Token} (hbody : ∀ t ∈ body, t.kind ≠ .eof) :
    (Cursor.start nextId body).rest = body := by
  have hpass : ∀ t ∈ body, decide (t.kind ≠ .eof) = true := fun t ht => decide_eq_true (hbody t ht)
  show body.takeWhile _ = body
  rw [← List.append_nil body, List.takeWhile_append_of_pos hpass, List.takeWhile_nil]

theorem reading_of_faults {nextId : Nat} {body : List Token} (hbody : ∀ t ∈ body, t.kind ≠ .eof)
    (hfaults : (parseProgram nextId body).faults = []) :
    Reading (.many .declaration) nextId body (parseProgram nextId body).tree
      (parseProgram nextId body).nextId := by
  have hparse : parseProgram nextId body =
      ⟨(parseProgram nextId body).tree, [], (parseProgram nextId body).nextId⟩ := by
    rw [← hfaults]
  have hread := parseProgram_eq_iff.1 hparse
  rwa [rest_start_open hbody] at hread

theorem parseProgram_faults {nextId : Nat} {tokens : List Token} :
    (parseProgram nextId tokens).faults = [] ↔
      Derivable (.many .declaration) (Cursor.start nextId tokens).kinds := by
  constructor
  · intro hf
    have h : parseProgram nextId tokens =
        ⟨(parseProgram nextId tokens).tree, [], (parseProgram nextId tokens).nextId⟩ := by
      rw [← hf]
    exact derived_of_reading (parseProgram_eq_iff.1 h) .declaration fun _ _ h => h
  · intro h
    obtain ⟨tree, m, hread⟩ := Repeating.reads (readable_of_derivable h) _ nextId rfl
    rw [parseProgram_eq_iff.2 hread]

theorem parseExpression_faults {nextId : Nat} {tokens : List Token} :
    (parseExpression nextId tokens).faults = [] ↔
      Derivable .expression (Cursor.start nextId tokens).kinds := by
  constructor
  · intro hf
    obtain ⟨e, he⟩ := Option.isSome_iff_exists.1 (parseExpression_isSome hf)
    have h : parseExpression nextId tokens =
        ⟨some e, [], (parseExpression nextId tokens).nextId⟩ := by
      rw [← hf, ← he]
    exact derived_of_reading (parseExpression_eq_iff.1 h)
  · intro h
    obtain ⟨e, m, hread⟩ := readable_of_derivable h _ nextId rfl
    rw [parseExpression_eq_iff.2 hread]

theorem derives_program_iff {allowed : Nat → Prop} {w : List Kind} :
    Derives allowed .program (w ++ [.eof]) ↔ Derives allowed (.many .declaration) w := by
  constructor
  · intro h
    generalize hw : w ++ [.eof] = w' at h
    cases h with
    | program h =>
      obtain ⟨rfl, -⟩ := List.append_inj' hw rfl
      exact h
  · exact .program

/-- Of tokens that end in their only end-of-file token: as a program they are parsed without a
fault if and only if they derive from the grammar, and as an expression, without that token, they
are parsed without a fault, and then to a tree, if and only if they derive from its symbol. -/
theorem parse_exact (nextId : Nat) (body : List Token) (last : Token)
    (hbody : ∀ t ∈ body, t.kind ≠ .eof) (hlast : last.kind = .eof) :
    ((parseProgram nextId (body ++ [last])).faults = [] ↔
      Derives (· ≤ maxArity) .program ((body ++ [last]).map Token.kind)) ∧
    (((parseExpression nextId (body ++ [last])).faults = [] ∧
        (parseExpression nextId (body ++ [last])).tree.isSome = true) ↔
      Derives (· ≤ maxArity) .expression (body.map Token.kind)) ∧
    ((parseExpression nextId (body ++ [last])).faults = [] →
      (parseExpression nextId (body ++ [last])).tree.isSome = true) := by
  have hkinds : (Cursor.start nextId (body ++ [last])).kinds = body.map Token.kind := by
    rw [Cursor.kinds, rest_start hbody hlast]
  refine ⟨?_, ⟨fun h => ?_, fun h => ?_⟩, parseExpression_isSome⟩
  · rw [parseProgram_faults, hkinds, List.map_append, List.map_singleton, hlast,
      derives_program_iff]
  · rw [← hkinds]
    exact parseExpression_faults.1 h.1
  · rw [← hkinds] at h
    have hf := parseExpression_faults.2 h
    exact ⟨hf, parseExpression_isSome hf⟩

/-- `if (a) if (b) c; else d;`, which derives from the grammar in two ways. -/
def twoReadings : List Kind :=
  [.kwIf, .leftParen, .identifier, .rightParen, .kwIf, .leftParen, .identifier, .rightParen,
    .identifier, .semicolon, .kwElse, .identifier, .semicolon]

theorem parse_exact_else :
    Derives (· ≤ maxArity) .program (twoReadings ++ [.eof]) ∧
      ¬ Derives (· ≤ maxArity) .expression twoReadings := by
  have h := parse_exact 0 (twoReadings.map (⟨·, "", 1⟩)) ⟨.eof, "", 1⟩ (by decide) rfl
  exact ⟨h.1.1 (by decide +kernel), fun hd => absurd (h.2.1.2 hd).1 (by decide +kernel)⟩

end Parser
end Lox
