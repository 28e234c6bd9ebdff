import Lox.Proofs.Syntax.References

/-!
# Identities are never given out again

Parsing gives every reference of its tree an identity of its own, from a counter that never goes back. This
holds of texts with syntax errors too: what has been read before an error is dropped, and the counter stays
where it is.
-/
namespace Lox

namespace Parser

variable {α β : Type} {before : List Reference} {depth : Nat}

/-- Where the references `before` have different identities that the counter has passed, so have those of
`after` when this has been parsed. -/
def Issues (before : List Reference) (p : Parser α) (after : α → List Reference) : Prop :=
  ∀ n c, n ≤ c.nextId → Distinct n c.nextId before → match p c with
    | .ok a c' => c.nextId ≤ c'.nextId ∧ Distinct n c'.nextId (after a)
    | .error _ c' => c.nextId ≤ c'.nextId

/-- What is parsed has new references, besides those that have been there before. -/
def Adds (refs : α → List Reference) (p : Parser α) : Prop :=
  ∀ before, Issues before p fun a => before ++ refs a

namespace Issues

variable {p : Parser α} {after : α → List Reference}

/-- Not all of what has been read need go into a tree, and its order does not matter. -/
theorem keep {a : α} (h : (after a).Subperm before) : Issues before (Pure.pure a : Parser α) after :=
  fun _ _ _ hbefore => ⟨le_rfl, hbefore.subperm h⟩

theorem pure {a : α} (h : after a = before) : Issues before (Pure.pure a : Parser α) after :=
  .keep (h ▸ .refl _)

theorem bind {f : α → Parser β} {mid : α → List Reference} {after : β → List Reference}
    (hp : Issues before p mid) (hf : ∀ a, Issues (mid a) (f a) after) : Issues before (p >>= f) after := by
  intro n c hn hbefore
  have hfirst := hp n c hn hbefore
  change match EStateM.bind p f c with
    | .ok b c' => c.nextId ≤ c'.nextId ∧ Distinct n c'.nextId (after b)
    | .error _ c' => c.nextId ≤ c'.nextId
  unfold EStateM.bind
  cases h : p c with
  | error fault c' =>
    rw [h] at hfirst
    exact hfirst
  | ok a c' =>
    rw [h] at hfirst
    obtain ⟨hle, hmid⟩ := hfirst
    have hsecond := hf a n c' (hn.trans hle) hmid
    dsimp only
    cases h' : f a c' with
    | error fault c'' =>
      rw [h'] at hsecond
      exact hle.trans hsecond
    | ok b c'' =>
      rw [h'] at hsecond
      exact ⟨hle.trans hsecond.1, hsecond.2⟩

theorem modified {f : Cursor → Cursor} (hf : ∀ c, (f c).nextId = c.nextId) :
    Issues before (modify f : Parser Unit) fun _ => before := by
  intro n c hn hbefore
  change c.nextId ≤ (f c).nextId ∧ Distinct n (f c).nextId before
  rw [hf]
  exact ⟨le_rfl, hbefore⟩

theorem ite {c : Prop} [Decidable c] {q : Parser α} (hp : Issues before p after)
    (hq : Issues before q after) : Issues before (if c then p else q) after := by
  split
  · exact hp
  · exact hq

theorem fail (cause : SyntaxError) : Issues before (Parser.fail cause : Parser α) after :=
  fun _ _ _ _ => le_rfl

theorem next? : Issues before Parser.next? fun _ => before := fun _ _ _ hbefore => ⟨le_rfl, hbefore⟩

theorem advance : Issues before Parser.advance fun _ => before := .modified fun _ => rfl

theorem note (cause : SyntaxError) : Issues before (Parser.note cause) fun _ => before :=
  .modified fun _ => rfl

theorem check (kind : Kind) : Issues before (Parser.check kind) fun _ => before :=
  next?.bind fun _ => .pure rfl

theorem accept (kind : Kind) : Issues before (Parser.accept kind) fun _ => before :=
  (check kind).bind fun _ => .ite (advance.bind fun _ => .pure rfl) (.pure rfl)

theorem expect (kind : Kind) (cause : SyntaxError) : Issues before (Parser.expect kind cause) fun _ => before :=
  (accept kind).bind fun _ => .ite (.pure rfl) (.fail cause)

theorem take? (test : Token → Bool) : Issues before (Parser.take? test) fun _ => before := by
  refine next?.bind fun t => ?_
  cases t with
  | none => exact .pure rfl
  | some t => exact .ite (advance.bind fun _ => .pure rfl) (.pure rfl)

theorem take (kind : Kind) (cause : SyntaxError) : Issues before (Parser.take kind cause) fun _ => before := by
  refine (take? _).bind fun t => ?_
  cases t with
  | none => exact .fail cause
  | some t => exact .pure rfl

theorem ident (cause : SyntaxError) : Issues before (Parser.ident cause) fun _ => before :=
  (take .identifier cause).bind fun _ => .pure rfl

theorem closing : Issues before Parser.closing fun _ => before := by
  refine next?.bind fun t => ?_
  cases t with
  | none => exact .pure rfl
  | some t => exact .pure rfl

theorem limit (count : Nat) (cause : SyntaxError) : Issues before (Parser.limit count cause) fun _ => before :=
  .ite (note cause) (.pure rfl)

end Issues

namespace Adds

variable {p : Parser α} {refs : α → List Reference}

theorem reference (name : Ident) : Adds (fun ref => [ref]) (Parser.reference name) := by
  intro before n c hn hbefore
  exact ⟨c.nextId.le_succ, hbefore.append (.singleton name) hn c.nextId.le_succ⟩

theorem name (cause : SyntaxError) : Adds (fun _ => []) (Parser.ident cause) := by
  intro before
  simp only [List.append_nil]
  exact .ident cause

theorem behind (hp : Adds refs p) (kind : Kind) : Adds (·.elim [] refs) (Parser.behind kind p) :=
  fun before => (Issues.accept kind).bind fun _ =>
    .ite ((hp before).bind fun _ => .pure rfl) (.pure (by simp))

theorem unlessNext (hp : Adds refs p) (kind : Kind) : Adds (·.elim [] refs) (Parser.unlessNext kind p) :=
  fun before => (Issues.check kind).bind fun _ =>
    .ite (.pure (by simp)) ((hp before).bind fun _ => .pure rfl)

theorem separated (hp : Adds refs p) (cause : SyntaxError) (depth count : Nat) :
    Adds (·.flatMap refs) (Parser.separated p cause depth count) := by
  induction depth generalizing count with
  | zero => exact fun before => .fail _
  | succ depth ih =>
    intro before
    refine (Issues.limit count cause).bind fun _ => (hp before).bind fun first =>
      ((ih _).behind .comma _).bind fun rest => .pure ?_
    cases rest <;> simp

/-- Whatever has been read of a declaration with an error is dropped. -/
theorem recovering (hp : Adds refs p) : Adds (·.elim [] refs) (Parser.recovering p) := by
  intro before n c hn hbefore
  have h := hp before n c hn hbefore
  unfold Parser.recovering
  cases hc : p c with
  | ok a c' =>
    rw [hc] at h
    exact h
  | error fault c' =>
    rw [hc] at h
    have hrest : Distinct n c'.nextId (before ++ []) := by simpa using hbefore.mono h
    obtain ⟨_ | ⟨t, rest⟩, endLine, faults, nextId⟩ := c' <;> exact ⟨h, hrest⟩

end Adds

/-! ## Productions -/

mutual

theorem adds_expression (depth : Nat) : Adds Expr.references (expression depth) := by
  cases depth with
  | zero => exact fun _ => .fail _
  | succ depth => exact adds_assignment depth

theorem adds_assignment (depth : Nat) : Adds Expr.references (assignment depth) := by
  cases depth with
  | zero => exact fun _ => .fail _
  | succ depth =>
    refine fun before => (adds_operators depth 0 before).bind fun target => (Issues.take? _).bind fun t => ?_
    cases t with
    | none => exact .pure rfl
    | some equals =>
      refine (adds_assignment depth _).bind fun value => ?_
      cases target with
      | «variable» ref =>
        -- The identity of the name has been given out and is not used.
        refine (Adds.reference ref.name _).bind fun ref' => .keep ?_
        change (before ++ (value.references ++ [ref'])).Subperm _
        rw [← List.append_assoc]
        have hunused := List.sublist_append_left before [ref]
        exact ((hunused.append_right value.references).append_right [ref']).subperm
      | get object name =>
        refine .keep (List.Perm.subperm ?_)
        rw [List.append_assoc]
        exact List.perm_append_comm.append_left before
      | _ =>
        refine Issues.bind (.modified fun _ => rfl) fun _ => .keep ?_
        exact (List.sublist_append_left _ _).subperm

theorem adds_operators (depth level : Nat) : Adds Expr.references (operators depth level) := by
  cases depth with
  | zero => exact fun _ => .fail _
  | succ depth =>
    exact fun before => .ite
      ((adds_operators depth (level + 1) before).bind fun first => issues_chain before depth level first)
      (adds_unary depth before)

theorem issues_chain (before : List Reference) (depth level : Nat) (left : Expr) :
    Issues (before ++ left.references) (chain depth level left) fun e => before ++ e.references := by
  cases depth with
  | zero => exact .fail _
  | succ depth =>
    refine (Issues.take? _).bind fun t => ?_
    cases t with
    | none => exact .pure rfl
    | some t =>
      dsimp only
      cases Connective.ofKind? level t.kind with
      | none => exact .pure rfl
      | some op =>
        refine (adds_operators depth (level + 1) _).bind fun right => ?_
        have h := issues_chain before depth level (op.join t.line left right)
        rwa [Connective.references_join, ← List.append_assoc] at h

theorem adds_unary (depth : Nat) : Adds Expr.references (unary depth) := by
  cases depth with
  | zero => exact fun _ => .fail _
  | succ depth =>
    refine fun before => (Issues.take? _).bind fun t => ?_
    cases t with
    | none => exact (adds_primary depth before).bind fun callee => issues_suffixes before depth callee
    | some t =>
      refine (adds_unary depth before).bind fun operand => ?_
      cases UnaryOp.ofKind? t.kind <;> exact .pure rfl

theorem issues_suffixes (before : List Reference) (depth : Nat) (callee : Expr) :
    Issues (before ++ callee.references) (suffixes depth callee) fun e => before ++ e.references := by
  cases depth with
  | zero => exact .fail _
  | succ depth =>
    refine (Issues.accept .leftParen).bind fun _ => .ite ?_ ?_
    · refine (((adds_expression depth).separated _ _ _).unlessNext _ _).bind fun args =>
        (Issues.take _ _).bind fun paren => ?_
      have h := issues_suffixes before depth (.call callee paren.line (args.getD []))
      rw [Expr.references, Expr.referencesAll_eq, ← List.append_assoc] at h
      cases args <;> exact h
    · exact (Issues.accept .dot).bind fun _ =>
        .ite ((Issues.ident _).bind fun name => issues_suffixes before depth (.get callee name)) (.pure rfl)

theorem adds_primary (depth : Nat) : Adds Expr.references (primary depth) := by
  cases depth with
  | zero => exact fun _ => .fail _
  | succ depth =>
    refine fun before => Issues.next?.bind fun t => ?_
    cases t with
    | none => exact .fail _
    | some t =>
      dsimp only
      cases t.kind with
      | kwThis | identifier =>
        exact Issues.advance.bind fun _ => (Adds.reference _ before).bind fun _ => .pure rfl
      | kwSuper =>
        exact Issues.advance.bind fun _ => (Issues.expect _ _).bind fun _ =>
          (Issues.ident _).bind fun _ => (Adds.reference _ before).bind fun _ => .pure rfl
      | leftParen =>
        exact Issues.advance.bind fun _ => (adds_expression depth before).bind fun _ =>
          (Issues.expect _ _).bind fun _ => .pure rfl
      | kwFalse | kwTrue | kwNil | number | string =>
        exact Issues.advance.bind fun _ => .pure (by simp [Expr.references])
      | _ => exact .fail _

end

theorem adds_varDeclaration (depth : Nat) : Adds Stmt.references (varDeclaration depth) :=
  fun before => (Issues.ident _).bind fun _ => ((adds_expression depth).behind _ before).bind fun _ =>
    (Issues.expect _ _).bind fun _ => .pure rfl

theorem adds_expressionStatement (depth : Nat) : Adds Stmt.references (expressionStatement depth) :=
  fun before => (adds_expression depth before).bind fun _ => (Issues.expect _ _).bind fun _ => .pure rfl

theorem adds_printStatement (depth : Nat) : Adds Stmt.references (printStatement depth) :=
  fun before => (adds_expression depth before).bind fun _ => (Issues.expect _ _).bind fun _ => .pure rfl

theorem adds_returnStatement (depth line : Nat) : Adds Stmt.references (returnStatement depth line) :=
  fun before => ((adds_expression depth).unlessNext _ before).bind fun _ =>
    (Issues.expect _ _).bind fun _ => .pure rfl

theorem adds_forStart (depth : Nat) : Adds (·.elim [] Stmt.references) (forStart depth) :=
  fun before => (Issues.accept _).bind fun _ => .ite (.pure (by simp)) <|
    (Issues.accept _).bind fun _ => .ite
      ((adds_varDeclaration depth before).bind fun _ => .pure rfl)
      ((adds_expressionStatement depth before).bind fun _ => .pure rfl)

mutual

theorem adds_declaration (depth : Nat) : Adds (·.elim [] Stmt.references) (declaration depth) := by
  cases depth with
  | zero => exact fun _ => .pure (by simp)
  | succ depth => exact (adds_declared depth).recovering

theorem adds_declared (depth : Nat) : Adds Stmt.references (declared depth) := by
  cases depth with
  | zero => exact fun _ => .fail _
  | succ depth =>
    exact fun before => (Issues.accept _).bind fun _ => .ite (adds_classDeclaration depth before) <|
      (Issues.accept _).bind fun _ => .ite ((adds_function depth _ before).bind fun _ => .pure rfl) <|
        (Issues.accept _).bind fun _ => .ite (adds_varDeclaration depth before)
          (adds_statement depth before)

theorem adds_declarations (depth : Nat) : Adds Stmt.referencesAll (declarations depth) := by
  cases depth with
  | zero => exact fun _ => .pure (by simp [Stmt.referencesAll])
  | succ depth =>
    refine fun before => Issues.closing.bind fun _ => .ite (.pure (by simp [Stmt.referencesAll])) <|
      (adds_declaration depth before).bind fun first => (adds_declarations depth _).bind fun rest =>
        .pure ?_
    cases first <;> simp [Stmt.referencesAll]

theorem adds_block (depth : Nat) : Adds Stmt.referencesAll (block depth) := by
  cases depth with
  | zero => exact fun _ => .fail _
  | succ depth =>
    exact fun before => (adds_declarations depth before).bind fun _ =>
      (Issues.expect _ _).bind fun _ => .pure rfl

theorem adds_function (depth : Nat) (sort : FunctionSort) :
    Adds FunctionDecl.references (function depth sort) := by
  cases depth with
  | zero => exact fun _ => .fail _
  | succ depth =>
    refine fun before => (Issues.ident _).bind fun _ => (Issues.expect _ _).bind fun _ =>
      (((Adds.name _).separated _ _ _).unlessNext _ before).bind fun params =>
        (Issues.expect _ _).bind fun _ => (Issues.expect _ _).bind fun _ =>
          (adds_block depth _).bind fun _ => .pure ?_
    cases params <;> simp [FunctionDecl.references]

theorem adds_methods (depth : Nat) : Adds FunctionDecl.referencesAll (methods depth) := by
  cases depth with
  | zero => exact fun _ => .pure (by simp [FunctionDecl.referencesAll])
  | succ depth =>
    refine fun before => Issues.closing.bind fun _ => .ite (.pure (by simp [FunctionDecl.referencesAll])) <|
      (adds_function depth _ before).bind fun _ => (adds_methods depth _).bind fun _ => .pure ?_
    simp [FunctionDecl.referencesAll]

theorem adds_classDeclaration (depth : Nat) : Adds Stmt.references (classDeclaration depth) := by
  cases depth with
  | zero => exact fun _ => .fail _
  | succ depth =>
    have hparent : Adds (fun ref => [ref]) (do Parser.reference (← Parser.ident .superclassName)) :=
      fun before => (Issues.ident _).bind fun name => Adds.reference name before
    refine fun before => (Issues.ident _).bind fun _ => (hparent.behind _ before).bind fun parent =>
      (Issues.expect _ _).bind fun _ => (adds_methods depth _).bind fun _ =>
        (Issues.expect _ _).bind fun _ => .pure ?_
    cases parent <;> simp [Stmt.references]

theorem adds_statement (depth : Nat) : Adds Stmt.references (statement depth) := by
  cases depth with
  | zero => exact fun _ => .fail _
  | succ depth =>
    refine fun before => (Issues.accept _).bind fun _ => .ite (adds_forStatement depth before) <|
      (Issues.accept _).bind fun _ => .ite (adds_ifStatement depth before) <|
        (Issues.accept _).bind fun _ => .ite (adds_whileStatement depth before) <|
          (Issues.take? _).bind fun t => ?_
    cases t with
    | some t => exact adds_returnStatement depth t.line before
    | none =>
      exact (Issues.accept _).bind fun _ => .ite ((adds_block depth before).bind fun _ => .pure rfl) <|
        (Issues.accept _).bind fun _ => .ite (adds_printStatement depth before)
          (adds_expressionStatement depth before)

theorem adds_forStatement (depth : Nat) : Adds Stmt.references (forStatement depth) := by
  cases depth with
  | zero => exact fun _ => .fail _
  | succ depth =>
    refine fun before => (Issues.expect _ _).bind fun _ => (adds_forStart depth before).bind fun start =>
      ((adds_expression depth).unlessNext _ _).bind fun condition => (Issues.expect _ _).bind fun _ =>
        ((adds_expression depth).unlessNext _ _).bind fun increment => (Issues.expect _ _).bind fun _ =>
          (adds_statement depth _).bind fun body => .keep (List.Perm.subperm ?_)
    rw [Stmt.references_forLoop]
    simp only [List.append_assoc]
    exact (((List.perm_append_comm.append_left _).append_left _).append_left _)

theorem adds_ifStatement (depth : Nat) : Adds Stmt.references (ifStatement depth) := by
  cases depth with
  | zero => exact fun _ => .fail _
  | succ depth =>
    refine fun before => (Issues.expect _ _).bind fun _ => (adds_expression depth before).bind fun _ =>
      (Issues.expect _ _).bind fun _ => (adds_statement depth _).bind fun _ =>
        ((adds_statement depth).behind _ _).bind fun no => .pure ?_
    cases no <;> simp [Stmt.references]

theorem adds_whileStatement (depth : Nat) : Adds Stmt.references (whileStatement depth) := by
  cases depth with
  | zero => exact fun _ => .fail _
  | succ depth =>
    refine fun before => (Issues.expect _ _).bind fun _ => (adds_expression depth before).bind fun _ =>
      (Issues.expect _ _).bind fun _ => (adds_statement depth _).bind fun _ => .pure ?_
    simp [Stmt.references]

end

theorem adds_program (depth : Nat) : Adds Stmt.referencesAll (program depth) := by
  induction depth with
  | zero => exact fun _ => .pure (by simp [Stmt.referencesAll])
  | succ depth ih =>
    refine fun before => Issues.next?.bind fun t => ?_
    cases t with
    | none => exact .pure (by simp [Stmt.referencesAll])
    | some t =>
      refine (adds_declaration depth before).bind fun first => (ih _).bind fun rest => .pure ?_
      cases first <;> simp [Stmt.referencesAll]

theorem adds_wholeExpression (depth : Nat) : Adds Expr.references (wholeExpression depth) := by
  refine fun before => (adds_expression depth before).bind fun _ => Issues.next?.bind fun t => ?_
  cases t with
  | none => exact .pure rfl
  | some t => exact .fail _

end Parser

/-! ## Texts -/

/-- All references of a program have different new identities, even where it has syntax errors. -/
theorem distinct_parseProgram (n : Nat) (tokens : List Token) :
    n ≤ (parseProgram n tokens).nextId ∧
      Distinct n (parseProgram n tokens).nextId (Stmt.referencesAll (parseProgram n tokens).tree) := by
  have h := Parser.adds_program (Cursor.start n tokens).depth [] n (Cursor.start n tokens) le_rfl .nil
  unfold parseProgram
  dsimp only
  split <;> rename_i hrun <;> rw [hrun] at h
  · exact h
  · exact ⟨h, .nil⟩

theorem distinct_parseExpression (n : Nat) (tokens : List Token) :
    n ≤ (parseExpression n tokens).nextId ∧
      Distinct n (parseExpression n tokens).nextId
        ((parseExpression n tokens).tree.elim [] Expr.references) := by
  have h := Parser.adds_wholeExpression (Cursor.start n tokens).depth [] n (Cursor.start n tokens) le_rfl .nil
  unfold parseExpression
  dsimp only
  split <;> rename_i hrun <;> rw [hrun] at h
  · exact h
  · exact ⟨h, .nil⟩

end Lox
