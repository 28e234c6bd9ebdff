import Lox.Proofs.Syntax.Exact
import Lox.Proofs.Syntax.Pace

/-!
# Parsing makes progress

Two families of productions that are cut off at the same depth do the same wherever the tokens ahead are few
enough for that depth, whatever stands for the calls that are cut off. Sixteen descents for a token are enough: the
ladder of precedence levels is eleven productions high, statements and declarations stand on top of it, and whoever
goes up the ladder again has consumed a token.

So no run meets its bound, and each comes to its end. A declaration, recovered or not, has then consumed a token.
-/
namespace Lox.Parser

variable {σ : Offset} {free r n : Nat} {P Q : Productions}

/-- Within `n` descents the productions of both families do the same. Where `free` is positive the depth is not looked
at: the productions may be at their bound, and a declaration that is there has consumed nothing. -/
structure Agree (σ : Offset) (free n : Nat) (P Q : Productions) : Prop where
  separated : ∀ {α : Type} {g : α → α} {item item' : Parser α} {r : Nat} (cause : SyntaxError) (count : Nat),
    16 * r + 1 ≤ n ∨ 0 < free → (∀ r' ≤ r, InStep σ r' 1 g item item') →
    InStep σ r 0 (List.map g) (P.separated item cause count) (Q.separated item' cause count)
  expression : ∀ {r}, 16 * r + 11 ≤ n ∨ 0 < free → InStep σ r 1 (Expr.relabel σ.labels) P.expression Q.expression
  assignment : ∀ {r}, 16 * r + 10 ≤ n ∨ 0 < free → InStep σ r 1 (Expr.relabel σ.labels) P.assignment Q.assignment
  operators : ∀ {r level}, level ≤ Connective.levels → 16 * r + (9 - level) ≤ n ∨ 0 < free →
    InStep σ r 1 (Expr.relabel σ.labels) (P.operators level) (Q.operators level)
  chain : ∀ {r level} (left : Expr), level < Connective.levels → 16 * r + 1 ≤ n ∨ 0 < free →
    InStep σ r 0 (Expr.relabel σ.labels) (P.chain level left) (Q.chain level (left.relabel σ.labels))
  unary : ∀ {r}, 16 * r + 2 ≤ n ∨ 0 < free → InStep σ r 1 (Expr.relabel σ.labels) P.unary Q.unary
  suffixes : ∀ {r} (callee : Expr), 16 * r + 1 ≤ n ∨ 0 < free →
    InStep σ r 0 (Expr.relabel σ.labels) (P.suffixes callee) (Q.suffixes (callee.relabel σ.labels))
  primary : ∀ {r}, 16 * r + 1 ≤ n ∨ 0 < free → InStep σ r 1 (Expr.relabel σ.labels) P.primary Q.primary
  declaration : ∀ {r}, 0 < r → 16 * r + 14 ≤ n ∨ 0 < free →
    InStep σ r (1 - free) (Option.map (Stmt.relabel σ.labels)) P.declaration Q.declaration
  declared : ∀ {r}, 16 * r + 13 ≤ n ∨ 0 < free → InStep σ r 1 (Stmt.relabel σ.labels) P.declared Q.declared
  declarations : ∀ {r}, 16 * r + 15 ≤ n ∨ 0 < free →
    InStep σ r 0 (List.map (Stmt.relabel σ.labels)) P.declarations Q.declarations
  block : ∀ {r}, 16 * r + 16 ≤ n ∨ 0 < free → InStep σ r 1 (List.map (Stmt.relabel σ.labels)) P.block Q.block
  function : ∀ {r} (sort : FunctionSort), 16 * r + 1 ≤ n ∨ 0 < free →
    InStep σ r 1 (FunctionDecl.relabel σ.labels) (P.function sort) (Q.function sort)
  methods : ∀ {r}, 16 * r + 2 ≤ n ∨ 0 < free →
    InStep σ r 0 (List.map (FunctionDecl.relabel σ.labels)) P.methods Q.methods
  classDeclaration : ∀ {r}, 16 * r + 1 ≤ n ∨ 0 < free →
    InStep σ r 0 (Stmt.relabel σ.labels) P.classDeclaration Q.classDeclaration
  statement : ∀ {r}, 16 * r + 12 ≤ n ∨ 0 < free → InStep σ r 1 (Stmt.relabel σ.labels) P.statement Q.statement
  forStatement : ∀ {r}, 16 * r + 1 ≤ n ∨ 0 < free → InStep σ r 0 (Stmt.relabel σ.labels) P.forStatement Q.forStatement
  ifStatement : ∀ {r}, 16 * r + 1 ≤ n ∨ 0 < free → InStep σ r 0 (Stmt.relabel σ.labels) P.ifStatement Q.ifStatement
  whileStatement : ∀ {r}, 16 * r + 1 ≤ n ∨ 0 < free →
    InStep σ r 0 (Stmt.relabel σ.labels) P.whileStatement Q.whileStatement
  program : ∀ {r}, 16 * r + 15 ≤ n ∨ 0 < free → InStep σ r 0 (List.map (Stmt.relabel σ.labels)) P.program Q.program

namespace Agree

variable (h : Agree σ free n P Q)

include h

/-! ## Expressions -/

theorem separated_descend {α : Type} {g : α → α} {item item' : Parser α} (cause : SyntaxError) (count : Nat)
    (hr : 16 * r + 1 ≤ n + 1 ∨ 0 < free) (hitem : ∀ r' ≤ r, InStep σ r' 1 g item item') :
    InStep σ r 0 (List.map g) (P.descend.separated item cause count)
      (Q.descend.separated item' cause count) := by
  refine (InStep.limit count cause).bind fun _ r₁ h₁ => (hitem r₁ h₁).any.bind fun first r₂ h₂ =>
    (InStep.behind fun r₃ h₃ => h.separated cause (count + 1) (by omega)
      fun r' hr' => hitem r' (by omega)).bind fun rest _ _ => ?_
  cases rest with
  | none => exact .pure _
  | some rest => exact .pure _

theorem assignment_descend (hr : 16 * r + 10 ≤ n + 1 ∨ 0 < free) :
    InStep σ r 1 (Expr.relabel σ.labels) P.descend.assignment Q.descend.assignment := by
  refine (h.operators (Nat.zero_le _) (by omega)).bind fun target r₁ h₁ =>
    InStep.ifTaken (fun equals r₂ h₂ => ?_) (.pure target)
  refine (h.assignment (by omega)).any.bind fun value r₃ h₃ => ?_
  cases target with
  | «variable» ref => exact (InStep.reference ref.name).bind fun _ _ _ => .pure _
  | get object name => exact .pure _
  | _ => exact .record _ _

theorem operators_descend {level : Nat} (hlevel : level ≤ Connective.levels)
    (hr : 16 * r + (9 - level) ≤ n + 1 ∨ 0 < free) :
    InStep σ r 1 (Expr.relabel σ.labels) (P.descend.operators level) (Q.descend.operators level) := by
  have hlevels : Connective.levels = 6 := rfl
  refine .ite (fun hlt => ?_) fun hnot => h.unary (by omega)
  exact (h.operators hlt (by omega)).bind fun first r₁ h₁ => h.chain first hlt (by omega)

theorem chain_descend {level : Nat} (left : Expr) (hlevel : level < Connective.levels)
    (hr : 16 * r + 1 ≤ n + 1 ∨ 0 < free) :
    InStep σ r 0 (Expr.relabel σ.labels) (P.descend.chain level left)
      (Q.descend.chain level (left.relabel σ.labels)) := by
  refine InStep.ifTaken (fun sign r₁ h₁ => ?_) (.pure left)
  dsimp only
  cases Connective.ofKind? level sign.kind with
  | none => exact .pure left
  | some op =>
    refine (h.operators hlevel (by omega)).any.bind fun right r₂ h₂ => ?_
    have hjoined := h.chain (op.join sign.line left right) hlevel (show 16 * r₂ + 1 ≤ n ∨ 0 < free by omega)
    rw [Connective.relabel_join] at hjoined
    exact hjoined

theorem unary_descend (hr : 16 * r + 2 ≤ n + 1 ∨ 0 < free) :
    InStep σ r 1 (Expr.relabel σ.labels) P.descend.unary Q.descend.unary := by
  refine InStep.ifTaken (fun sign r₁ h₁ => ?_) ?_
  · refine (h.unary (by omega)).any.bind fun operand r₂ h₂ => ?_
    cases UnaryOp.ofKind? sign.kind with
    | none => exact .pure operand
    | some op => exact .pure _
  · exact (h.primary (by omega)).bind fun callee r₁ h₁ => h.suffixes callee (by omega)

theorem suffixes_descend (callee : Expr) (hr : 16 * r + 1 ≤ n + 1 ∨ 0 < free) :
    InStep σ r 0 (Expr.relabel σ.labels) (P.descend.suffixes callee)
      (Q.descend.suffixes (callee.relabel σ.labels)) := by
  refine InStep.ifAccept (fun r₁ h₁ => ?_) (InStep.ifAccept (fun r₁ h₁ => ?_) (.pure callee))
  · refine (h.separated .tooManyArguments 0 (by omega) fun r' hr' =>
      h.expression (by omega)).unlessNext.bind fun args r₂ h₂ =>
      (InStep.take .rightParen .argumentsClose).any.bind fun paren r₃ h₃ => ?_
    have hcall := h.suffixes (.call callee paren.line (args.getD [])) (show 16 * r₃ + 1 ≤ n ∨ 0 < free by omega)
    rw [Expr.relabel, Expr.relabelAll_eq_map] at hcall
    cases args with
    | none => exact hcall
    | some args => exact hcall
  · exact (InStep.ident .propertyName).any.bind fun name r₂ h₂ =>
      h.suffixes (.get callee name) (by omega)

theorem primary_descend (hr : 16 * r + 1 ≤ n + 1 ∨ 0 < free) :
    InStep σ r 1 (Expr.relabel σ.labels) P.descend.primary Q.descend.primary := by
  refine InStep.ifNext (.fail _) fun hpos t => ?_
  have hadvance : InStep σ r 1 id advance advance := .advance hpos
  dsimp only
  cases t.kind with
  | kwFalse | kwTrue | kwNil | number | string => exact hadvance.bind fun _ _ _ => .pure _
  | kwThis | identifier =>
    exact hadvance.bind fun _ _ _ => (InStep.reference _).bind fun _ _ _ => .pure _
  | kwSuper =>
    exact hadvance.bind fun _ _ _ => (InStep.expect _ _).any.bind fun _ _ _ =>
      (InStep.ident _).any.bind fun _ _ _ => (InStep.reference _).bind fun _ _ _ => .pure _
  | leftParen =>
    exact hadvance.bind fun _ r₁ h₁ => (h.expression (by omega)).any.bind fun _ _ _ =>
      (InStep.expect _ _).any.bind fun _ _ _ => .pure _
  | _ => exact .fail _

/-! ## Statements -/

theorem varDeclaration (hr : 16 * r + 11 ≤ n ∨ 0 < free) :
    InStep σ r 1 (Stmt.relabel σ.labels) P.varDeclaration Q.varDeclaration :=
  (InStep.ident _).bind fun _ r₁ h₁ =>
    (InStep.behind fun r₂ h₂ => h.expression (by omega)).bind fun _ _ _ =>
      (InStep.expect _ _).any.bind fun _ _ _ => .pure _

theorem expressionStatement (hr : 16 * r + 11 ≤ n ∨ 0 < free) :
    InStep σ r 1 (Stmt.relabel σ.labels) P.expressionStatement Q.expressionStatement :=
  (h.expression hr).bind fun _ _ _ => (InStep.expect _ _).any.bind fun _ _ _ => .pure _

theorem printStatement (hr : 16 * r + 11 ≤ n ∨ 0 < free) :
    InStep σ r 1 (Stmt.relabel σ.labels) P.printStatement Q.printStatement :=
  (h.expression hr).bind fun _ _ _ => (InStep.expect _ _).any.bind fun _ _ _ => .pure _

theorem returnStatement (line : Nat) (hr : 16 * r + 11 ≤ n ∨ 0 < free) :
    InStep σ r 0 (Stmt.relabel σ.labels) (P.returnStatement line) (Q.returnStatement line) :=
  (h.expression hr).unlessNext.bind fun _ _ _ => (InStep.expect _ _).any.bind fun _ _ _ => .pure _

theorem forStart (hr : 16 * r + 11 ≤ n ∨ 0 < free) :
    InStep σ r 0 (Option.map (Stmt.relabel σ.labels)) P.forStart Q.forStart :=
  InStep.ifAccept (fun _ _ => .pure none) <| InStep.ifAccept
    (fun r₁ h₁ => (h.varDeclaration (by omega)).any.bind fun _ _ _ => .pure _)
    ((h.expressionStatement hr).any.bind fun _ _ _ => .pure _)

/-- An expression and nothing behind it. -/
theorem wholeExpression (hr : 16 * r + 11 ≤ n ∨ 0 < free) :
    InStep σ r 0 (Expr.relabel σ.labels) P.wholeExpression Q.wholeExpression :=
  (h.expression hr).any.bind fun e _ _ => InStep.ifNext (.pure e) fun _ _ => .fail _

theorem declared_descend (hr : 16 * r + 13 ≤ n + 1 ∨ 0 < free) :
    InStep σ r 1 (Stmt.relabel σ.labels) P.descend.declared Q.descend.declared :=
  InStep.ifAccept (fun r₁ h₁ => h.classDeclaration (by omega)) <|
    InStep.ifAccept (fun r₁ h₁ => (h.function _ (by omega)).any.bind fun _ _ _ => .pure _) <|
      InStep.ifAccept (fun r₁ h₁ => (h.varDeclaration (by omega)).any) (h.statement (by omega))

theorem declarations_descend (hr : 16 * r + 15 ≤ n + 1 ∨ 0 < free) :
    InStep σ r 0 (List.map (Stmt.relabel σ.labels)) P.descend.declarations Q.descend.declarations := by
  refine InStep.ifClosing (.pure []) fun hpos => InStep.any (s := 0 + (1 - free)) <|
    (h.declaration hpos (by omega)).bind fun first r₁ h₁ => (h.declarations (by omega)).bind fun rest _ _ => ?_
  cases first with
  | none => exact .pure _
  | some s => exact .pure _

theorem block_descend (hr : 16 * r + 16 ≤ n + 1 ∨ 0 < free) :
    InStep σ r 1 (List.map (Stmt.relabel σ.labels)) P.descend.block Q.descend.block :=
  (h.declarations (by omega)).bind fun _ _ _ => (InStep.expect _ _).bind fun _ _ _ => .pure _

theorem function_descend (sort : FunctionSort) (hr : 16 * r + 1 ≤ n + 1 ∨ 0 < free) :
    InStep σ r 1 (FunctionDecl.relabel σ.labels) (P.descend.function sort) (Q.descend.function sort) := by
  refine (InStep.ident _).bind fun name r₁ h₁ => (InStep.expect _ _).any.bind fun _ r₂ h₂ =>
    (h.separated .tooManyParameters 0 (by omega) fun _ _ =>
      InStep.ident .parameterName).unlessNext.bind fun params r₃ h₃ =>
    (InStep.expect _ _).any.bind fun _ r₄ h₄ => (InStep.expect _ _).any.bind fun _ r₅ h₅ =>
      (h.block (by omega)).any.bind fun body _ _ => ?_
  have hdecl : FunctionDecl.relabel σ.labels ⟨name, params.getD [], body⟩ =
      ⟨name.relabel σ.labels, (params.map (List.map (Ident.relabel σ.labels))).getD [],
        body.map (Stmt.relabel σ.labels)⟩ := by
    rw [FunctionDecl.relabel, Stmt.relabelAll_eq_map]
    cases params <;> rfl
  rw [← hdecl]
  exact .pure _

theorem methods_descend (hr : 16 * r + 2 ≤ n + 1 ∨ 0 < free) :
    InStep σ r 0 (List.map (FunctionDecl.relabel σ.labels)) P.descend.methods Q.descend.methods :=
  InStep.ifClosing (.pure []) fun _ => InStep.any (s := 1) <| (h.function .method (by omega)).bind fun _ r₁ h₁ =>
    (h.methods (by omega)).bind fun _ _ _ => .pure _

theorem classDeclaration_descend (hr : 16 * r + 1 ≤ n + 1 ∨ 0 < free) :
    InStep σ r 0 (Stmt.relabel σ.labels) P.descend.classDeclaration Q.descend.classDeclaration := by
  refine InStep.any (s := 1) <| (InStep.ident _).bind fun name r₁ h₁ =>
    (InStep.behind fun r₂ h₂ => (InStep.ident .superclassName).any.bind fun parent _ _ =>
      InStep.reference parent).bind fun superclass r₃ h₃ => (InStep.expect _ _).any.bind fun _ r₄ h₄ =>
    (h.methods (by omega)).bind fun body _ _ => (InStep.expect _ _).any.bind fun _ _ _ => ?_
  rw [← FunctionDecl.relabelAll_eq_map]
  exact .pure _

theorem statement_descend (hr : 16 * r + 12 ≤ n + 1 ∨ 0 < free) :
    InStep σ r 1 (Stmt.relabel σ.labels) P.descend.statement Q.descend.statement := by
  refine InStep.ifAccept (fun r₁ h₁ => h.forStatement (by omega)) <|
    InStep.ifAccept (fun r₁ h₁ => h.ifStatement (by omega)) <|
      InStep.ifAccept (fun r₁ h₁ => h.whileStatement (by omega)) <|
        InStep.ifTaken (fun t r₁ h₁ => h.returnStatement t.line (by omega)) <|
          InStep.ifAccept (fun r₁ h₁ => (h.block (by omega)).any.bind fun body _ _ => ?_) <|
            InStep.ifAccept (fun r₁ h₁ => (h.printStatement (by omega)).any)
              (h.expressionStatement (by omega))
  rw [← Stmt.relabelAll_eq_map]
  exact .pure _

theorem forStatement_descend (hr : 16 * r + 1 ≤ n + 1 ∨ 0 < free) :
    InStep σ r 0 (Stmt.relabel σ.labels) P.descend.forStatement Q.descend.forStatement := by
  refine InStep.any (s := 1) <| (InStep.expect _ _).bind fun _ r₁ h₁ => (h.forStart (by omega)).bind fun start r₂ h₂ =>
    (h.expression (by omega)).unlessNext.bind fun condition r₃ h₃ => (InStep.expect _ _).any.bind fun _ r₄ h₄ =>
    (h.expression (by omega)).unlessNext.bind fun increment r₅ h₅ => (InStep.expect _ _).any.bind fun _ r₆ h₆ =>
      (h.statement (by omega)).any.bind fun body _ _ => ?_
  rw [← Stmt.relabel_forLoop]
  exact .pure _

theorem ifStatement_descend (hr : 16 * r + 1 ≤ n + 1 ∨ 0 < free) :
    InStep σ r 0 (Stmt.relabel σ.labels) P.descend.ifStatement Q.descend.ifStatement := by
  refine InStep.any (s := 1) <| (InStep.expect _ _).bind fun _ r₁ h₁ => (h.expression (by omega)).any.bind fun _ r₂ h₂ =>
    (InStep.expect _ _).any.bind fun _ r₃ h₃ => (h.statement (by omega)).any.bind fun _ r₄ h₄ =>
      (InStep.behind fun r₅ h₅ => h.statement (by omega)).bind fun no _ _ => ?_
  cases no with
  | none => exact .pure _
  | some no => exact .pure _

theorem whileStatement_descend (hr : 16 * r + 1 ≤ n + 1 ∨ 0 < free) :
    InStep σ r 0 (Stmt.relabel σ.labels) P.descend.whileStatement Q.descend.whileStatement :=
  InStep.any (s := 1) <| (InStep.expect _ _).bind fun _ r₁ h₁ => (h.expression (by omega)).any.bind fun _ r₂ h₂ =>
    (InStep.expect _ _).any.bind fun _ r₃ h₃ => (h.statement (by omega)).any.bind fun _ _ _ => .pure _

theorem program_descend (hr : 16 * r + 15 ≤ n + 1 ∨ 0 < free) :
    InStep σ r 0 (List.map (Stmt.relabel σ.labels)) P.descend.program Q.descend.program := by
  refine InStep.ifNext (.pure []) fun hpos t => InStep.any (s := 0 + (1 - free)) <|
    (h.declaration hpos (by omega)).bind fun first r₁ h₁ => (h.program (by omega)).bind fun rest _ _ => ?_
  cases first with
  | none => exact .pure _
  | some s => exact .pure _

/-- One more descent reaches further. -/
theorem descend : Agree σ free (n + 1) P.descend Q.descend where
  separated cause count hr hitem := h.separated_descend cause count hr hitem
  expression hr := h.assignment (by omega)
  assignment hr := h.assignment_descend hr
  operators hlevel hr := h.operators_descend hlevel hr
  chain left hlevel hr := h.chain_descend left hlevel hr
  unary hr := h.unary_descend hr
  suffixes callee hr := h.suffixes_descend callee hr
  primary hr := h.primary_descend hr
  declaration hpos hr := ((h.declared (by omega)).recovering hpos).less (Nat.sub_le 1 free)
  declared hr := h.declared_descend hr
  declarations hr := h.declarations_descend hr
  block hr := h.block_descend hr
  function sort hr := h.function_descend sort hr
  methods hr := h.methods_descend hr
  classDeclaration hr := h.classDeclaration_descend hr
  statement hr := h.statement_descend hr
  forStatement hr := h.forStatement_descend hr
  ifStatement hr := h.ifStatement_descend hr
  whileStatement hr := h.whileStatement_descend hr
  program hr := h.program_descend hr

end Agree

/-- Without a descent nothing is claimed. -/
theorem agree_zero : Agree σ 0 0 P Q := by
  have hlevels : Connective.levels = 6 := rfl
  constructor <;> intros <;> omega

/-- What stands for the calls that are cut off does not matter. -/
theorem agree_cut (n : Nat) (P Q : Productions) : Agree σ 0 n (P.cut n) (Q.cut n) := by
  induction n with
  | zero => exact agree_zero
  | succ n ih => exact ih.descend

/-- Further descents do not matter either. -/
theorem agree_of_le {d d' : Nat} (hd : n ≤ d) (hd' : n ≤ d') (P Q : Productions) :
    Agree σ 0 n (P.cut d) (Q.cut d') := by
  obtain ⟨k, rfl⟩ := Nat.exists_eq_add_of_le' hd
  obtain ⟨k', rfl⟩ := Nat.exists_eq_add_of_le' hd'
  rw [Productions.cut_add, Productions.cut_add]
  exact agree_cut n _ _

/-- At every bound the productions go forward. -/
theorem agree_bounded (depth : Nat) : Agree σ 1 depth (.bounded depth) (.bounded depth) := by
  induction depth with
  | zero =>
    exact {
      separated := fun _ _ _ _ => .fail _
      expression := fun _ => .fail _
      assignment := fun _ => .fail _
      operators := fun _ _ => .fail _
      chain := fun _ _ _ => .fail _
      unary := fun _ => .fail _
      suffixes := fun _ _ => .fail _
      primary := fun _ => .fail _
      declaration := fun _ _ => .pure none
      declared := fun _ => .fail _
      declarations := fun _ => .pure []
      block := fun _ => .fail _
      function := fun _ _ => .fail _
      methods := fun _ => .pure []
      classDeclaration := fun _ => .fail _
      statement := fun _ => .fail _
      forStatement := fun _ => .fail _
      ifStatement := fun _ => .fail _
      whileStatement := fun _ => .fail _
      program := fun _ => .pure [] }
  | succ depth ih => exact ih.descend

/-! ## Declarations and whole runs -/

/-- At whatever bound a declaration is read, it consumes a token. -/
theorem declaration_consumes (depth : Nat) {c : Cursor} (hrest : c.rest ≠ []) :
    ∃ o c', declaration (depth + 1) c = .ok o c' ∧ c.Consumes c' :=
  ((agree_bounded (σ := .none) depth).declared (.inr Nat.one_pos)).recovering_consumes rfl hrest

/-- With enough descents the same is read, whatever stands for those that are left. -/
theorem declaration_cut {c : Cursor} (hrest : c.rest ≠ []) : ∃ o c', c.Consumes c' ∧
    ∀ (P : Productions) depth, 16 * c.rest.length + 14 ≤ depth → (P.cut depth).declaration c = .ok o c' := by
  obtain ⟨o, c', ho, hconsumes⟩ := declaration_consumes (16 * c.rest.length + 13) hrest
  refine ⟨o, c', hconsumes, fun P depth hdepth => ?_⟩
  have hagree := agree_of_le (σ := .none) (Nat.le_refl _) hdepth (.bounded 0) P
  have hsame := (hagree.declaration (List.length_pos_of_ne_nil hrest) (.inl (Nat.le_refl _))).same
    (fun o => by cases o <;> simp [Offset.labels_none]) rfl
  rw [hsame, ← Productions.bounded_eq_cut]
  exact ho

/-- A program is read to the end of the tokens. -/
theorem program_cut (P : Productions) (depth : Nat) (c : Cursor) (hdepth : 16 * c.rest.length + 15 ≤ depth) :
    ∃ tree c', c'.rest = [] ∧ (P.cut depth).program c = .ok tree c' := by
  induction depth generalizing c with
  | zero => omega
  | succ depth ih =>
    obtain ⟨_ | ⟨t, rest⟩, endLine, faults, nextId⟩ := c
    · exact ⟨[], _, rfl, rfl⟩
    · obtain ⟨o, c₁, ⟨-, hless⟩, hfirst⟩ :=
        declaration_cut (c := ⟨t :: rest, endLine, faults, nextId⟩) (List.cons_ne_nil t rest)
      obtain ⟨tree, c', hend, htree⟩ := ih c₁ (by omega)
      refine ⟨o.toList ++ tree, c', hend, ?_⟩
      change ((P.cut depth).declaration >>= fun first =>
        (P.cut depth).program >>= fun rest => pure (first.toList ++ rest)) _ = _
      rw [bind_eq, hfirst P depth (by omega)]
      change ((P.cut depth).program >>= fun rest => pure (o.toList ++ rest)) c₁ = _
      rw [bind_eq, htree]
      rfl

/-- More descents than are needed change nothing. -/
theorem program_agree {c : Cursor} {d d' : Nat} (P Q : Productions) (hd : 16 * c.rest.length + 15 ≤ d) (hd' : d ≤ d') :
    (Q.cut d').program c = (P.cut d).program c :=
  ((agree_of_le (σ := .none) (Nat.le_refl d) hd' P Q).program (.inl hd)).same
    (fun tree => List.map_id'' Stmt.relabel_identity tree) rfl

theorem wholeExpression_cut {c : Cursor} {d d' : Nat} (P : Productions) (hd : 16 * c.rest.length + 11 ≤ d)
    (hd' : d ≤ d') : (P.cut d').wholeExpression c = wholeExpression d c := by
  have hagree := agree_of_le (σ := .none) (Nat.le_refl d) hd' (.bounded 0) P
  rw [(hagree.wholeExpression (.inl hd)).same (by simp [Offset.labels_none]) rfl, ← Productions.bounded_eq_cut]
  rfl

theorem wholeExpression_suffix (depth : Nat) (c : Cursor) : match wholeExpression depth c with
    | .ok _ c' => c'.rest <:+ c.rest
    | .error _ c' => c'.rest <:+ c.rest := by
  have hrun : Paces .none 0 _ c (wholeExpression depth c) _ :=
    (agree_bounded depth).wholeExpression (.inr Nat.one_pos) c rfl
  cases hwhole : wholeExpression depth c with
  | ok e c' =>
    rw [hwhole] at hrun
    exact hrun.2.1
  | error fault c' =>
    rw [hwhole] at hrun
    exact hrun.2.1

/-- Of tokens with one end-of-file token or none, that stands behind them: parsing as a program comes to its end when
all tokens before the end have been consumed, and parsing as an expression comes to its end before or there. Neither
depends on what happens when descents run out, so none ever do. And whenever a declaration is read before the end,
in whatever block, it consumes at least one of the tokens before the end, recovered or not. -/
theorem parse_progresses (n : Nat) (body : List Token) (ending : Option Token)
    (hbody : ∀ t ∈ body, t.kind ≠ .eof) (hending : ∀ t ∈ ending, t.kind = .eof) :
    let tokens := body ++ ending.toList
    let start := Cursor.start n tokens
    start.rest = body ∧
    (∃ tree c, c.rest = [] ∧ parseProgram n tokens = ⟨tree, c.faults, c.nextId⟩ ∧
      ∀ (P : Productions) depth, start.depth ≤ depth → (P.cut depth).program start = .ok tree c) ∧
    (∃ run,
      (match run with
        | .ok e c => c.rest <:+ body ∧ parseExpression n tokens = ⟨some e, c.faults, c.nextId⟩
        | .error fault c =>
          c.rest <:+ body ∧ parseExpression n tokens = ⟨none, c.faults ++ [fault], c.nextId⟩) ∧
      ∀ (P : Productions) depth, start.depth ≤ depth → (P.cut depth).wholeExpression start = run) ∧
    ∀ c : Cursor, c.rest ≠ [] →
      (∀ depth, ∃ o c', declaration (depth + 1) c = .ok o c' ∧ c.Consumes c') ∧
      ∃ o c', c.Consumes c' ∧
        ∀ (P : Productions) depth, c.depth ≤ depth → (P.cut depth).declaration c = .ok o c' := by
  intro tokens start
  have hstart : start.rest = body := by
    cases ending with
    | none =>
      change (Cursor.start n (body ++ [])).rest = body
      rw [List.append_nil, rest_start_open hbody]
    | some last => exact rest_start hbody (hending last rfl)
  have hdepth : start.depth = 16 * (start.rest.length + 1) := rfl
  refine ⟨hstart, ?_, ?_, fun c hrest => ⟨fun depth => declaration_consumes depth hrest, ?_⟩⟩
  · obtain ⟨tree, c, hend, hrun⟩ := program_cut (.bounded 0) start.depth start (by omega)
    refine ⟨tree, c, hend, ?_, fun P depth hle => ?_⟩
    · rw [← Productions.bounded_eq_cut] at hrun
      exact parseProgram_of_ok hrun
    · rw [program_agree _ P (by omega) hle, hrun]
  · refine ⟨_, ?_, fun P depth hle => wholeExpression_cut P (by omega) hle⟩
    have hsuffix := wholeExpression_suffix start.depth start
    rw [hstart] at hsuffix
    cases hrun : wholeExpression start.depth start with
    | ok e c =>
      rw [hrun] at hsuffix
      exact ⟨hsuffix, parseExpression_of_ok hrun⟩
    | error fault c =>
      rw [hrun] at hsuffix
      exact ⟨hsuffix, parseExpression_of_error hrun⟩
  · obtain ⟨o, c', hconsumes, hrun⟩ := declaration_cut hrest
    have hc : c.depth = 16 * (c.rest.length + 1) := rfl
    exact ⟨o, c', hconsumes, fun P depth hle => hrun P depth (by omega)⟩

/-- Tokens of `{ ) class =`, where no brace is closed and no declaration is whole. -/
def unclosed : List Token :=
  [⟨.leftBrace, "\x7b", 1⟩, ⟨.rightParen, ")", 1⟩, ⟨.kwClass, "class", 1⟩, ⟨.equal, "=", 1⟩]

theorem parse_progresses_unclosed :
    (∃ tree, ∃ c : Cursor, c.rest = [] ∧ parseProgram 0 unclosed = ⟨tree, c.faults, c.nextId⟩) ∧
      ∃ o c', declaration 1 (Cursor.start 0 unclosed) = .ok o c' ∧ (Cursor.start 0 unclosed).Consumes c' := by
  have h := parse_progresses 0 unclosed none (by decide) nofun
  obtain ⟨hstart, ⟨tree, c, hend, hparse, -⟩, -, hdeclaration⟩ := h
  have hrest : (Cursor.start 0 unclosed).rest ≠ [] := by
    rw [show (Cursor.start 0 unclosed).rest = unclosed from hstart]
    exact List.cons_ne_nil _ _
  exact ⟨⟨tree, c, hend, hparse⟩, (hdeclaration _ hrest).1 0⟩

end Lox.Parser
