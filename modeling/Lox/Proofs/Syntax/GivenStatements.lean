import Lox.Proofs.Syntax.GivenExpressions

/-!
# Statements and declarations are read as their phrases say

An open statement is read to its end only if no `else` follows. From the productions one by one,
`given_of_reading` collects what every phrase is good for, by induction on its reading.
-/
namespace Lox.Parser

open Grammar

variable {α : Type}

/-- Trees of one kind in a row. -/
inductive Repeated (P : Nat → List Token → α → Nat → Prop) :
    Nat → List Token → List α → Nat → Prop where
  | nil {n} : Repeated P n [] [] n
  | cons {n u a k v as m} (h : P n u a k) (hs : Repeated P k v as m) :
      Repeated P n (u ++ v) (a :: as) m

/-- Behind a token of this kind. -/
def Behind (kind : Kind) (P : Nat → List Token → α → Nat → Prop) (n : Nat) (w : List Token) (a : α)
    (m : Nat) : Prop :=
  ∃ mark v, w = mark :: v ∧ mark.kind = kind ∧ P n v a m

/-- The tree of a name. -/
def NameGiven (n : Nat) (w : List Token) (name : Ident) (m : Nat) : Prop :=
  ∃ t, w = [t] ∧ t.kind = .identifier ∧ name = t.ident ∧ m = n

def ReferenceGiven (n : Nat) (w : List Token) (ref : Reference) (m : Nat) : Prop :=
  ∃ t, w = [t] ∧ t.kind = .identifier ∧ ref = ⟨n, t.ident⟩ ∧ m = n + 1

def NoElse (rest : List Token) : Prop := ahead rest ≠ some .kwElse

abbrev SimpleGiven : Nat → List Token → Stmt → Nat → Prop :=
  GivenBy startsExpression 0 expressionStatement Anything

abbrev VarGiven : Nat → List Token → Stmt → Nat → Prop :=
  GivenBy (· = .identifier) 0 varDeclaration Anything

def ForStartGiven (n : Nat) (w : List Token) (start : Option Stmt) (m : Nat) : Prop :=
  ∀ depth rest, 16 * w.length ≤ depth → Gives (forStart depth) n (w ++ rest) start m rest

abbrev StatementGiven (isOpen : Bool) : Nat → List Token → Stmt → Nat → Prop :=
  GivenBy startsStatement 1 statement fun rest => isOpen = true → NoElse rest

abbrev DeclarationGiven : Nat → List Token → Stmt → Nat → Prop :=
  GivenBy startsDeclaration 2 declared NoElse

def FunctionGiven (n : Nat) (w : List Token) (decl : FunctionDecl) (m : Nat) : Prop :=
  ∀ sort, GivenBy (· = .identifier) 0 (function · sort) Anything n w decl m

variable {n k m : Nat} {u v w rest : List Token}

/-! ## Simple statements -/

section Simple

variable {e : Expr} {mark semicolon : Token}

theorem simpleGiven (h : ExpressionGiven n w e m) (hend : semicolon.kind = .semicolon) :
    SimpleGiven n (w ++ [semicolon]) (.expression e) m := by
  refine ⟨h.begins.append _, fun depth rest hdepth _ => ?_⟩
  simp only [List.length_append, List.length_cons] at hdepth
  rw [List.append_assoc]
  exact (h.gives depth _ (by omega) (Ends.cons hend (by decide))).bind
    (Gives.expect_then hend Gives.pure)

theorem varGiven {name : Token} {initializer : Option Expr} (hname : name.kind = .identifier)
    (h : Optional (Behind .equal ExpressionGiven) n w m initializer)
    (hend : semicolon.kind = .semicolon) :
    VarGiven n (name :: (w ++ [semicolon])) (.var name.ident initializer) m := by
  refine ⟨⟨name, _, rfl, decide_eq_true hname⟩, fun depth rest hdepth _ => ?_⟩
  simp only [List.length_append, List.length_cons] at hdepth
  rw [List.cons_append, List.append_assoc]
  have hinitializer : Gives (behind .equal (expression depth)) n (w ++ semicolon :: rest)
      initializer m (semicolon :: rest) := by
    cases initializer with
    | none =>
      obtain ⟨rfl, rfl⟩ := h
      exact Gives.behind_miss (by simp [hend])
    | some e =>
      obtain ⟨equals, v, rfl, hequals, hv⟩ := h
      rw [List.length_cons] at hdepth
      exact Gives.behind_hit hequals (hv.gives depth _ (by omega) (Ends.cons hend (by decide)))
  exact (Gives.ident hname).bind (hinitializer.bind (Gives.expect_then hend Gives.pure))

theorem forStartGiven_none (hend : semicolon.kind = .semicolon) :
    ForStartGiven n [semicolon] none n := fun depth rest _ => by
  unfold forStart
  exact Gives.ifAccept_hit hend Gives.pure

theorem forStartGiven_var {s : Stmt} (hmark : mark.kind = .kwVar) (h : VarGiven n w s m) :
    ForStartGiven n (mark :: w) (some s) m := fun depth rest hdepth => by
  rw [List.length_cons] at hdepth
  unfold forStart
  exact Gives.ifAccept_miss (by simp [hmark]) (Gives.ifAccept_hit hmark
    ((h.gives depth rest (by omega) trivial).bind Gives.pure))

theorem forStartGiven_expression {s : Stmt} (h : SimpleGiven n w s m) :
    ForStartGiven n w (some s) m := fun depth rest hdepth => by
  have hbegins := h.begins.append rest
  unfold forStart
  exact Gives.ifAccept_miss (hbegins.ahead_ne rfl) (Gives.ifAccept_miss (hbegins.ahead_ne rfl)
    ((h.gives depth rest hdepth trivial).bind Gives.pure))

/-- A statement that begins with none of the keywords that are tried first. -/
theorem gives_statement_past {depth : Nat} {input : List Token} {s : Stmt}
    (h : ∀ k ∈ [Kind.kwFor, .kwIf, .kwWhile, .kwReturn], ahead input ≠ some k)
    (hs : Gives (do
      if ← accept .leftBrace then return .block (← block depth)
      else if ← accept .kwPrint then printStatement depth
      else expressionStatement depth) n input s m rest) :
    Gives (statement (depth + 1)) n input s m rest := by
  unfold statement
  refine Gives.ifAccept_miss (h _ (by simp)) (Gives.ifAccept_miss (h _ (by simp))
    (Gives.ifAccept_miss (h _ (by simp)) (Gives.untaken (fun k => decide (k = .kwReturn))
      (fun k hk => decide_eq_false ?_) hs)))
  rintro rfl
  exact h _ (by simp) hk

theorem statementGiven_simple {s : Stmt} (h : SimpleGiven n w s m) :
    StatementGiven false n w s m := by
  refine ⟨h.begins.mono fun k hk => by rw [startsStatement, hk]; rfl,
    fun depth rest hdepth _ => ?_⟩
  have hbegins := h.begins.append rest
  obtain ⟨depth, rfl⟩ := Nat.exists_eq_add_of_le' (show 1 ≤ depth by omega)
  refine gives_statement_past (fun k hk => hbegins.ahead_ne ?_)
    (Gives.ifAccept_miss (hbegins.ahead_ne rfl) (Gives.ifAccept_miss (hbegins.ahead_ne rfl)
      (h.gives depth rest (by omega) trivial)))
  simp only [List.mem_cons, List.not_mem_nil, or_false] at hk
  obtain rfl | rfl | rfl | rfl := hk <;> rfl

theorem statementGiven_print (hmark : mark.kind = .kwPrint) (h : ExpressionGiven n w e m)
    (hend : semicolon.kind = .semicolon) :
    StatementGiven false n (mark :: (w ++ [semicolon])) (.print e) m := by
  refine ⟨⟨mark, _, rfl, by rw [hmark]; rfl⟩, fun depth rest hdepth _ => ?_⟩
  simp only [List.length_append, List.length_cons] at hdepth
  obtain ⟨depth, rfl⟩ := Nat.exists_eq_add_of_le' (show 1 ≤ depth by omega)
  rw [List.cons_append, List.append_assoc]
  exact gives_statement_past (by simp [hmark]) (Gives.ifAccept_miss (by simp [hmark])
    (Gives.ifAccept_hit hmark ((h.gives depth _ (by omega) (Ends.cons hend (by decide))).bind
      (Gives.expect_then hend Gives.pure))))

theorem statementGiven_ret {value : Option Expr} (hmark : mark.kind = .kwReturn)
    (h : Optional ExpressionGiven n w m value) (hend : semicolon.kind = .semicolon) :
    StatementGiven false n (mark :: (w ++ [semicolon])) (.ret mark.line value) m := by
  refine ⟨⟨mark, _, rfl, by rw [hmark]; rfl⟩, fun depth rest hdepth _ => ?_⟩
  simp only [List.length_append, List.length_cons] at hdepth
  obtain ⟨depth, rfl⟩ := Nat.exists_eq_add_of_le' (show 1 ≤ depth by omega)
  rw [List.cons_append, List.append_assoc]
  unfold statement
  exact Gives.ifAccept_miss (by simp [hmark]) (Gives.ifAccept_miss (by simp [hmark])
    (Gives.ifAccept_miss (by simp [hmark]) (Gives.taken (decide_eq_true hmark)
    ((gives_unlessNext h hend rfl (by omega) (Ends.cons hend (by decide))).bind
      (Gives.expect_then hend Gives.pure)))))

end Simple

/-! ## Branches and loops -/

section Compound

variable {mark opening closing : Token} {condition : Expr} {isOpen : Bool} {yes no body : Stmt}

theorem statementGiven_ifThen (hmark : mark.kind = .kwIf) (hopening : opening.kind = .leftParen)
    (hcondition : ExpressionGiven n u condition k) (hclosing : closing.kind = .rightParen)
    (h : StatementGiven isOpen k v yes m) :
    StatementGiven true n (mark :: opening :: (u ++ closing :: v))
      (.branch condition yes none) m := by
  refine ⟨⟨mark, _, rfl, by rw [hmark]; rfl⟩, fun depth rest hdepth hrest => ?_⟩
  simp only [List.length_cons, List.length_append] at hdepth
  obtain ⟨depth, rfl⟩ := Nat.exists_eq_add_of_le' (show 2 ≤ depth by omega)
  simp only [List.cons_append, List.append_assoc]
  unfold statement
  refine Gives.ifAccept_miss (by simp [hmark]) (Gives.ifAccept_hit hmark ?_)
  unfold ifStatement
  exact Gives.expect_then hopening
    ((hcondition.gives depth _ (by omega) (Ends.cons hclosing (by decide))).bind
    (Gives.expect_then hclosing ((h.gives depth rest (by omega) fun _ => hrest rfl).bind
    ((Gives.behind_miss (hrest rfl)).bind Gives.pure))))

theorem statementGiven_ifElse (hmark : mark.kind = .kwIf) (hopening : opening.kind = .leftParen)
    (hcondition : ExpressionGiven n u condition k) (hclosing : closing.kind = .rightParen)
    {l : Nat} (hyes : StatementGiven false k v yes l)
    (hno : Behind .kwElse (StatementGiven isOpen) l w no m) :
    StatementGiven isOpen n (mark :: opening :: (u ++ closing :: (v ++ w)))
      (.branch condition yes (some no)) m := by
  obtain ⟨mid, z, rfl, hmid, hno⟩ := hno
  refine ⟨⟨mark, _, rfl, by rw [hmark]; rfl⟩, fun depth rest hdepth hrest => ?_⟩
  simp only [List.length_cons, List.length_append] at hdepth
  obtain ⟨depth, rfl⟩ := Nat.exists_eq_add_of_le' (show 2 ≤ depth by omega)
  simp only [List.cons_append, List.append_assoc]
  unfold statement
  refine Gives.ifAccept_miss (by simp [hmark]) (Gives.ifAccept_hit hmark ?_)
  unfold ifStatement
  exact Gives.expect_then hopening
    ((hcondition.gives depth _ (by omega) (Ends.cons hclosing (by decide))).bind
    (Gives.expect_then hclosing ((hyes.gives depth _ (by omega) nofun).bind
    ((Gives.behind_hit hmid (hno.gives depth rest (by omega) hrest)).bind Gives.pure))))

theorem statementGiven_loop (hmark : mark.kind = .kwWhile) (hopening : opening.kind = .leftParen)
    (hcondition : ExpressionGiven n u condition k) (hclosing : closing.kind = .rightParen)
    (h : StatementGiven isOpen k v body m) :
    StatementGiven isOpen n (mark :: opening :: (u ++ closing :: v)) (.loop condition body) m := by
  refine ⟨⟨mark, _, rfl, by rw [hmark]; rfl⟩, fun depth rest hdepth hrest => ?_⟩
  simp only [List.length_cons, List.length_append] at hdepth
  obtain ⟨depth, rfl⟩ := Nat.exists_eq_add_of_le' (show 2 ≤ depth by omega)
  simp only [List.cons_append, List.append_assoc]
  unfold statement
  refine Gives.ifAccept_miss (by simp [hmark]) (Gives.ifAccept_miss (by simp [hmark])
    (Gives.ifAccept_hit hmark ?_))
  unfold whileStatement
  exact Gives.expect_then hopening
    ((hcondition.gives depth _ (by omega) (Ends.cons hclosing (by decide))).bind
    (Gives.expect_then hclosing ((h.gives depth rest (by omega) hrest).bind Gives.pure)))

theorem statementGiven_forLoop {semicolon : Token} {i c : List Token} {start : Option Stmt}
    {condition increment : Option Expr} {k' k'' : Nat} (hmark : mark.kind = .kwFor)
    (hopening : opening.kind = .leftParen) (hstart : ForStartGiven n i start k)
    (hcondition : Optional ExpressionGiven k c k' condition)
    (hsemicolon : semicolon.kind = .semicolon)
    (hincrement : Optional ExpressionGiven k' u k'' increment)
    (hclosing : closing.kind = .rightParen) (h : StatementGiven isOpen k'' v body m) :
    StatementGiven isOpen n (mark :: opening :: (i ++ (c ++ semicolon :: (u ++ closing :: v))))
      (.forLoop start condition increment body) m := by
  refine ⟨⟨mark, _, rfl, by rw [hmark]; rfl⟩, fun depth rest hdepth hrest => ?_⟩
  simp only [List.length_cons, List.length_append] at hdepth
  obtain ⟨depth, rfl⟩ := Nat.exists_eq_add_of_le' (show 2 ≤ depth by omega)
  simp only [List.cons_append, List.append_assoc]
  unfold statement
  refine Gives.ifAccept_hit hmark ?_
  unfold forStatement
  exact Gives.expect_then hopening ((hstart depth _ (by omega)).bind
    ((gives_unlessNext hcondition hsemicolon rfl (by omega)
      (Ends.cons hsemicolon (by decide))).bind
    (Gives.expect_then hsemicolon ((gives_unlessNext hincrement hclosing rfl (by omega)
      (Ends.cons hclosing (by decide))).bind
    (Gives.expect_then hclosing ((h.gives depth rest (by omega) hrest).bind Gives.pure))))))

end Compound

/-! ## Declarations -/

section Declarations

theorem DeclarationGiven.gives_declaration {s : Stmt} (h : DeclarationGiven n w s m) {depth : Nat}
    (hdepth : 16 * w.length + 3 ≤ depth) (hrest : NoElse rest) :
    Gives (declaration depth) n (w ++ rest) (some s) m rest := by
  obtain ⟨depth, rfl⟩ := Nat.exists_eq_add_of_le' (show 1 ≤ depth by omega)
  exact (h.gives depth rest (by omega) hrest).recovering

theorem noElse_repeated {trees : List Stmt} (h : Repeated DeclarationGiven n w trees m)
    (hrest : NoElse rest) : NoElse (w ++ rest) := by
  cases h with
  | nil => exact hrest
  | cons h _ =>
    rw [List.append_assoc]
    exact (h.begins.append _).ahead_ne rfl

theorem gives_declarations {trees : List Stmt} {closing : Token}
    (h : Repeated DeclarationGiven n w trees m) (hclosing : closing.kind = .rightBrace)
    (depth : Nat) (hdepth : 16 * w.length + 4 ≤ depth) :
    Gives (declarations depth) n (w ++ closing :: rest) trees m (closing :: rest) := by
  induction h generalizing depth with
  | nil =>
    obtain ⟨depth, rfl⟩ := Nat.exists_eq_add_of_le' (show 1 ≤ depth by omega)
    unfold declarations
    exact Gives.ifClosing_hit (.inr (congrArg some hclosing)) Gives.pure
  | @cons n u s k v trees m h hs ih =>
    obtain ⟨t, z, rfl, ht⟩ := h.begins
    simp only [List.length_append, List.length_cons] at hdepth
    obtain ⟨depth, rfl⟩ := Nat.exists_eq_add_of_le' (show 1 ≤ depth by omega)
    unfold declarations
    rw [List.append_assoc]
    refine Gives.ifClosing_miss (show ahead _ = some t.kind from rfl) ?_
      ((h.gives_declaration (by simp only [List.length_cons]; omega)
        (noElse_repeated hs (by simp [NoElse, hclosing]))).bind
      ((ih depth (by omega)).bind Gives.pure))
    intro heq
    rw [heq] at ht
    cases ht

theorem gives_program {trees : List Stmt} (h : Repeated DeclarationGiven n w trees m) (depth : Nat)
    (hdepth : 16 * w.length + 4 ≤ depth) : Gives (program depth) n w trees m [] := by
  induction h generalizing depth with
  | nil =>
    obtain ⟨depth, rfl⟩ := Nat.exists_eq_add_of_le' (show 1 ≤ depth by omega)
    unfold program
    exact Gives.next?_end Gives.pure
  | @cons n u s k v trees m h hs ih =>
    have hrest : NoElse v := by
      have hend : NoElse (v ++ []) := noElse_repeated hs nofun
      rwa [List.append_nil] at hend
    obtain ⟨t, z, rfl, ht⟩ := h.begins
    simp only [List.length_append, List.length_cons] at hdepth
    obtain ⟨depth, rfl⟩ := Nat.exists_eq_add_of_le' (show 1 ≤ depth by omega)
    unfold program
    exact Gives.next? ((h.gives_declaration (by simp only [List.length_cons]; omega) hrest).bind
      ((ih depth (by omega)).bind Gives.pure))

theorem gives_block {body : List Stmt} {closing : Token}
    (h : Repeated DeclarationGiven n w body m) (hclosing : closing.kind = .rightBrace)
    {depth : Nat} (hdepth : 16 * w.length + 5 ≤ depth) :
    Gives (block depth) n (w ++ closing :: rest) body m rest := by
  obtain ⟨depth, rfl⟩ := Nat.exists_eq_add_of_le' (show 1 ≤ depth by omega)
  unfold block
  exact (gives_declarations h hclosing depth (by omega)).bind
    (Gives.expect_then hclosing Gives.pure)

theorem statementGiven_block {opening closing : Token} {body : List Stmt}
    (hopening : opening.kind = .leftBrace) (h : Repeated DeclarationGiven n w body m)
    (hclosing : closing.kind = .rightBrace) :
    StatementGiven false n (opening :: (w ++ [closing])) (.block body) m := by
  refine ⟨⟨opening, _, rfl, by rw [hopening]; rfl⟩, fun depth rest hdepth _ => ?_⟩
  simp only [List.length_append, List.length_cons] at hdepth
  obtain ⟨depth, rfl⟩ := Nat.exists_eq_add_of_le' (show 1 ≤ depth by omega)
  rw [List.cons_append, List.append_assoc]
  exact gives_statement_past (by simp [hopening]) (Gives.ifAccept_hit hopening
    ((gives_block h hclosing (by omega)).bind Gives.pure))

theorem gives_parameters {depth : Nat} {params : Option (List Ident)} {closing : Token}
    (h : Optional (Listed NameGiven) n w m params) (hclosing : closing.kind = .rightParen)
    (hlength : (params.getD []).length ≤ maxArity) (hdepth : w.length + 1 ≤ depth) :
    Gives (unlessNext .rightParen (separated (ident .parameterName) .tooManyParameters depth 0)) n
      (w ++ closing :: rest) params m (closing :: rest) := by
  cases params with
  | none =>
    obtain ⟨rfl, rfl⟩ := h
    exact Gives.unlessNext_hit (congrArg some hclosing)
  | some params =>
    have hbegins : Begins (· = .identifier) w := by
      refine Listed.begins h fun h => ?_
      obtain ⟨t, rfl, ht, -⟩ := h
      exact ⟨t, [], rfl, decide_eq_true ht⟩
    have hle := Listed.length_le h
    refine Gives.unlessNext_miss ((hbegins.append _).ahead_ne rfl)
      (gives_separated h hclosing (fun hu _ _ => ?_) depth 0 (by omega) (by rwa [Nat.zero_add]))
    obtain ⟨t, rfl, ht, rfl, rfl⟩ := hu
    exact Gives.ident ht

theorem functionGiven {name opening closing start stop : Token} {params : Option (List Ident)}
    {body : List Stmt} (hname : name.kind = .identifier) (hopening : opening.kind = .leftParen)
    (hparams : Optional (Listed NameGiven) n w k params)
    (hlength : (params.getD []).length ≤ maxArity) (hclosing : closing.kind = .rightParen)
    (hstart : start.kind = .leftBrace) (h : Repeated DeclarationGiven k v body m)
    (hstop : stop.kind = .rightBrace) :
    FunctionGiven n (name :: opening :: (w ++ closing :: start :: (v ++ [stop])))
      ⟨name.ident, params.getD [], body⟩ m := by
  refine fun sort => ⟨⟨name, _, rfl, decide_eq_true hname⟩, fun depth rest hdepth _ => ?_⟩
  simp only [List.length_append, List.length_cons] at hdepth
  obtain ⟨depth, rfl⟩ := Nat.exists_eq_add_of_le' (show 1 ≤ depth by omega)
  simp only [List.cons_append, List.append_assoc]
  unfold function
  exact (Gives.ident hname).bind (Gives.expect_then hopening
    ((gives_parameters hparams hclosing hlength (by omega)).bind (Gives.expect_then hclosing
    (Gives.expect_then hstart ((gives_block h hstop (by omega)).bind Gives.pure)))))

theorem gives_methods {trees : List FunctionDecl} {closing : Token}
    (h : Repeated FunctionGiven n w trees m) (hclosing : closing.kind = .rightBrace)
    (depth : Nat) (hdepth : 16 * w.length + 1 ≤ depth) :
    Gives (methods depth) n (w ++ closing :: rest) trees m (closing :: rest) := by
  induction h generalizing depth with
  | nil =>
    obtain ⟨depth, rfl⟩ := Nat.exists_eq_add_of_le' (show 1 ≤ depth by omega)
    unfold methods
    exact Gives.ifClosing_hit (.inr (congrArg some hclosing)) Gives.pure
  | @cons n u decl k v trees m h hs ih =>
    have hmethod := h .method
    obtain ⟨t, z, rfl, ht⟩ := hmethod.begins
    simp only [List.length_append, List.length_cons] at hdepth
    obtain ⟨depth, rfl⟩ := Nat.exists_eq_add_of_le' (show 1 ≤ depth by omega)
    unfold methods
    rw [List.append_assoc]
    refine Gives.ifClosing_miss (show ahead _ = some t.kind from rfl) ?_
      ((hmethod.gives depth _ (by simp only [List.length_cons]; omega) trivial).bind
      ((ih depth (by omega)).bind Gives.pure))
    intro heq
    rw [heq] at ht
    cases ht

theorem declarationGiven_class {mark name start stop : Token} {parent : Option Reference}
    {trees : List FunctionDecl} (hmark : mark.kind = .kwClass) (hname : name.kind = .identifier)
    (hparent : Optional (Behind .less ReferenceGiven) n w k parent)
    (hstart : start.kind = .leftBrace) (h : Repeated FunctionGiven k v trees m)
    (hstop : stop.kind = .rightBrace) :
    DeclarationGiven n (mark :: name :: (w ++ start :: (v ++ [stop])))
      (.classDecl name.ident parent trees) m := by
  refine ⟨⟨mark, _, rfl, by rw [hmark]; rfl⟩, fun depth rest hdepth _ => ?_⟩
  simp only [List.length_append, List.length_cons] at hdepth
  obtain ⟨depth, rfl⟩ := Nat.exists_eq_add_of_le' (show 2 ≤ depth by omega)
  simp only [List.cons_append, List.append_assoc]
  have hparent : Gives (behind .less do reference (← ident .superclassName)) n
      (w ++ start :: (v ++ stop :: rest)) parent k (start :: (v ++ stop :: rest)) := by
    cases parent with
    | none =>
      obtain ⟨rfl, rfl⟩ := hparent
      exact Gives.behind_miss (by simp [hstart])
    | some ref =>
      obtain ⟨less, _, rfl, hless, t, rfl, ht, rfl, rfl⟩ := hparent
      exact Gives.behind_hit hless ((Gives.ident ht).bind Gives.reference)
  unfold declared
  refine Gives.ifAccept_hit hmark ?_
  unfold classDeclaration
  exact (Gives.ident hname).bind (hparent.bind (Gives.expect_then hstart
    ((gives_methods h hstop depth (by omega)).bind (Gives.expect_then hstop Gives.pure))))

theorem declarationGiven_fun {mark : Token} {decl : FunctionDecl} (hmark : mark.kind = .kwFun)
    (h : FunctionGiven n w decl m) : DeclarationGiven n (mark :: w) (.function decl) m := by
  refine ⟨⟨mark, _, rfl, by rw [hmark]; rfl⟩, fun depth rest hdepth _ => ?_⟩
  rw [List.length_cons] at hdepth
  obtain ⟨depth, rfl⟩ := Nat.exists_eq_add_of_le' (show 1 ≤ depth by omega)
  unfold declared
  exact Gives.ifAccept_miss (by simp [hmark]) (Gives.ifAccept_hit hmark
    (((h .function).gives depth rest (by omega) trivial).bind Gives.pure))

theorem declarationGiven_var {mark : Token} {s : Stmt} (hmark : mark.kind = .kwVar)
    (h : VarGiven n w s m) : DeclarationGiven n (mark :: w) s m := by
  refine ⟨⟨mark, _, rfl, by rw [hmark]; rfl⟩, fun depth rest hdepth _ => ?_⟩
  rw [List.length_cons] at hdepth
  obtain ⟨depth, rfl⟩ := Nat.exists_eq_add_of_le' (show 1 ≤ depth by omega)
  unfold declared
  exact Gives.ifAccept_miss (by simp [hmark]) (Gives.ifAccept_miss (by simp [hmark])
    (Gives.ifAccept_hit hmark (h.gives depth rest (by omega) trivial)))

theorem declarationGiven_nothing {isOpen : Bool} {s : Stmt} (h : StatementGiven isOpen n w s m) :
    DeclarationGiven n w s m := by
  refine ⟨h.begins.mono fun k hk => by rw [startsDeclaration, hk]; rfl,
    fun depth rest hdepth hrest => ?_⟩
  have hbegins := h.begins.append rest
  obtain ⟨depth, rfl⟩ := Nat.exists_eq_add_of_le' (show 1 ≤ depth by omega)
  unfold declared
  exact Gives.ifAccept_miss (hbegins.ahead_ne rfl) (Gives.ifAccept_miss (hbegins.ahead_ne rfl)
    (Gives.ifAccept_miss (hbegins.ahead_ne rfl) (h.gives depth rest (by omega) fun _ => hrest)))

end Declarations

/-! ## Every phrase -/

/-- What the reading of a phrase is good for, in the terms of the production that reads it. -/
def Given : (p : Phrase) → Nat → List Token → p.Tree → Nat → Prop
  | .ident => NameGiven
  | .reference => ReferenceGiven
  | .expression .assignment => ExpressionGiven
  | .expression (.level l) => fun n w e m =>
      LevelGiven l n w e m ∧ (l < Connective.levels → ChainGiven l n w e m)
  | .expression .unary => UnaryGiven
  | .expression .call => CallGiven
  | .expression .primary => PrimaryGiven
  | .expressionStatement => SimpleGiven
  | .varDeclaration => VarGiven
  | .forStart => ForStartGiven
  | .statement isOpen => StatementGiven isOpen
  | .declaration => DeclarationGiven
  | .function => FunctionGiven
  | .opt p => fun n w o m => Optional (Given p) n w m o
  | .many p => Repeated (Given p)
  | .separated p => Listed (Given p)
  | .after kind p => Behind kind (Given p)

/-- By induction on the reading, with one case for every way to read a phrase. -/
theorem given_of_reading {p : Phrase} {t : p.Tree} (h : Reading p n w t m) : Given p n w t m := by
  induction h with
  | optNone => exact ⟨rfl, rfl⟩
  | optSome _ ih => exact ih
  | manyNil => exact .nil
  | manyCons _ _ ih ihs => exact .cons ih ihs
  | separatedOne _ ih => exact .one ih
  | separatedMore _ hcomma _ ih ihs => exact .more ih hcomma ihs
  | after hmark _ ih => exact ⟨_, _, rfl, hmark, ih⟩
  | ident hname => exact ⟨_, rfl, hname, rfl, rfl⟩
  | reference hname => exact ⟨_, rfl, hname, rfl, rfl⟩
  | assignName hname hequals _ ih =>
    exact expressionGiven (assignmentGiven_name hname hequals ih.assignment)
  | assignField _ hdot hname hequals _ ihu ih =>
    exact expressionGiven (assignmentGiven_field ihu hdot hname hequals ih.assignment)
  | loosest _ ih => exact expressionGiven (assignmentGiven_loosest ih.1)
  | tighter hl _ ih =>
    have hchain := chainGiven_tighter hl ih.1
    exact ⟨hchain.level, fun _ => hchain⟩
  | joined _ hop _ ihleft ihright =>
    have hchain := chainGiven_joined (ihleft.2 (lt_levels hop)) hop ihright.1
    exact ⟨hchain.level, fun _ => hchain⟩
  | tightest _ ih => exact ⟨levelGiven_tightest ih, fun h => absurd h (Nat.lt_irrefl _)⟩
  | prefixed hop _ ih => exact unaryGiven_prefixed hop ih
  | unprefixed _ ih => exact unaryGiven_unprefixed ih
  | callee _ ih => exact callGiven_callee ih
  | call _ hopening _ hargs hclosing ihcallee ih =>
    exact callGiven_call ihcallee hopening ih hargs hclosing
  | get _ hdot hname ih => exact callGiven_get ih hdot hname
  | literal ht => exact primaryGiven_literal ht
  | this ht => exact primaryGiven_this ht
  | «variable» ht => exact primaryGiven_variable ht
  | super ht hdot hmethod => exact primaryGiven_super ht hdot hmethod
  | grouping hopening _ hclosing ih => exact primaryGiven_grouping hopening ih hclosing
  | expressionStatement _ hend ih => exact simpleGiven ih hend
  | varDeclaration hname _ hend ih => exact varGiven hname ih hend
  | forNone hend => exact forStartGiven_none hend
  | forVar hmark _ ih => exact forStartGiven_var hmark ih
  | forExpression _ ih => exact forStartGiven_expression ih
  | simple _ ih => exact statementGiven_simple ih
  | print hmark _ hend ih => exact statementGiven_print hmark ih hend
  | ret hmark _ hend ih => exact statementGiven_ret hmark ih hend
  | block hopening _ hclosing ih => exact statementGiven_block hopening ih hclosing
  | ifThen hmark hopening _ hclosing _ ihcondition ih =>
    exact statementGiven_ifThen hmark hopening ihcondition hclosing ih
  | ifElse hmark hopening _ hclosing _ _ ihcondition ihyes ihno =>
    exact statementGiven_ifElse hmark hopening ihcondition hclosing ihyes ihno
  | loop hmark hopening _ hclosing _ ihcondition ih =>
    exact statementGiven_loop hmark hopening ihcondition hclosing ih
  | forLoop hmark hopening _ _ hsemicolon _ hclosing _ ihstart ihcondition ihincrement ih =>
    exact statementGiven_forLoop hmark hopening ihstart ihcondition hsemicolon ihincrement hclosing
      ih
  | function hname hopening _ hlength hclosing hstart _ hstop ihparams ih =>
    exact functionGiven hname hopening ihparams hlength hclosing hstart ih hstop
  | declareClass hmark hname _ hstart _ hstop ihparent ih =>
    exact declarationGiven_class hmark hname ihparent hstart ih hstop
  | declareFun hmark _ ih => exact declarationGiven_fun hmark ih
  | declareVar hmark _ ih => exact declarationGiven_var hmark ih
  | declareNothing _ ih => exact declarationGiven_nothing ih

end Lox.Parser
