import Lox.Proofs.Syntax.ParserLogic

/-!
# What is found is a reading

A run of a production that records nothing has consumed a phrase and returns its tree. The bound on
the descent plays no part in this, except that the induction is on it.
-/
namespace Lox.Parser

variable {depth : Nat}

/-! ## Targets -/

/-- What an expression that may stand left of an equals sign was read from. -/
def Target (n : Nat) (w : List Token) (m : Nat) : Expr → Prop
  | .variable ref =>
    ∃ name, w = [name] ∧ name.kind = .identifier ∧ ref = ⟨n, name.ident⟩ ∧ m = n + 1
  | .get object property => ∃ u dot name, w = u ++ [dot, name] ∧ dot.kind = .dot ∧
      name.kind = .identifier ∧ property = name.ident ∧ Reading (.expression .call) n u object m
  | _ => True

/-- `Target` for the trees of expressions, whatever their rank. -/
def Targeted : (ph : Phrase) → Nat → List Token → ph.Tree → Nat → Prop
  | .expression _, n, w, e, m => Target n w m e
  | _, _, _, _, _ => True

theorem target_join (n m : Nat) (w : List Token) (op : Connective) (line : Nat)
    (left right : Expr) : Target n w m (op.join line left right) := by
  cases op <;> trivial

theorem targeted {ph : Phrase} {n m : Nat} {w : List Token} {t : ph.Tree}
    (h : Reading ph n w t m) : Targeted ph n w t m := by
  induction h with
  | loosest _ ih | tighter _ _ ih | tightest _ ih | unprefixed _ ih | callee _ ih => exact ih
  | joined => exact target_join ..
  | «variable» ht => exact ⟨_, rfl, ht, rfl, rfl⟩
  | get h hdot hname => exact ⟨_, _, _, rfl, hdot, hname, rfl, h⟩
  | _ => trivial

/-! ## Expressions -/

/-- What the productions for expressions find. The loops go on from a tree for what was read
before. -/
structure ExpressionsFound (depth : Nat) : Prop where
  expression : FindsPhrase (.expression .assignment) (expression depth)
  assignment : FindsPhrase (.expression .assignment) (assignment depth)
  operators : ∀ l ≤ Connective.levels, FindsPhrase (.expression (.level l)) (operators depth l)
  chain : ∀ l < Connective.levels, ∀ left, Finds (chain depth l left) fun k v e m _ =>
    ∀ n u, Reading (.expression (.level l)) n u left k →
      Reading (.expression (.level l)) n (u ++ v) e m
  unary : FindsPhrase (.expression .unary) (unary depth)
  suffixes : ∀ callee, Finds (suffixes depth callee) fun k v e m _ =>
    ∀ n u, Reading (.expression .call) n u callee k → Reading (.expression .call) n (u ++ v) e m
  primary : FindsPhrase (.expression .primary) (primary depth)

theorem finds_assignment (ih : ExpressionsFound depth) :
    FindsPhrase (.expression .assignment) (assignment (depth + 1)) := by
  unfold assignment
  refine (ih.operators 0 (Nat.zero_le _)).bind fun target => Finds.ifTaken (fun equals he => ?_) ?_
  · have hequals : equals.kind = .equal := of_decide_eq_true he
    refine ih.assignment.bind fun value => ?_
    cases target with
    | «variable» ref =>
      refine Finds.reference.bind fun assigned => Finds.pure fun l r m z hassigned k v hv n u hu => ?_
      obtain ⟨rfl, rfl, rfl⟩ := hassigned
      obtain ⟨name, rfl, hname, rfl, rfl⟩ := targeted hu
      rw [List.append_nil, List.append_nil]
      exact .assignName hname hequals hv
    | get object property =>
      refine Finds.pure fun m r k v hv n u hu => ?_
      obtain ⟨u', dot, name, rfl, hdot, hname, rfl, hobject⟩ := targeted hu
      rw [List.append_nil, List.append_assoc]
      exact .assignField hobject hdot hname hequals hv
    | _ => exact Finds.record
  · refine Finds.pure fun m r _ n u hu => ?_
    rw [List.append_nil]
    exact .loosest hu

theorem finds_operators (ih : ExpressionsFound depth) (l : Nat) (hl : l ≤ Connective.levels) :
    FindsPhrase (.expression (.level l)) (operators (depth + 1) l) := by
  unfold operators
  by_cases h : l < Connective.levels
  · rw [if_pos h]
    exact (ih.operators (l + 1) h).bind fun first => (ih.chain l h first).mono
      fun k v e m r he n u hu => he n u (.tighter h hu)
  · rw [if_neg h]
    obtain rfl : l = Connective.levels := Nat.le_antisymm hl (Nat.le_of_not_lt h)
    exact ih.unary.mono fun _ _ _ _ _ h => .tightest h

theorem finds_chain (ih : ExpressionsFound depth) (l : Nat) (hl : l < Connective.levels)
    (left : Expr) : Finds (chain (depth + 1) l left) fun k v e m _ =>
      ∀ n u, Reading (.expression (.level l)) n u left k →
        Reading (.expression (.level l)) n (u ++ v) e m := by
  unfold chain
  refine Finds.ifTaken (fun sign hsign => ?_) (Finds.pure fun k r _ n u hu => ?_)
  · dsimp only
    obtain ⟨op, hop⟩ := Option.isSome_iff_exists.1 hsign
    rw [hop]
    refine (ih.operators (l + 1) hl).bind fun right => (ih.chain l hl _).mono ?_
    intro k v e m r he k₁ u₁ hright n u hleft
    rw [← List.cons_append, ← List.append_assoc]
    exact he n _ (.joined hleft hop hright)
  · rwa [List.append_nil]

theorem finds_unary (ih : ExpressionsFound depth) :
    FindsPhrase (.expression .unary) (unary (depth + 1)) := by
  unfold unary
  refine Finds.ifTaken (fun sign hsign => ?_) ?_
  · obtain ⟨op, hop⟩ := Option.isSome_iff_exists.1 hsign
    refine ih.unary.bind fun operand => ?_
    rw [hop]
    refine Finds.pure fun m r n u hu => ?_
    rw [List.append_nil]
    exact .prefixed hop hu
  · refine ih.primary.bind fun callee => (ih.suffixes callee).mono ?_
    intro k v e m r he n u hu _
    exact .unprefixed (he n u (.callee hu))

theorem finds_suffixes (ih : ExpressionsFound depth) (callee : Expr) :
    Finds (suffixes (depth + 1) callee) fun k v e m _ =>
      ∀ n u, Reading (.expression .call) n u callee k →
        Reading (.expression .call) n (u ++ v) e m := by
  unfold suffixes
  refine Finds.ifAccept ?_ (Finds.ifAccept ?_ (Finds.pure fun k r _ _ n u hu => ?_))
  · refine (Finds.listing ih.expression depth).bind fun args =>
      Finds.take_then fun closing hclosing => (ih.suffixes _).mono ?_
    intro k v e m r he k₁ a ⟨ha, hlength⟩ opening hopening n u hu
    have h := he n _ (.call hu hopening ha hlength hclosing)
    simpa using h
  · refine Finds.ident.bind fun name => (ih.suffixes _).mono ?_
    intro k v e m r he k₁ u₁ hname dot hdot _ n u hu
    cases hname with
    | ident hname =>
      have h := he n _ (.get hu hdot hname)
      simpa using h
  · rwa [List.append_nil]

theorem finds_primary (ih : ExpressionsFound depth) :
    FindsPhrase (.expression .primary) (primary (depth + 1)) := by
  unfold primary
  refine Finds.next? Finds.fail fun t => ?_
  dsimp only
  split
  all_goals rename_i ht
  case h_6 | h_7 =>
    refine FindsAt.advance (Finds.reference.bind fun ref => Finds.pure fun m r n u hu => ?_)
    obtain ⟨rfl, rfl, rfl⟩ := hu
    first | exact .this ht | exact .variable ht
  case h_8 =>
    refine FindsAt.advance (Finds.expect_then (Finds.ident.bind fun method =>
      Finds.reference.bind fun ref => Finds.pure fun m r n u hu k v hv dot hdot => ?_))
    obtain ⟨rfl, rfl, rfl⟩ := hu
    cases hv with
    | ident hmethod => exact .super ht hdot hmethod
  case h_9 =>
    refine FindsAt.advance (ih.expression.bind fun inner =>
      Finds.expect_then (Finds.pure fun m r closing hclosing n u hu => ?_))
    exact .grouping ht hu hclosing
  case h_10 => exact Finds.at Finds.fail
  all_goals exact FindsAt.advance (Finds.pure fun n r => .literal (by rw [ht]; rfl))

theorem expressionsFound (depth : Nat) : ExpressionsFound depth := by
  induction depth with
  | zero =>
    exact {
      expression := Finds.fail
      assignment := Finds.fail
      operators := fun _ _ => Finds.fail
      chain := fun _ _ _ => Finds.fail
      unary := Finds.fail
      suffixes := fun _ => Finds.fail
      primary := Finds.fail }
  | succ depth ih =>
    exact {
      expression := ih.assignment
      assignment := finds_assignment ih
      operators := finds_operators ih
      chain := finds_chain ih
      unary := finds_unary ih
      suffixes := finds_suffixes ih
      primary := finds_primary ih }

/-! ## Statements and declarations -/

theorem finds_expression (depth : Nat) :
    FindsPhrase (.expression .assignment) (expression depth) :=
  (expressionsFound depth).expression

theorem finds_optExpression (depth : Nat) (k : Kind) :
    FindsPhrase (.opt (.expression .assignment)) (unlessNext k (expression depth)) :=
  Finds.unlessNext (finds_expression depth) (fun _ _ => .optNone) fun _ _ _ _ _ h => .optSome h

theorem finds_varDeclaration (depth : Nat) :
    FindsPhrase .varDeclaration (varDeclaration depth) := by
  have hinitializer : FindsPhrase (.opt (.after .equal (.expression .assignment)))
      (behind .equal (expression depth)) :=
    Finds.behind (fun _ _ _ => .optNone)
      ((finds_expression depth).mono fun n w e m r h t ht => .optSome (.after ht h))
  refine Finds.ident.bind fun name => hinitializer.bind fun initializer =>
    Finds.expect_then (Finds.pure fun m r semicolon hend k u hu n v hv => ?_)
  cases hv with
  | ident hname => exact .varDeclaration hname hu hend

theorem finds_expressionStatement (depth : Nat) :
    FindsPhrase .expressionStatement (expressionStatement depth) :=
  (finds_expression depth).bind fun _ =>
    Finds.expect_then (Finds.pure fun _ _ _ hend _ _ h => .expressionStatement h hend)

theorem finds_printStatement (depth : Nat) :
    Finds (printStatement depth) fun n w s m _ => ∀ mark, mark.kind = .kwPrint →
      Reading (.statement false) n (mark :: w) s m :=
  (finds_expression depth).bind fun _ =>
    Finds.expect_then (Finds.pure fun _ _ _ hend _ _ h _ hmark => .print hmark h hend)

theorem finds_returnStatement (depth : Nat) (mark : Token) (hmark : mark.kind = .kwReturn) :
    Finds (returnStatement depth mark.line) fun n w s m _ =>
      Reading (.statement false) n (mark :: w) s m :=
  (finds_optExpression depth .semicolon).bind fun _ =>
    Finds.expect_then (Finds.pure fun _ _ _ hend _ _ h => .ret hmark h hend)

theorem finds_forStart (depth : Nat) : FindsPhrase .forStart (forStart depth) := by
  refine Finds.ifAccept (Finds.pure fun _ _ _ h => .forNone h) (Finds.ifAccept ?_ ?_)
  · refine (finds_varDeclaration depth).bind fun s => Finds.pure fun m r n w h mark hmark _ => ?_
    rw [List.append_nil]
    exact .forVar hmark h
  · refine (finds_expressionStatement depth).bind fun s => Finds.pure fun m r n w h _ _ => ?_
    rw [List.append_nil]
    exact .forExpression h

/-- A statement, which is open only if no `else` comes next. -/
def ReadsStatement (n : Nat) (w : List Token) (s : Stmt) (m : Nat) (rest : List Token) : Prop :=
  ∃ isOpen, Reading (.statement isOpen) n w s m ∧ (isOpen = true → ahead rest ≠ some .kwElse)

theorem ReadsStatement.closed {n m : Nat} {w rest : List Token} {s : Stmt}
    (h : Reading (.statement false) n w s m) : ReadsStatement n w s m rest :=
  ⟨false, h, nofun⟩

/-- What the productions for statements and declarations find behind the tokens that their callers
have consumed. A declaration that may not descend at all is silently empty. -/
structure StatementsFound (depth : Nat) : Prop where
  declaration : Finds (declaration depth) fun n w o m _ =>
    (∃ s, o = some s ∧ Reading .declaration n w s m) ∨ depth = 0 ∧ w = [] ∧ m = n ∧ o = none
  declared : FindsPhrase .declaration (declared depth)
  declarations : FindsPhrase (.many .declaration) (declarations depth)
  block : Finds (block depth) fun n w body m _ => ∃ v closing, w = v ++ [closing] ∧
    closing.kind = .rightBrace ∧ Reading (.many .declaration) n v body m
  function : ∀ sort, FindsPhrase .function (function depth sort)
  methods : FindsPhrase (.many .function) (methods depth)
  classDeclaration : Finds (classDeclaration depth) fun n w s m _ =>
    ∀ mark, mark.kind = .kwClass → Reading .declaration n (mark :: w) s m
  statement : Finds (statement depth) ReadsStatement
  forStatement : Finds (forStatement depth) fun n w s m r =>
    ∀ mark, mark.kind = .kwFor → ReadsStatement n (mark :: w) s m r
  ifStatement : Finds (ifStatement depth) fun n w s m r =>
    ∀ mark, mark.kind = .kwIf → ReadsStatement n (mark :: w) s m r
  whileStatement : Finds (whileStatement depth) fun n w s m r =>
    ∀ mark, mark.kind = .kwWhile → ReadsStatement n (mark :: w) s m r

theorem finds_declared (ih : StatementsFound depth) :
    FindsPhrase .declaration (declared (depth + 1)) := by
  unfold declared
  refine Finds.ifAccept ih.classDeclaration (Finds.ifAccept ?_ (Finds.ifAccept
    ((finds_varDeclaration depth).mono fun n w s m r h mark hmark _ _ => .declareVar hmark h)
    (ih.statement.mono fun n w s m r ⟨_, h, _⟩ _ _ _ => .declareNothing h)))
  refine (ih.function .function).bind fun decl =>
    Finds.pure fun m r n w h mark hmark _ => ?_
  rw [List.append_nil]
  exact .declareFun hmark h

theorem finds_declarations (ih : StatementsFound depth) :
    FindsPhrase (.many .declaration) (declarations (depth + 1)) := by
  unfold declarations
  refine Finds.closing.bind_nil fun b => Finds.ite (fun _ => Finds.pure fun _ _ => .manyNil)
    fun _ => ih.declaration.bind fun first => ih.declarations.bind fun rest =>
      Finds.pure fun m r k v hv n u hu => ?_
  rw [List.append_nil]
  obtain ⟨s, rfl, hs⟩ | ⟨-, rfl, rfl, rfl⟩ := hu
  · exact .manyCons hs hv
  · exact hv

theorem finds_function (ih : StatementsFound depth) (sort : FunctionSort) :
    FindsPhrase .function (function (depth + 1) sort) := by
  unfold function
  refine Finds.ident.bind fun name => Finds.expect_then
    ((Finds.listing Finds.ident depth).bind fun params =>
    Finds.expect_then (Finds.expect_then (ih.block.bind fun body =>
      Finds.pure fun m r k b hb start hstart closing hclosing k₁ ps hps opening hopening n t ht => ?_)))
  obtain ⟨v, stop, rfl, hstop, hv⟩ := hb
  cases ht with
  | ident hname =>
    rw [List.append_nil]
    exact .function hname hopening hps.1 hps.2 hclosing hstart hv hstop

theorem finds_methods (ih : StatementsFound depth) :
    FindsPhrase (.many .function) (methods (depth + 1)) := by
  unfold methods
  refine Finds.closing.bind_nil fun b => Finds.ite (fun _ => Finds.pure fun _ _ => .manyNil)
    fun _ => (ih.function .method).bind fun first => ih.methods.bind fun rest =>
      Finds.pure fun m r k v hv n u hu => ?_
  rw [List.append_nil]
  exact .manyCons hu hv

theorem finds_classDeclaration (ih : StatementsFound depth) :
    Finds (classDeclaration (depth + 1)) fun n w s m _ =>
      ∀ mark, mark.kind = .kwClass → Reading .declaration n (mark :: w) s m := by
  have hreference : FindsPhrase .reference (do reference (← ident .superclassName)) := by
    refine Finds.ident.bind fun name => Finds.reference.mono fun k v ref m r h n u hu => ?_
    obtain ⟨rfl, rfl, rfl⟩ := h
    cases hu with
    | ident hname => exact .reference hname
  have hparent : FindsPhrase (.opt (.after .less .reference))
      (behind .less do reference (← ident .superclassName)) :=
    Finds.behind (fun _ _ _ => .optNone)
      (hreference.mono fun n w ref m r h t ht => .optSome (.after ht h))
  unfold classDeclaration
  refine Finds.ident.bind fun name => hparent.bind fun parent => Finds.expect_then
    (ih.methods.bind fun body => Finds.expect_then
    (Finds.pure fun m r stop hstop k v hv start hstart k₁ p hp n t ht mark hmark => ?_))
  cases ht with
  | ident hname => exact .declareClass hmark hname hp hstart hv hstop

theorem finds_statement (ih : StatementsFound depth) :
    Finds (statement (depth + 1)) ReadsStatement := by
  unfold statement
  refine Finds.ifAccept ih.forStatement (Finds.ifAccept
    (ih.ifStatement.mono fun n w s m r h mark hmark _ => h mark hmark) (Finds.ifAccept
    (ih.whileStatement.mono fun n w s m r h mark hmark _ _ => h mark hmark)
    (Finds.ifTaken (fun mark hmark => ?_) (Finds.ifAccept ?_ (Finds.ifAccept ?_ ?_)))))
  · exact (finds_returnStatement depth mark (of_decide_eq_true hmark)).mono
      fun n w s m r h _ _ _ => .closed h
  · refine ih.block.bind fun body => Finds.pure fun m r n w h opening hopening _ _ _ _ => ?_
    obtain ⟨v, closing, rfl, hclosing, hv⟩ := h
    rw [List.append_nil]
    exact .closed (.block hopening hv hclosing)
  · exact (finds_printStatement depth).mono fun n w s m r h mark hmark _ _ _ _ _ =>
      .closed (h mark hmark)
  · exact (finds_expressionStatement depth).mono fun n w s m r h _ _ _ _ _ _ =>
      .closed (.simple h)

theorem finds_forStatement (ih : StatementsFound depth) :
    Finds (forStatement (depth + 1)) fun n w s m r =>
      ∀ mark, mark.kind = .kwFor → ReadsStatement n (mark :: w) s m r := by
  unfold forStatement
  refine Finds.expect_then ((finds_forStart depth).bind fun start =>
    (finds_optExpression depth .semicolon).bind fun condition => Finds.expect_then
    ((finds_optExpression depth .rightParen).bind fun increment => Finds.expect_then
    (ih.statement.bind fun body => Finds.pure fun m r k b hb closing hclosing k₁ u hu semicolon
      hsemicolon k₂ c hc n i hi opening hopening mark hmark => ?_)))
  obtain ⟨isOpen, hb, helse⟩ := hb
  rw [List.append_nil]
  exact ⟨isOpen, .forLoop hmark hopening hi hc hsemicolon hu hclosing hb, helse⟩

theorem finds_ifStatement (ih : StatementsFound depth) :
    Finds (ifStatement (depth + 1)) fun n w s m r =>
      ∀ mark, mark.kind = .kwIf → ReadsStatement n (mark :: w) s m r := by
  have helse : Finds (behind .kwElse (Parser.statement depth)) fun n w o m r =>
      (o = none ∧ w = [] ∧ m = n ∧ ahead r ≠ some .kwElse) ∨
      ∃ s isOpen, o = some s ∧ Reading (.after .kwElse (.statement isOpen)) n w s m ∧
        ahead (w ++ r) = some .kwElse ∧ (isOpen = true → ahead r ≠ some .kwElse) := by
    refine Finds.behind (fun n r h => .inl ⟨rfl, rfl, rfl, h⟩)
      (ih.statement.mono fun n w s m r h mark hmark => .inr ?_)
    obtain ⟨isOpen, h, hnext⟩ := h
    exact ⟨s, isOpen, rfl, .after hmark h, congrArg some hmark, hnext⟩
  unfold ifStatement
  refine Finds.expect_then ((finds_expression depth).bind fun condition =>
    Finds.expect_then (ih.statement.bind fun yes => helse.bind fun no =>
      Finds.pure fun m r k e he k₁ b hb closing hclosing n c hc opening hopening mark hmark => ?_))
  obtain ⟨isOpen, hb, hyes⟩ := hb
  rw [List.append_nil]
  obtain ⟨rfl, rfl, rfl, hnext⟩ | ⟨no, isOpen', rfl, hno, hnext, hlast⟩ := he
  · rw [List.append_nil]
    exact ⟨true, .ifThen hmark hopening hc hclosing hb, fun _ => hnext⟩
  · cases isOpen with
    | false => exact ⟨isOpen', .ifElse hmark hopening hc hclosing hb hno, hlast⟩
    | true => exact absurd (by simpa using hnext) (hyes rfl)

theorem finds_whileStatement (ih : StatementsFound depth) :
    Finds (whileStatement (depth + 1)) fun n w s m r =>
      ∀ mark, mark.kind = .kwWhile → ReadsStatement n (mark :: w) s m r := by
  unfold whileStatement
  refine Finds.expect_then ((finds_expression depth).bind fun condition =>
    Finds.expect_then (ih.statement.bind fun body => Finds.pure fun m r k b hb closing hclosing
      n c hc opening hopening mark hmark => ?_))
  obtain ⟨isOpen, hb, helse⟩ := hb
  rw [List.append_nil]
  exact ⟨isOpen, .loop hmark hopening hc hclosing hb, helse⟩

theorem statementsFound (depth : Nat) : StatementsFound depth := by
  induction depth with
  | zero =>
    exact {
      declaration := Finds.pure fun _ _ => .inr ⟨rfl, rfl, rfl, rfl⟩
      declared := Finds.fail
      declarations := Finds.pure fun _ _ => .manyNil
      block := Finds.fail
      function := fun _ => Finds.fail
      methods := Finds.pure fun _ _ => .manyNil
      classDeclaration := Finds.fail
      statement := Finds.fail
      forStatement := Finds.fail
      ifStatement := Finds.fail
      whileStatement := Finds.fail }
  | succ depth ih =>
    exact {
      declaration := ih.declared.recovering.mono fun n w o m r h => .inl h
      declared := finds_declared ih
      declarations := finds_declarations ih
      block := ih.declarations.bind fun body => Finds.expect_then
        (Finds.pure fun m r closing hclosing n v hv => ⟨v, closing, rfl, hclosing, hv⟩)
      function := finds_function ih
      methods := finds_methods ih
      classDeclaration := finds_classDeclaration ih
      statement := finds_statement ih
      forStatement := finds_forStatement ih
      ifStatement := finds_ifStatement ih
      whileStatement := finds_whileStatement ih }

end Lox.Parser
