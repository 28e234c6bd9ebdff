import Lox.Program.Parse

/-!
# The descent without a bound

The productions call each other, and the bound that they hand down is for the calls only: it does not
say what a production reads. Here every production is written without it, over productions that stand
for the calls. What they are at a bound is one descent for each unit of it, `bounded_succ`, from what they
are at none.

So a descent can be cut off anywhere and any productions put in for the calls that are left, `cut`. Where what
is parsed does not depend on them, no call has been left over.
-/
namespace Lox.Parser

/-- All productions, as they are called. -/
structure Productions where
  separated : {α : Type} → Parser α → SyntaxError → Nat → Parser (List α)
  expression : Parser Expr
  assignment : Parser Expr
  operators : Nat → Parser Expr
  chain : Nat → Expr → Parser Expr
  unary : Parser Expr
  suffixes : Expr → Parser Expr
  primary : Parser Expr
  declaration : Parser (Option Stmt)
  declared : Parser Stmt
  declarations : Parser (List Stmt)
  block : Parser (List Stmt)
  function : FunctionSort → Parser FunctionDecl
  methods : Parser (List FunctionDecl)
  classDeclaration : Parser Stmt
  statement : Parser Stmt
  forStatement : Parser Stmt
  ifStatement : Parser Stmt
  whileStatement : Parser Stmt
  program : Parser (List Stmt)

namespace Productions

/-- The productions at a bound. -/
def bounded (depth : Nat) : Productions where
  separated item cause count := Parser.separated item cause depth count
  expression := Parser.expression depth
  assignment := Parser.assignment depth
  operators level := Parser.operators depth level
  chain level left := Parser.chain depth level left
  unary := Parser.unary depth
  suffixes callee := Parser.suffixes depth callee
  primary := Parser.primary depth
  declaration := Parser.declaration depth
  declared := Parser.declared depth
  declarations := Parser.declarations depth
  block := Parser.block depth
  function sort := Parser.function depth sort
  methods := Parser.methods depth
  classDeclaration := Parser.classDeclaration depth
  statement := Parser.statement depth
  forStatement := Parser.forStatement depth
  ifStatement := Parser.ifStatement depth
  whileStatement := Parser.whileStatement depth
  program := Parser.program depth

variable (calls : Productions)

/-! ## Statements of expressions alone -/

def varDeclaration : Parser Stmt := do
  let name ← ident .variableName
  let initializer ← behind .equal calls.expression
  expect .semicolon .variableEnd
  return .var name initializer

def expressionStatement : Parser Stmt := do
  let e ← calls.expression
  expect .semicolon .expressionEnd
  return .expression e

def printStatement : Parser Stmt := do
  let e ← calls.expression
  expect .semicolon .printEnd
  return .print e

def returnStatement (line : Nat) : Parser Stmt := do
  let value ← unlessNext .semicolon calls.expression
  expect .semicolon .returnEnd
  return .ret line value

def forStart : Parser (Option Stmt) := do
  if ← accept .semicolon then return none
  else if ← accept .kwVar then return some (← calls.varDeclaration)
  else return some (← calls.expressionStatement)

def wholeExpression : Parser Expr := do
  let e ← calls.expression
  match ← next? with
  | none => return e
  | some _ => fail .endOfExpression

/-! ## One descent -/

/-- What each production does by way of calls. -/
def descend : Productions where
  separated item cause count := do
    limit count cause
    let first ← item
    let rest ← behind .comma (calls.separated item cause (count + 1))
    return first :: rest.getD []
  expression := calls.assignment
  assignment := do
    let target ← calls.operators 0
    match ← take? (·.kind = .equal) with
    | none => return target
    | some equals =>
      let value ← calls.assignment
      match target with
      | .variable ref => return .assign (← reference ref.name) value
      | .get object name => return .set object name value
      | _ =>
        let fault : SyntaxFault := ⟨equals.line, .at equals.lexeme, .assignmentTarget⟩
        modify fun c => { c with faults := c.faults ++ [fault] }
        return target
  operators level := do
    if level < Connective.levels then
      let first ← calls.operators (level + 1)
      calls.chain level first
    else calls.unary
  chain level left := do
    match ← take? fun t => (Connective.ofKind? level t.kind).isSome with
    | none => return left
    | some t =>
      match Connective.ofKind? level t.kind with
      | none => return left
      | some op =>
        let right ← calls.operators (level + 1)
        calls.chain level (op.join t.line left right)
  unary := do
    match ← take? fun t => (UnaryOp.ofKind? t.kind).isSome with
    | none =>
      let callee ← calls.primary
      calls.suffixes callee
    | some t =>
      let operand ← calls.unary
      match UnaryOp.ofKind? t.kind with
      | none => return operand
      | some op => return .unary op t.line operand
  suffixes callee := do
    if ← accept .leftParen then
      let args ← unlessNext .rightParen (calls.separated calls.expression .tooManyArguments 0)
      let paren ← take .rightParen .argumentsClose
      calls.suffixes (.call callee paren.line (args.getD []))
    else if ← accept .dot then
      let name ← ident .propertyName
      calls.suffixes (.get callee name)
    else return callee
  primary := do
    match ← next? with
    | none => fail .expression
    | some t =>
      match t.kind with
      | .kwFalse => advance; return .literal (.boolean false)
      | .kwTrue => advance; return .literal (.boolean true)
      | .kwNil => advance; return .literal .nil
      | .number n => advance; return .literal (.number n.value)
      | .string s => advance; return .literal (.string s)
      | .kwThis => advance; return .this (← reference ⟨t.lexeme, t.line⟩)
      | .identifier => advance; return .variable (← reference ⟨t.lexeme, t.line⟩)
      | .kwSuper =>
        advance
        expect .dot .superDot
        let method ← ident .superMethodName
        return .super (← reference ⟨t.lexeme, t.line⟩) method
      | .leftParen =>
        advance
        let inner ← calls.expression
        expect .rightParen .groupingClose
        return .grouping inner
      | _ => fail .expression
  declaration := recovering calls.declared
  declared := do
    if ← accept .kwClass then calls.classDeclaration
    else if ← accept .kwFun then return .function (← calls.function .function)
    else if ← accept .kwVar then calls.varDeclaration
    else calls.statement
  declarations := do
    if ← closing then return []
    else
      let first ← calls.declaration
      let rest ← calls.declarations
      return first.toList ++ rest
  block := do
    let body ← calls.declarations
    expect .rightBrace .blockClose
    return body
  function sort := do
    let name ← ident (.functionName sort)
    expect .leftParen (.parametersOpen sort)
    let params ← unlessNext .rightParen
      (calls.separated (ident .parameterName) .tooManyParameters 0)
    expect .rightParen .parametersClose
    expect .leftBrace (.functionBody sort)
    let body ← calls.block
    return ⟨name, params.getD [], body⟩
  methods := do
    if ← closing then return []
    else
      let first ← calls.function .method
      let rest ← calls.methods
      return first :: rest
  classDeclaration := do
    let name ← ident .className
    let superclass ← behind .less do reference (← ident .superclassName)
    expect .leftBrace .classBodyOpen
    let body ← calls.methods
    expect .rightBrace .classBodyClose
    return .classDecl name superclass body
  statement := do
    if ← accept .kwFor then calls.forStatement
    else if ← accept .kwIf then calls.ifStatement
    else if ← accept .kwWhile then calls.whileStatement
    else
      match ← take? (·.kind = .kwReturn) with
      | some t => calls.returnStatement t.line
      | none =>
        if ← accept .leftBrace then return .block (← calls.block)
        else if ← accept .kwPrint then calls.printStatement
        else calls.expressionStatement
  forStatement := do
    expect .leftParen .forOpen
    let start ← calls.forStart
    let condition ← unlessNext .semicolon calls.expression
    expect .semicolon .forConditionEnd
    let increment ← unlessNext .rightParen calls.expression
    expect .rightParen .forClose
    let body ← calls.statement
    return .forLoop start condition increment body
  ifStatement := do
    expect .leftParen .ifOpen
    let condition ← calls.expression
    expect .rightParen .ifClose
    let yes ← calls.statement
    let no ← behind .kwElse calls.statement
    return .branch condition yes no
  whileStatement := do
    expect .leftParen .whileOpen
    let condition ← calls.expression
    expect .rightParen .whileClose
    let body ← calls.statement
    return .loop condition body
  program := do
    match ← next? with
    | none => return []
    | some _ =>
      let first ← calls.declaration
      let rest ← calls.program
      return first.toList ++ rest

theorem bounded_succ (depth : Nat) : bounded (depth + 1) = (bounded depth).descend := rfl

/-- The descent cut off at a depth, where `calls` stands for all calls that are left. -/
def cut : Nat → Productions
  | 0 => calls
  | depth + 1 => (cut depth).descend

theorem cut_add (n depth : Nat) : calls.cut (n + depth) = (calls.cut n).cut depth := by
  induction depth with
  | zero => rfl
  | succ depth ih => exact congrArg descend ih

theorem bounded_eq_cut (depth : Nat) : bounded depth = (bounded 0).cut depth := by
  induction depth with
  | zero => rfl
  | succ depth ih => exact congrArg descend ih

end Productions
end Lox.Parser
