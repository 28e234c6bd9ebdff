import Lox.Program
import Lox.Token.Scan

/-!
# From tokens to trees

Recursive descent with one token of lookahead. A syntax error inside a declaration is recorded,
tokens are skipped up to a probable statement boundary, and parsing goes on, so that one pass
reports every independent error. A few violations are recorded without leaving the declaration.

```text
program        → declaration* EOF ;
declaration    → classDecl | funDecl | varDecl | statement ;
classDecl      → "class" IDENT ( "<" IDENT )? "{" function* "}" ;
funDecl        → "fun" function ;
function       → IDENT "(" parameters? ")" block ;
varDecl        → "var" IDENT ( "=" expression )? ";" ;
statement      → exprStmt | forStmt | ifStmt | printStmt | returnStmt | whileStmt | block ;
forStmt        → "for" "(" ( varDecl | exprStmt | ";" )
                 expression? ";" expression? ")" statement ;
returnStmt     → "return" expression? ";" ;
block          → "{" declaration* "}" ;
expression     → assignment ;
assignment     → ( call "." )? IDENT "=" assignment | logic_or ;
logic_or       → logic_and ( "or" logic_and )* ;
logic_and      → equality ( "and" equality )* ;
equality       → comparison ( ( "!=" | "==" ) comparison )* ;
comparison     → term ( ( ">" | ">=" | "<" | "<=" ) term )* ;
term           → factor ( ( "-" | "+" ) factor )* ;
factor         → unary ( ( "/" | "*" | "%" ) unary )* ;
unary          → ( "!" | "-" ) unary | call ;
call           → primary ( "(" arguments? ")" | "." IDENT )* ;
primary        → NUMBER | STRING | "true" | "false" | "nil" | "this"
               | IDENT | "(" expression ")" | "super" "." IDENT ;
```

Every production takes a bound on the depth of the descent. `Cursor.depth` is one that no
descent exceeds, since a production either hands on to the next one in the ladder or consumes
a token.
-/
namespace Lox

/-- A syntax error and the token it is located at. -/
structure SyntaxFault where
  line : Nat
  location : Location
  cause : SyntaxError
  deriving DecidableEq, Repr

def SyntaxFault.diagnostic (f : SyntaxFault) : Diagnostic := .grammar f.line f.location f.cause

/-- The most parameters a function and arguments a call may have. -/
def maxArity : Nat := 255

/-- Where parsing stands: the tokens ahead without the end-of-file token, whose line is kept,
the errors recorded so far and the identity of the next reference. -/
structure Cursor where
  rest : List Token
  endLine : Nat
  faults : List SyntaxFault
  nextId : Nat
  deriving Repr

namespace Cursor

/-- Begins at the first token. If no end-of-file token closes the list, the end is taken to be on
the line of the last token. -/
def start (nextId : Nat) (tokens : List Token) : Cursor where
  rest := tokens.takeWhile (·.kind ≠ .eof)
  endLine := match tokens.find? (·.kind = .eof) with
    | some t => t.line
    | none => (tokens.getLast?.map Token.line).getD 1
  faults := []
  nextId := nextId

def depth (c : Cursor) : Nat := 16 * (c.rest.length + 1)

/-- An error located at the next token. -/
def faultAt (c : Cursor) (cause : SyntaxError) : SyntaxFault :=
  match c.rest with
  | [] => ⟨c.endLine, .atEnd, cause⟩
  | t :: _ => ⟨t.line, .at t.lexeme, cause⟩

/-- Drops tokens up to the first that follows a semicolon or starts a declaration. -/
def boundary (last : Token) : List Token → List Token
  | [] => []
  | t :: rest =>
    if last.kind = .semicolon ∨ t.kind.startsDeclaration then t :: rest else boundary t rest

/-- Recovery: drops the offending token and goes on to the next boundary. -/
def synchronize (c : Cursor) : Cursor :=
  match c.rest with
  | [] => c
  | t :: rest => { c with rest := boundary t rest }

end Cursor

/-- A parser that fails keeps what it has consumed and recorded. -/
abbrev Parser := EStateM SyntaxFault Cursor

namespace Parser

variable {α : Type}

def next? : Parser (Option Token) := do return (← get).rest.head?

def advance : Parser Unit := modify fun c => { c with rest := c.rest.tail }

def check (kind : Kind) : Parser Bool := do return (← next?).map Token.kind = some kind

/-- Consumes the next token if it is of this kind. -/
def accept (kind : Kind) : Parser Bool := do
  if ← check kind then
    advance
    return true
  else
    return false

def fail (cause : SyntaxError) : Parser α := do throw ((← get).faultAt cause)

/-- Records an error at the next token and goes on. -/
def note (cause : SyntaxError) : Parser Unit :=
  modify fun c => { c with faults := c.faults ++ [c.faultAt cause] }

def expect (kind : Kind) (cause : SyntaxError) : Parser Unit := do
  unless ← accept kind do fail cause

/-- The next token, consumed, if it passes the test. -/
def take? (test : Token → Bool) : Parser (Option Token) := do
  match ← next? with
  | some t =>
    if test t then
      advance
      return some t
    else
      return none
  | none => return none

/-- The next token, consumed; it must be of this kind. -/
def take (kind : Kind) (cause : SyntaxError) : Parser Token := do
  match ← take? (·.kind = kind) with
  | some t => return t
  | none => fail cause

def ident (cause : SyntaxError) : Parser Ident := do
  let t ← take .identifier cause
  return ⟨t.lexeme, t.line⟩

def reference (name : Ident) : Parser Reference :=
  modifyGet fun c => (⟨c.nextId, name⟩, { c with nextId := c.nextId + 1 })

/-- What `p` reads behind a token of this kind, if such a token comes next. -/
def behind (kind : Kind) (p : Parser α) : Parser (Option α) := do
  if ← accept kind then return some (← p) else return none

/-- What `p` reads, unless a token of this kind comes next. -/
def unlessNext (kind : Kind) (p : Parser α) : Parser (Option α) := do
  if ← check kind then return none else return some (← p)

/-- Is there nothing more in this pair of braces? -/
def closing : Parser Bool := do
  match ← next? with
  | some t => return t.kind = .rightBrace
  | none => return true

/-- Records an error if there are as many items as there may be, and one more comes. -/
def limit (count : Nat) (cause : SyntaxError) : Parser Unit :=
  if maxArity ≤ count then note cause else return ()

/-- One item or more, with commas between them. `cause` is recorded at every item too many. -/
def separated (item : Parser α) (cause : SyntaxError) (depth count : Nat) : Parser (List α) :=
  match depth with
  | 0 => fail .expression
  | depth + 1 => do
    limit count cause
    let first ← item
    let rest ← behind .comma (separated item cause depth (count + 1))
    return first :: rest.getD []

/-- What `p` reads. If it fails, its error is recorded and tokens are dropped up to a boundary. -/
def recovering (p : Parser α) : Parser (Option α) := fun c =>
  match p c with
  | .ok a c => .ok (some a) c
  | .error fault c => .ok none { c with faults := c.faults ++ [fault] }.synchronize

end Parser

/-- Operators that stand between their operands. -/
inductive Connective where
  | logical (op : LogicalOp)
  | binary (op : BinaryOp)
  deriving DecidableEq, Repr

namespace Connective

/-- The operators of each precedence level, from the loosest. -/
def ofKind? : Nat → Kind → Option Connective
  | 0, .kwOr => some (logical .or)
  | 1, .kwAnd => some (logical .and)
  | 2, .bangEqual => some (binary .notEqual)
  | 2, .equalEqual => some (binary .equal)
  | 3, .greater => some (binary .greater)
  | 3, .greaterEqual => some (binary .greaterEqual)
  | 3, .less => some (binary .less)
  | 3, .lessEqual => some (binary .lessEqual)
  | 4, .minus => some (binary .subtract)
  | 4, .plus => some (binary .add)
  | 5, .star => some (binary .multiply)
  | 5, .slash => some (binary .divide)
  | 5, .percent => some (binary .modulo)
  | _, _ => none

/-- How many precedence levels there are. -/
def levels : Nat := 6

def join : Connective → Nat → Expr → Expr → Expr
  | logical op, line, left, right => .logical op line left right
  | binary op, line, left, right => .binary op line left right

end Connective

def UnaryOp.ofKind? : Kind → Option UnaryOp
  | .bang => some .not
  | .minus => some .negate
  | _ => none

namespace Parser

mutual

def expression (depth : Nat) : Parser Expr :=
  match depth with
  | 0 => fail .expression
  | depth + 1 => assignment depth

/-- The target is parsed as an expression and judged when the equals sign is met. An assignment
gets an identity of its own when its value has been read; that of the name before it is not used.
A wrong target is recorded at that sign, and its value is dropped. -/
def assignment (depth : Nat) : Parser Expr :=
  match depth with
  | 0 => fail .expression
  | depth + 1 => do
    let target ← operators depth 0
    match ← take? (·.kind = .equal) with
    | none => return target
    | some equals =>
      let value ← assignment depth
      match target with
      | .variable ref => return .assign (← reference ref.name) value
      | .get object name => return .set object name value
      | _ =>
        let fault : SyntaxFault := ⟨equals.line, .at equals.lexeme, .assignmentTarget⟩
        modify fun c => { c with faults := c.faults ++ [fault] }
        return target

/-- Operands joined by the operators of `level` and tighter ones. -/
def operators (depth level : Nat) : Parser Expr :=
  match depth with
  | 0 => fail .expression
  | depth + 1 => do
    if level < Connective.levels then
      let first ← operators depth (level + 1)
      chain depth level first
    else unary depth

/-- Operators of one level group to the left. -/
def chain (depth level : Nat) (left : Expr) : Parser Expr :=
  match depth with
  | 0 => fail .expression
  | depth + 1 => do
    match ← take? fun t => (Connective.ofKind? level t.kind).isSome with
    | none => return left
    | some t =>
      match Connective.ofKind? level t.kind with
      | none => return left
      | some op =>
        let right ← operators depth (level + 1)
        chain depth level (op.join t.line left right)

def unary (depth : Nat) : Parser Expr :=
  match depth with
  | 0 => fail .expression
  | depth + 1 => do
    match ← take? fun t => (UnaryOp.ofKind? t.kind).isSome with
    | none =>
      let callee ← primary depth
      suffixes depth callee
    | some t =>
      let operand ← unary depth
      match UnaryOp.ofKind? t.kind with
      | none => return operand
      | some op => return .unary op t.line operand

/-- Calls and property reads after an expression. -/
def suffixes (depth : Nat) (callee : Expr) : Parser Expr :=
  match depth with
  | 0 => fail .expression
  | depth + 1 => do
    if ← accept .leftParen then
      let args ← unlessNext .rightParen (separated (expression depth) .tooManyArguments depth 0)
      let paren ← take .rightParen .argumentsClose
      suffixes depth (.call callee paren.line (args.getD []))
    else if ← accept .dot then
      let name ← ident .propertyName
      suffixes depth (.get callee name)
    else return callee

def primary (depth : Nat) : Parser Expr :=
  match depth with
  | 0 => fail .expression
  | depth + 1 => do
    match ← next? with
    | none => fail .expression
    | some t =>
      match t.kind with
      | .kwFalse => advance; return .literal (.boolean false)
      | .kwTrue => advance; return .literal (.boolean true)
      | .kwNil => advance; return .literal .nil
      | .number n => advance; return .literal (.number n.value)
      | .string s => advance; return .literal (.string s)
      | .kwThis => advance; return .this (← reference ⟨t.lexeme, t.line⟩)
      | .identifier => advance; return .variable (← reference ⟨t.lexeme, t.line⟩)
      | .kwSuper =>
        advance
        expect .dot .superDot
        let method ← ident .superMethodName
        return .super (← reference ⟨t.lexeme, t.line⟩) method
      | .leftParen =>
        advance
        let inner ← expression depth
        expect .rightParen .groupingClose
        return .grouping inner
      | _ => fail .expression

end

def varDeclaration (depth : Nat) : Parser Stmt := do
  let name ← ident .variableName
  let initializer ← behind .equal (expression depth)
  expect .semicolon .variableEnd
  return .var name initializer

def expressionStatement (depth : Nat) : Parser Stmt := do
  let e ← expression depth
  expect .semicolon .expressionEnd
  return .expression e

def printStatement (depth : Nat) : Parser Stmt := do
  let e ← expression depth
  expect .semicolon .printEnd
  return .print e

def returnStatement (depth line : Nat) : Parser Stmt := do
  let value ← unlessNext .semicolon (expression depth)
  expect .semicolon .returnEnd
  return .ret line value

/-- The first clause of a `for` loop with its semicolon. -/
def forStart (depth : Nat) : Parser (Option Stmt) := do
  if ← accept .semicolon then return none
  else if ← accept .kwVar then return some (← varDeclaration depth)
  else return some (← expressionStatement depth)

mutual

/-- A declaration or statement; none if it is malformed, after recovery. -/
def declaration (depth : Nat) : Parser (Option Stmt) :=
  match depth with
  | 0 => return none
  | depth + 1 => recovering (declared depth)

def declared (depth : Nat) : Parser Stmt :=
  match depth with
  | 0 => fail .expression
  | depth + 1 => do
    if ← accept .kwClass then classDeclaration depth
    else if ← accept .kwFun then return .function (← function depth .function)
    else if ← accept .kwVar then varDeclaration depth
    else statement depth

/-- Declarations up to the closing brace or the end. -/
def declarations (depth : Nat) : Parser (List Stmt) :=
  match depth with
  | 0 => return []
  | depth + 1 => do
    if ← closing then return []
    else
      let first ← declaration depth
      let rest ← declarations depth
      return first.toList ++ rest

/-- The inside of a block and its closing brace. -/
def block (depth : Nat) : Parser (List Stmt) :=
  match depth with
  | 0 => fail .blockClose
  | depth + 1 => do
    let body ← declarations depth
    expect .rightBrace .blockClose
    return body

def function (depth : Nat) (sort : FunctionSort) : Parser FunctionDecl :=
  match depth with
  | 0 => fail (.functionName sort)
  | depth + 1 => do
    let name ← ident (.functionName sort)
    expect .leftParen (.parametersOpen sort)
    let params ← unlessNext .rightParen
      (separated (ident .parameterName) .tooManyParameters depth 0)
    expect .rightParen .parametersClose
    expect .leftBrace (.functionBody sort)
    let body ← block depth
    return ⟨name, params.getD [], body⟩

/-- Methods up to the closing brace or the end. -/
def methods (depth : Nat) : Parser (List FunctionDecl) :=
  match depth with
  | 0 => return []
  | depth + 1 => do
    if ← closing then return []
    else
      let first ← function depth .method
      let rest ← methods depth
      return first :: rest

def classDeclaration (depth : Nat) : Parser Stmt :=
  match depth with
  | 0 => fail .className
  | depth + 1 => do
    let name ← ident .className
    let superclass ← behind .less do reference (← ident .superclassName)
    expect .leftBrace .classBodyOpen
    let body ← methods depth
    expect .rightBrace .classBodyClose
    return .classDecl name superclass body

def statement (depth : Nat) : Parser Stmt :=
  match depth with
  | 0 => fail .expression
  | depth + 1 => do
    if ← accept .kwFor then forStatement depth
    else if ← accept .kwIf then ifStatement depth
    else if ← accept .kwWhile then whileStatement depth
    else
      match ← take? (·.kind = .kwReturn) with
      | some t => returnStatement depth t.line
      | none =>
        if ← accept .leftBrace then return .block (← block depth)
        else if ← accept .kwPrint then printStatement depth
        else expressionStatement depth

def forStatement (depth : Nat) : Parser Stmt :=
  match depth with
  | 0 => fail .forOpen
  | depth + 1 => do
    expect .leftParen .forOpen
    let start ← forStart depth
    let condition ← unlessNext .semicolon (expression depth)
    expect .semicolon .forConditionEnd
    let increment ← unlessNext .rightParen (expression depth)
    expect .rightParen .forClose
    let body ← statement depth
    return .forLoop start condition increment body

def ifStatement (depth : Nat) : Parser Stmt :=
  match depth with
  | 0 => fail .ifOpen
  | depth + 1 => do
    expect .leftParen .ifOpen
    let condition ← expression depth
    expect .rightParen .ifClose
    let yes ← statement depth
    let no ← behind .kwElse (statement depth)
    return .branch condition yes no

def whileStatement (depth : Nat) : Parser Stmt :=
  match depth with
  | 0 => fail .whileOpen
  | depth + 1 => do
    expect .leftParen .whileOpen
    let condition ← expression depth
    expect .rightParen .whileClose
    let body ← statement depth
    return .loop condition body

end

/-- Declarations up to the end. A closing brace that no block claims is an error of its own. -/
def program (depth : Nat) : Parser (List Stmt) :=
  match depth with
  | 0 => return []
  | depth + 1 => do
    match ← next? with
    | none => return []
    | some _ =>
      let first ← declaration depth
      let rest ← program depth
      return first.toList ++ rest

/-- An expression that is followed by nothing. -/
def wholeExpression (depth : Nat) : Parser Expr := do
  let e ← expression depth
  match ← next? with
  | none => return e
  | some _ => fail .endOfExpression

end Parser

/-- What parsing yields: a tree, the syntax errors in the order in which they were met, and
the first identity that is still unused. -/
structure Parsed (α : Type) where
  tree : α
  faults : List SyntaxFault
  nextId : Nat

/-- The statements that are well formed, and the errors of the others. -/
def parseProgram (nextId : Nat) (tokens : List Token) : Parsed (List Stmt) :=
  let start := Cursor.start nextId tokens
  match Parser.program start.depth start with
  | .ok tree c => ⟨tree, c.faults, c.nextId⟩
  | .error fault c => ⟨[], c.faults ++ [fault], c.nextId⟩

/-- The tokens as one expression. A tree can come with recorded errors. -/
def parseExpression (nextId : Nat) (tokens : List Token) : Parsed (Option Expr) :=
  let start := Cursor.start nextId tokens
  match Parser.wholeExpression start.depth start with
  | .ok tree c => ⟨some tree, c.faults, c.nextId⟩
  | .error fault c => ⟨none, c.faults ++ [fault], c.nextId⟩

end Lox
