import Mathlib.Data.List.Basic
import Lox.Program.Parse

/-!
# The grammar

The productions that parsing goes by, as a derivation relation of their own. It knows nothing of
lookahead, of recovery or of the order in which alternatives are tried: in particular an
assignment begins with its target here, and an `else` may belong to any `if` that has none yet.

`Derives allowed s w` says that the symbol `s` derives the kinds `w`, where a list of parameters or
arguments may have `n` members if `allowed n` holds.
-/
namespace Lox.Grammar

/-- The levels of operators that stand between their operands, from the loosest. -/
inductive Level where
  | logicOr | logicAnd | equality | comparison | term | factor
  deriving DecidableEq

inductive Symbol where
  | program | declaration | classDecl | superclass | funDecl | function | parameters
  | varDecl | initializer
  | statement | exprStmt | forStmt | forStart | ifStmt | elseBranch | printStmt | returnStmt
  | whileStmt | block
  | expression | assignment | level (l : Level) | joined (l : Level) | unary | call | suffix
  | arguments | primary | ident
  | opt (s : Symbol) | many (s : Symbol)
  /-- So many, with commas between them. -/
  | separated (s : Symbol) (n : Nat)

def Level.operators : Level → List Kind
  | logicOr => [.kwOr]
  | logicAnd => [.kwAnd]
  | equality => [.bangEqual, .equalEqual]
  | comparison => [.greater, .greaterEqual, .less, .lessEqual]
  | term => [.minus, .plus]
  | factor => [.slash, .star, .percent]

/-- What stands between the operators of a level. -/
def Level.operand : Level → Symbol
  | logicOr => .level logicAnd
  | logicAnd => .level equality
  | equality => .level comparison
  | comparison => .level term
  | term => .level factor
  | factor => .unary

/-- NUMBER, STRING, `true`, `false`, `nil`, `this` or IDENT. -/
def isAtom : Kind → Bool
  | .number _ | .string _ | .kwTrue | .kwFalse | .kwNil | .kwThis | .identifier => true
  | _ => false

inductive Derives (allowed : Nat → Prop) : Symbol → List Kind → Prop where
  | optNone {s} : Derives allowed (.opt s) []
  | optSome {s w} (h : Derives allowed s w) : Derives allowed (.opt s) w
  | manyNil {s} : Derives allowed (.many s) []
  | manyCons {s u v} (h : Derives allowed s u) (t : Derives allowed (.many s) v) :
      Derives allowed (.many s) (u ++ v)
  | separatedOne {s w} (h : Derives allowed s w) : Derives allowed (.separated s 1) w
  | separatedMore {s n u v} (h : Derives allowed s u) (t : Derives allowed (.separated s n) v) :
      Derives allowed (.separated s (n + 1)) (u ++ .comma :: v)
  | ident : Derives allowed .ident [.identifier]
  | program {w} (h : Derives allowed (.many .declaration) w) :
      Derives allowed .program (w ++ [.eof])
  | declareClass {w} (h : Derives allowed .classDecl w) : Derives allowed .declaration w
  | declareFun {w} (h : Derives allowed .funDecl w) : Derives allowed .declaration w
  | declareVar {w} (h : Derives allowed .varDecl w) : Derives allowed .declaration w
  | declareNothing {w} (h : Derives allowed .statement w) : Derives allowed .declaration w
  | classDecl {p ms} (hp : Derives allowed (.opt .superclass) p)
      (hm : Derives allowed (.many .function) ms) :
      Derives allowed .classDecl
        (.kwClass :: .identifier :: (p ++ .leftBrace :: (ms ++ [.rightBrace])))
  | superclass : Derives allowed .superclass [.less, .identifier]
  | funDecl {w} (h : Derives allowed .function w) : Derives allowed .funDecl (.kwFun :: w)
  | function {ps b} (hp : Derives allowed (.opt .parameters) ps) (hb : Derives allowed .block b) :
      Derives allowed .function (.identifier :: .leftParen :: (ps ++ .rightParen :: b))
  | parameters {n w} (hn : allowed n) (h : Derives allowed (.separated .ident n) w) :
      Derives allowed .parameters w
  | varDecl {i} (hi : Derives allowed (.opt .initializer) i) :
      Derives allowed .varDecl (.kwVar :: .identifier :: (i ++ [.semicolon]))
  | initializer {e} (he : Derives allowed .expression e) :
      Derives allowed .initializer (.equal :: e)
  | ofExpr {w} (h : Derives allowed .exprStmt w) : Derives allowed .statement w
  | ofFor {w} (h : Derives allowed .forStmt w) : Derives allowed .statement w
  | ofIf {w} (h : Derives allowed .ifStmt w) : Derives allowed .statement w
  | ofPrint {w} (h : Derives allowed .printStmt w) : Derives allowed .statement w
  | ofReturn {w} (h : Derives allowed .returnStmt w) : Derives allowed .statement w
  | ofWhile {w} (h : Derives allowed .whileStmt w) : Derives allowed .statement w
  | ofBlock {w} (h : Derives allowed .block w) : Derives allowed .statement w
  | exprStmt {e} (he : Derives allowed .expression e) :
      Derives allowed .exprStmt (e ++ [.semicolon])
  | forStmt {i c u b} (hi : Derives allowed .forStart i)
      (hc : Derives allowed (.opt .expression) c) (hu : Derives allowed (.opt .expression) u)
      (hb : Derives allowed .statement b) :
      Derives allowed .forStmt
        (.kwFor :: .leftParen :: (i ++ (c ++ .semicolon :: (u ++ .rightParen :: b))))
  | forVar {w} (h : Derives allowed .varDecl w) : Derives allowed .forStart w
  | forExpr {w} (h : Derives allowed .exprStmt w) : Derives allowed .forStart w
  | forNone : Derives allowed .forStart [.semicolon]
  | ifStmt {c b e} (hc : Derives allowed .expression c) (hb : Derives allowed .statement b)
      (he : Derives allowed (.opt .elseBranch) e) :
      Derives allowed .ifStmt (.kwIf :: .leftParen :: (c ++ .rightParen :: (b ++ e)))
  | elseBranch {b} (hb : Derives allowed .statement b) :
      Derives allowed .elseBranch (.kwElse :: b)
  | printStmt {e} (he : Derives allowed .expression e) :
      Derives allowed .printStmt (.kwPrint :: (e ++ [.semicolon]))
  | returnStmt {e} (he : Derives allowed (.opt .expression) e) :
      Derives allowed .returnStmt (.kwReturn :: (e ++ [.semicolon]))
  | whileStmt {c b} (hc : Derives allowed .expression c) (hb : Derives allowed .statement b) :
      Derives allowed .whileStmt (.kwWhile :: .leftParen :: (c ++ .rightParen :: b))
  | block {w} (h : Derives allowed (.many .declaration) w) :
      Derives allowed .block (.leftBrace :: (w ++ [.rightBrace]))
  | expression {w} (h : Derives allowed .assignment w) : Derives allowed .expression w
  | assignName {w} (h : Derives allowed .assignment w) :
      Derives allowed .assignment (.identifier :: .equal :: w)
  | assignField {u w} (hu : Derives allowed .call u) (h : Derives allowed .assignment w) :
      Derives allowed .assignment (u ++ .dot :: .identifier :: .equal :: w)
  | assignNothing {w} (h : Derives allowed (.level .logicOr) w) : Derives allowed .assignment w
  | level {l u v} (h : Derives allowed l.operand u) (t : Derives allowed (.many (.joined l)) v) :
      Derives allowed (.level l) (u ++ v)
  | joined {l k w} (hk : k ∈ l.operators) (h : Derives allowed l.operand w) :
      Derives allowed (.joined l) (k :: w)
  | prefixed {k w} (hk : k = .bang ∨ k = .minus) (h : Derives allowed .unary w) :
      Derives allowed .unary (k :: w)
  | unary {w} (h : Derives allowed .call w) : Derives allowed .unary w
  | call {u v} (h : Derives allowed .primary u) (t : Derives allowed (.many .suffix) v) :
      Derives allowed .call (u ++ v)
  | callSuffix {a} (ha : Derives allowed (.opt .arguments) a) :
      Derives allowed .suffix (.leftParen :: (a ++ [.rightParen]))
  | getSuffix : Derives allowed .suffix [.dot, .identifier]
  | arguments {n w} (hn : allowed n) (h : Derives allowed (.separated .expression n) w) :
      Derives allowed .arguments w
  | atom {k} (hk : isAtom k = true) : Derives allowed .primary [k]
  | grouping {e} (he : Derives allowed .expression e) :
      Derives allowed .primary (.leftParen :: (e ++ [.rightParen]))
  | super : Derives allowed .primary [.kwSuper, .dot, .identifier]

/-! ## First tokens -/

def startsPrimary (k : Kind) : Bool := isAtom k || k = .leftParen || k = .kwSuper

def startsExpression (k : Kind) : Bool := startsPrimary k || k = .bang || k = .minus

def startsStatement (k : Kind) : Bool :=
  startsExpression k || k ∈ [.kwFor, .kwIf, .kwPrint, .kwReturn, .kwWhile, .leftBrace]

def startsDeclaration (k : Kind) : Bool :=
  startsStatement k || k ∈ [.kwClass, .kwFun, .kwVar]

end Lox.Grammar
