import Mathlib.Data.List.Basic
import Lox.Program.Parse

/-!
# Phrases and their trees

The grammar once more, now with the tree that each phrase stands for, and without the ambiguities
that parsing resolves: operators group to the left, the target of an assignment is a name or a
property, and an `else` belongs to the nearest `if`.

`Reading p n w t m` says that the tokens `w` are a phrase `p` and stand for the tree `t`, whose
references have the identities from `n` on and below `m`, in the order in which they are read.
-/
namespace Lox

/-- The ranks of expressions, from the loosest. Level `n` is that of the operators
`Connective.ofKind? n`; the last level has none. -/
inductive Rank where
  | assignment | level (n : Nat) | unary | call | primary
  deriving DecidableEq

inductive Phrase where
  | ident | reference
  | expression (r : Rank)
  | expressionStatement | varDeclaration | forStart
  /-- An open statement goes on with any `else` that follows it. -/
  | statement (isOpen : Bool)
  | declaration | function
  | opt (p : Phrase) | many (p : Phrase)
  /-- One or more with commas between them. -/
  | separated (p : Phrase)
  /-- Behind a token of this kind. -/
  | after (kind : Kind) (p : Phrase)

@[reducible]
def Phrase.Tree : Phrase → Type
  | ident => Ident
  | reference => Reference
  | expression _ => Expr
  | expressionStatement | varDeclaration | statement _ | declaration => Stmt
  | forStart => Option Stmt
  | function => FunctionDecl
  | opt p => Option p.Tree
  | many p | separated p => List p.Tree
  | after _ p => p.Tree

/-- The value of a literal of one token. -/
def Kind.literal? : Kind → Option Literal
  | .kwFalse => some (.boolean false)
  | .kwTrue => some (.boolean true)
  | .kwNil => some .nil
  | .number n => some (.number n.value)
  | .string s => some (.string s)
  | _ => none

def Token.ident (t : Token) : Ident := ⟨t.lexeme, t.line⟩

inductive Reading : (p : Phrase) → Nat → List Token → p.Tree → Nat → Prop where
  | optNone {p n} : Reading (.opt p) n [] none n
  | optSome {p n w t m} (h : Reading p n w t m) : Reading (.opt p) n w (some t) m
  | manyNil {p n} : Reading (.many p) n [] [] n
  | manyCons {p n u t k v ts m} (h : Reading p n u t k) (hs : Reading (.many p) k v ts m) :
      Reading (.many p) n (u ++ v) (t :: ts) m
  | separatedOne {p n w t m} (h : Reading p n w t m) : Reading (.separated p) n w [t] m
  | separatedMore {p n u t k comma v ts m} (h : Reading p n u t k) (hcomma : comma.kind = .comma)
      (hs : Reading (.separated p) k v ts m) :
      Reading (.separated p) n (u ++ comma :: v) (t :: ts) m
  | after {kind p n mark w t m} (hmark : mark.kind = kind) (h : Reading p n w t m) :
      Reading (.after kind p) n (mark :: w) t m
  | ident {n name} (hname : name.kind = .identifier) : Reading .ident n [name] name.ident n
  | reference {n name} (hname : name.kind = .identifier) :
      Reading .reference n [name] ⟨n, name.ident⟩ (n + 1)
  -- Expressions
  | assignName {n name equals w value m} (hname : name.kind = .identifier)
      (hequals : equals.kind = .equal) (h : Reading (.expression .assignment) (n + 1) w value m) :
      Reading (.expression .assignment) n (name :: equals :: w) (.assign ⟨m, name.ident⟩ value)
        (m + 1)
  | assignField {n u object k dot name equals w value m}
      (hobject : Reading (.expression .call) n u object k) (hdot : dot.kind = .dot)
      (hname : name.kind = .identifier) (hequals : equals.kind = .equal)
      (h : Reading (.expression .assignment) k w value m) :
      Reading (.expression .assignment) n (u ++ dot :: name :: equals :: w)
        (.set object name.ident value) m
  | loosest {n w e m} (h : Reading (.expression (.level 0)) n w e m) :
      Reading (.expression .assignment) n w e m
  | tighter {l n w e m} (hl : l < Connective.levels)
      (h : Reading (.expression (.level (l + 1))) n w e m) : Reading (.expression (.level l)) n w e m
  | joined {l n u left k sign op v right m} (hleft : Reading (.expression (.level l)) n u left k)
      (hop : Connective.ofKind? l sign.kind = some op)
      (hright : Reading (.expression (.level (l + 1))) k v right m) :
      Reading (.expression (.level l)) n (u ++ sign :: v) (op.join sign.line left right) m
  | tightest {n w e m} (h : Reading (.expression .unary) n w e m) :
      Reading (.expression (.level Connective.levels)) n w e m
  | prefixed {n sign op w e m} (hop : UnaryOp.ofKind? sign.kind = some op)
      (h : Reading (.expression .unary) n w e m) :
      Reading (.expression .unary) n (sign :: w) (.unary op sign.line e) m
  | unprefixed {n w e m} (h : Reading (.expression .call) n w e m) :
      Reading (.expression .unary) n w e m
  | callee {n w e m} (h : Reading (.expression .primary) n w e m) :
      Reading (.expression .call) n w e m
  | call {n u callee k opening v args closing m}
      (hcallee : Reading (.expression .call) n u callee k) (hopening : opening.kind = .leftParen)
      (h : Reading (.opt (.separated (.expression .assignment))) k v args m)
      (hargs : (args.getD []).length ≤ maxArity) (hclosing : closing.kind = .rightParen) :
      Reading (.expression .call) n (u ++ opening :: (v ++ [closing]))
        (.call callee closing.line (args.getD [])) m
  | get {n u object m dot name} (h : Reading (.expression .call) n u object m)
      (hdot : dot.kind = .dot) (hname : name.kind = .identifier) :
      Reading (.expression .call) n (u ++ [dot, name]) (.get object name.ident) m
  | literal {n t value} (ht : t.kind.literal? = some value) :
      Reading (.expression .primary) n [t] (.literal value) n
  | this {n t} (ht : t.kind = .kwThis) :
      Reading (.expression .primary) n [t] (.this ⟨n, t.ident⟩) (n + 1)
  | «variable» {n t} (ht : t.kind = .identifier) :
      Reading (.expression .primary) n [t] (.variable ⟨n, t.ident⟩) (n + 1)
  | super {n t dot method} (ht : t.kind = .kwSuper) (hdot : dot.kind = .dot)
      (hmethod : method.kind = .identifier) :
      Reading (.expression .primary) n [t, dot, method] (.super ⟨n, t.ident⟩ method.ident) (n + 1)
  | grouping {n opening w e closing m} (hopening : opening.kind = .leftParen)
      (h : Reading (.expression .assignment) n w e m) (hclosing : closing.kind = .rightParen) :
      Reading (.expression .primary) n (opening :: (w ++ [closing])) (.grouping e) m
  -- Statements
  | expressionStatement {n w e semicolon m} (h : Reading (.expression .assignment) n w e m)
      (hend : semicolon.kind = .semicolon) :
      Reading .expressionStatement n (w ++ [semicolon]) (.expression e) m
  | varDeclaration {n name w initializer semicolon m} (hname : name.kind = .identifier)
      (h : Reading (.opt (.after .equal (.expression .assignment))) n w initializer m)
      (hend : semicolon.kind = .semicolon) :
      Reading .varDeclaration n (name :: (w ++ [semicolon])) (.var name.ident initializer) m
  | forNone {n semicolon} (hend : semicolon.kind = .semicolon) :
      Reading .forStart n [semicolon] none n
  | forVar {n mark w s m} (hmark : mark.kind = .kwVar) (h : Reading .varDeclaration n w s m) :
      Reading .forStart n (mark :: w) (some s) m
  | forExpression {n w s m} (h : Reading .expressionStatement n w s m) :
      Reading .forStart n w (some s) m
  | simple {n w s m} (h : Reading .expressionStatement n w s m) :
      Reading (.statement false) n w s m
  | print {n mark w e semicolon m} (hmark : mark.kind = .kwPrint)
      (h : Reading (.expression .assignment) n w e m) (hend : semicolon.kind = .semicolon) :
      Reading (.statement false) n (mark :: (w ++ [semicolon])) (.print e) m
  | ret {n mark w value semicolon m} (hmark : mark.kind = .kwReturn)
      (h : Reading (.opt (.expression .assignment)) n w value m)
      (hend : semicolon.kind = .semicolon) :
      Reading (.statement false) n (mark :: (w ++ [semicolon])) (.ret mark.line value) m
  | block {n opening w body closing m} (hopening : opening.kind = .leftBrace)
      (h : Reading (.many .declaration) n w body m) (hclosing : closing.kind = .rightBrace) :
      Reading (.statement false) n (opening :: (w ++ [closing])) (.block body) m
  | ifThen {n mark opening u condition k closing isOpen v yes m} (hmark : mark.kind = .kwIf)
      (hopening : opening.kind = .leftParen)
      (hcondition : Reading (.expression .assignment) n u condition k)
      (hclosing : closing.kind = .rightParen) (h : Reading (.statement isOpen) k v yes m) :
      Reading (.statement true) n (mark :: opening :: (u ++ closing :: v))
        (.branch condition yes none) m
  | ifElse {n mark opening u condition k closing v yes l isOpen w no m}
      (hmark : mark.kind = .kwIf) (hopening : opening.kind = .leftParen)
      (hcondition : Reading (.expression .assignment) n u condition k)
      (hclosing : closing.kind = .rightParen) (hyes : Reading (.statement false) k v yes l)
      (hno : Reading (.after .kwElse (.statement isOpen)) l w no m) :
      Reading (.statement isOpen) n (mark :: opening :: (u ++ closing :: (v ++ w)))
        (.branch condition yes (some no)) m
  | loop {n mark opening u condition k closing isOpen v body m} (hmark : mark.kind = .kwWhile)
      (hopening : opening.kind = .leftParen)
      (hcondition : Reading (.expression .assignment) n u condition k)
      (hclosing : closing.kind = .rightParen) (h : Reading (.statement isOpen) k v body m) :
      Reading (.statement isOpen) n (mark :: opening :: (u ++ closing :: v))
        (.loop condition body) m
  | forLoop {n mark opening i start k c condition semicolon k' u increment closing k'' isOpen v
      body m} (hmark : mark.kind = .kwFor) (hopening : opening.kind = .leftParen)
      (hstart : Reading .forStart n i start k)
      (hcondition : Reading (.opt (.expression .assignment)) k c condition k')
      (hsemicolon : semicolon.kind = .semicolon)
      (hincrement : Reading (.opt (.expression .assignment)) k' u increment k'')
      (hclosing : closing.kind = .rightParen) (h : Reading (.statement isOpen) k'' v body m) :
      Reading (.statement isOpen) n
        (mark :: opening :: (i ++ (c ++ semicolon :: (u ++ closing :: v))))
        (.forLoop start condition increment body) m
  -- Declarations
  | function {n name opening w params k closing start v body stop m}
      (hname : name.kind = .identifier) (hopening : opening.kind = .leftParen)
      (hparams : Reading (.opt (.separated .ident)) n w params k)
      (hlength : (params.getD []).length ≤ maxArity) (hclosing : closing.kind = .rightParen)
      (hstart : start.kind = .leftBrace) (h : Reading (.many .declaration) k v body m)
      (hstop : stop.kind = .rightBrace) :
      Reading .function n (name :: opening :: (w ++ closing :: start :: (v ++ [stop])))
        ⟨name.ident, params.getD [], body⟩ m
  | declareClass {n mark name w parent k start v methods stop m} (hmark : mark.kind = .kwClass)
      (hname : name.kind = .identifier) (hparent : Reading (.opt (.after .less .reference)) n w parent k)
      (hstart : start.kind = .leftBrace) (h : Reading (.many .function) k v methods m)
      (hstop : stop.kind = .rightBrace) :
      Reading .declaration n (mark :: name :: (w ++ start :: (v ++ [stop])))
        (.classDecl name.ident parent methods) m
  | declareFun {n mark w decl m} (hmark : mark.kind = .kwFun) (h : Reading .function n w decl m) :
      Reading .declaration n (mark :: w) (.function decl) m
  | declareVar {n mark w s m} (hmark : mark.kind = .kwVar) (h : Reading .varDeclaration n w s m) :
      Reading .declaration n (mark :: w) s m
  | declareNothing {isOpen n w s m} (h : Reading (.statement isOpen) n w s m) :
      Reading .declaration n w s m

end Lox
