import Lox.Proofs.Syntax.Exact
import Lox.Proofs.Syntax.Labels

/-!
# Writing trees as tokens

A tree is written with its operands in order, with parentheses for groupings only and with braces for
blocks and the bodies of functions and classes only. A `for` loop is written as the block and the
loop that it abbreviates, since the tree has nothing else. What is written so is parsed to the same
tree, up to lines and identities.
-/
namespace Lox

/-- How to write the tokens that name nothing, and numbers. -/
structure Spelling where
  token : Kind → Token
  number : Float → Numeral
  kind_token : ∀ kind, (token kind).kind = kind
  value_number : ∀ n : Numeral, (number n.value).value = n.value

def UnaryOp.kind : UnaryOp → Kind
  | negate => .minus
  | not => .bang

def BinaryOp.kind : BinaryOp → Kind
  | add => .plus
  | subtract => .minus
  | multiply => .star
  | divide => .slash
  | modulo => .percent
  | greater => .greater
  | greaterEqual => .greaterEqual
  | less => .less
  | lessEqual => .lessEqual
  | equal => .equalEqual
  | notEqual => .bangEqual

def LogicalOp.kind : LogicalOp → Kind
  | and => .kwAnd
  | or => .kwOr

def Connective.kind : Connective → Kind
  | logical op => op.kind
  | binary op => op.kind

/-- The token of this kind that is written as the name. -/
def Ident.token (kind : Kind) (name : Ident) : Token := ⟨kind, name.text, name.line⟩

section

variable (σ : Spelling)

/-- Items with commas between them. -/
def commaList {α : Type} (f : α → List Token) : List α → List Token
  | [] => []
  | [a] => f a
  | a :: b :: rest => f a ++ σ.token .comma :: commaList f (b :: rest)

def Literal.tokens : Literal → List Token
  | .number x => [σ.token (.number (σ.number x))]
  | .string s => [σ.token (.string s)]
  | .boolean true => [σ.token .kwTrue]
  | .boolean false => [σ.token .kwFalse]
  | .nil => [σ.token .kwNil]

mutual

def Expr.tokens : Expr → List Token
  | .literal value => value.tokens σ
  | .unary op _ e => σ.token op.kind :: e.tokens
  | .binary op _ l r => l.tokens ++ σ.token op.kind :: r.tokens
  | .logical op _ l r => l.tokens ++ σ.token op.kind :: r.tokens
  | .grouping e => σ.token .leftParen :: (e.tokens ++ [σ.token .rightParen])
  | .variable ref => [ref.name.token .identifier]
  | .assign ref value => ref.name.token .identifier :: σ.token .equal :: value.tokens
  | .call callee _ arguments =>
    callee.tokens ++ σ.token .leftParen :: (Expr.tokensOfAll arguments ++ [σ.token .rightParen])
  | .get object name => object.tokens ++ [σ.token .dot, name.token .identifier]
  | .set object name value =>
    object.tokens ++ σ.token .dot :: name.token .identifier :: σ.token .equal :: value.tokens
  | .this ref => [ref.name.token .kwThis]
  | .super ref method => [ref.name.token .kwSuper, σ.token .dot, method.token .identifier]

def Expr.tokensOfAll : List Expr → List Token
  | [] => []
  | [e] => e.tokens
  | e :: e' :: rest => e.tokens ++ σ.token .comma :: Expr.tokensOfAll (e' :: rest)

end

mutual

def Stmt.tokens : Stmt → List Token
  | .expression e => e.tokens σ ++ [σ.token .semicolon]
  | .print e => σ.token .kwPrint :: (e.tokens σ ++ [σ.token .semicolon])
  | .var name initializer =>
    σ.token .kwVar :: name.token .identifier :: (initializer.elim [] (fun e =>
      σ.token .equal :: e.tokens σ) ++ [σ.token .semicolon])
  | .block body => σ.token .leftBrace :: (Stmt.tokensOfAll body ++ [σ.token .rightBrace])
  | .branch condition yes no =>
    σ.token .kwIf :: σ.token .leftParen :: (condition.tokens σ ++ σ.token .rightParen ::
      (yes.tokens ++ match no with
        | none => []
        | some no => σ.token .kwElse :: no.tokens))
  | .loop condition body =>
    σ.token .kwWhile :: σ.token .leftParen ::
      (condition.tokens σ ++ σ.token .rightParen :: body.tokens)
  | .function decl => σ.token .kwFun :: decl.tokens
  | .classDecl name superclass methods =>
    σ.token .kwClass :: name.token .identifier :: (superclass.elim [] (fun ref =>
      [σ.token .less, ref.name.token .identifier]) ++
        σ.token .leftBrace :: (FunctionDecl.tokensOfAll methods ++ [σ.token .rightBrace]))
  | .ret _ value =>
    σ.token .kwReturn :: (value.elim [] (·.tokens σ) ++ [σ.token .semicolon])

def Stmt.tokensOfAll : List Stmt → List Token
  | [] => []
  | s :: rest => s.tokens ++ Stmt.tokensOfAll rest

def FunctionDecl.tokens : FunctionDecl → List Token
  | ⟨name, params, body⟩ =>
    name.token .identifier :: σ.token .leftParen :: (commaList σ (fun name => [name.token .identifier]) params ++
      σ.token .rightParen :: σ.token .leftBrace ::
        (Stmt.tokensOfAll body ++ [σ.token .rightBrace]))

def FunctionDecl.tokensOfAll : List FunctionDecl → List Token
  | [] => []
  | decl :: rest => decl.tokens ++ FunctionDecl.tokensOfAll rest

end

/-- A whole program as tokens. -/
def unparse (program : List Stmt) : List Token :=
  Stmt.tokensOfAll σ program ++ [σ.token .eof]

/-! ## Tokens that say a tree -/

/-- Whatever the identities begin with, the tokens are a phrase and stand for the tree, up to lines
and identities. -/
def Says (p : Phrase) (w : List Token) (t : p.Tree) : Prop :=
  ∀ n, ∃ t' m, Reading p n w t' m ∧ p.relabel .erasing t' = p.relabel .erasing t

variable {σ} {p : Phrase} {u v w : List Token}

theorem Says.map {q : Phrase} {t : p.Tree} {t₁ : q.Tree} (f : p.Tree → q.Tree) (h : Says p v t)
    (hread : ∀ {n t' m}, Reading p n v t' m → Reading q n w (f t') m)
    (herase : ∀ {t'}, p.relabel .erasing t' = p.relabel .erasing t →
      q.relabel .erasing (f t') = q.relabel .erasing t₁) : Says q w t₁ := by
  intro n
  obtain ⟨t', m, hread', heq⟩ := h n
  exact ⟨f t', m, hread hread', herase heq⟩

theorem Says.after {t : p.Tree} {kind : Kind} {mark : Token} (h : Says p v t)
    (hmark : mark.kind = kind) : Says (.after kind p) (mark :: v) t := by
  intro n
  obtain ⟨t', m, ht, heq⟩ := h n
  exact ⟨t', m, .after hmark ht, heq⟩

theorem says_opt {o : Option p.Tree} (f : p.Tree → List Token)
    (h : ∀ t, o = some t → Says p (f t) t) : Says (.opt p) (o.elim [] f) o := by
  cases o with
  | none => exact fun n => ⟨none, n, .optNone, rfl⟩
  | some t => exact (h t rfl).map some .optSome (congrArg some)

theorem says_many {ts : List p.Tree} (f : p.Tree → List Token) (h : ∀ t ∈ ts, Says p (f t) t) :
    Says (.many p) (ts.flatMap f) ts := by
  induction ts with
  | nil => exact fun n => ⟨[], n, .manyNil, rfl⟩
  | cons t ts ih =>
    intro n
    obtain ⟨t', k, ht, heq⟩ := h t List.mem_cons_self n
    obtain ⟨ts', m, hts, heqs⟩ := ih (fun t ht => h t (List.mem_cons_of_mem _ ht)) k
    exact ⟨t' :: ts', m, .manyCons ht hts, congrArg₂ List.cons heq heqs⟩

theorem says_commaList {ts : List p.Tree} (f : p.Tree → List Token) (hne : ts ≠ [])
    (h : ∀ t ∈ ts, Says p (f t) t) : Says (.separated p) (commaList σ f ts) ts := by
  induction ts with
  | nil => exact absurd rfl hne
  | cons t ts ih =>
    have ht := h t List.mem_cons_self
    cases ts with
    | nil => exact ht.map (fun t => [t]) .separatedOne fun heq => congrArg (fun t => [t]) heq
    | cons t₂ ts =>
      intro n
      obtain ⟨t', k, ht, heq⟩ := ht n
      obtain ⟨ts', m, hts, heqs⟩ := ih (by simp) (fun t ht => h t (List.mem_cons_of_mem _ ht)) k
      exact ⟨t' :: ts', m, .separatedMore ht (σ.kind_token _) hts, congrArg₂ List.cons heq heqs⟩

theorem says_listing {o : Option (List p.Tree)} (f : p.Tree → List Token)
    (h : ∀ ts, o = some ts → ts ≠ [] ∧ ∀ t ∈ ts, Says p (f t) t) :
    Says (.opt (.separated p)) (commaList σ f (o.getD [])) o := by
  cases o with
  | none => exact fun n => ⟨none, n, .optNone, rfl⟩
  | some ts =>
    obtain ⟨hne, h⟩ := h ts rfl
    exact (says_commaList f hne h).map some .optSome (congrArg some)

theorem Expr.tokensOfAll_eq (es : List Expr) :
    Expr.tokensOfAll σ es = commaList σ (Expr.tokens σ) es := by
  induction es with
  | nil => rfl
  | cons e rest ih =>
    cases rest with
    | nil => rfl
    | cons e' rest => rw [Expr.tokensOfAll, ih, commaList]

theorem Stmt.tokensOfAll_eq (body : List Stmt) :
    Stmt.tokensOfAll σ body = body.flatMap (Stmt.tokens σ) := by
  induction body with
  | nil => rfl
  | cons s rest ih => rw [Stmt.tokensOfAll, ih, List.flatMap_cons]

theorem FunctionDecl.tokensOfAll_eq (methods : List FunctionDecl) :
    FunctionDecl.tokensOfAll σ methods = methods.flatMap (FunctionDecl.tokens σ) := by
  induction methods with
  | nil => rfl
  | cons decl rest ih => rw [FunctionDecl.tokensOfAll, ih, List.flatMap_cons]

/-! ## Expressions -/

section Expressions

variable {l line : Nat} {e left right callee object value : Expr} {name : Ident} {r : Rank}

theorem kind_of_ofKind? {k : Kind} {op : Connective}
    (h : Connective.ofKind? l k = some op) : k = op.kind := by
  unfold Connective.ofKind? at h
  split at h <;> cases h <;> rfl

theorem unaryKind_of_ofKind? {k : Kind} {op : UnaryOp} (h : UnaryOp.ofKind? k = some op) :
    k = op.kind := by
  unfold UnaryOp.ofKind? at h
  split at h <;> cases h <;> rfl

theorem tokens_join (op : Connective) (line : Nat) (left right : Expr) :
    (op.join line left right).tokens σ =
      left.tokens σ ++ σ.token op.kind :: right.tokens σ := by
  cases op <;> rfl

theorem says_literal {k : Kind} {value : Literal} (h : k.literal? = some value) :
    Says (.expression .primary) (value.tokens σ) (.literal value) := by
  have htoken : ∃ t, value.tokens σ = [t] ∧ t.kind.literal? = some value := by
    unfold Kind.literal? at h
    split at h <;> cases h <;> refine ⟨_, rfl, ?_⟩ <;> rw [σ.kind_token] <;> try rfl
    rw [Kind.literal?, σ.value_number]
  obtain ⟨t, ht, hvalue⟩ := htoken
  rw [ht]
  exact fun n => ⟨_, n, .literal hvalue, rfl⟩

theorem says_join {op : Connective} {k : Kind}
    (hleft : Says (.expression (.level l)) (left.tokens σ) left)
    (hop : Connective.ofKind? l k = some op)
    (hright : Says (.expression (.level (l + 1))) (right.tokens σ) right) :
    Says (.expression (.level l)) ((op.join line left right).tokens σ)
      (op.join line left right) := by
  rw [tokens_join]
  rw [kind_of_ofKind? hop] at hop
  intro n
  obtain ⟨left', k', hl, heql⟩ := hleft n
  obtain ⟨right', m, hr, heqr⟩ := hright k'
  refine ⟨_, m, .joined hl (by rwa [σ.kind_token]) hr, ?_⟩
  show (op.join _ left' right').relabel .erasing = (op.join line left right).relabel .erasing
  rw [Connective.relabel_join, Connective.relabel_join]
  exact congrArg₂ (op.join 0) heql heqr

/-- The lists in two options that are the same up to labels. -/
theorem map_getD_eq {α β : Type} {f : α → β} {o o' : Option (List α)}
    (h : o'.map (List.map f) = o.map (List.map f)) :
    (o'.getD []).map f = (o.getD []).map f := by
  have hget : (o'.map (List.map f)).getD [] = (o.map (List.map f)).getD [] := by rw [h]
  rwa [← List.map_nil (f := f), Option.getD_map, Option.getD_map] at hget

theorem says_call {args : Option (List Expr)}
    (hcallee : Says (.expression .call) (callee.tokens σ) callee)
    (hargs : ∀ es, args = some es →
      es ≠ [] ∧ ∀ e ∈ es, Says (.expression .assignment) (e.tokens σ) e)
    (hlength : (args.getD []).length ≤ maxArity) :
    Says (.expression .call) ((Expr.call callee line (args.getD [])).tokens σ)
      (.call callee line (args.getD [])) := by
  intro n
  obtain ⟨callee', k, hc, heqc⟩ := hcallee n
  obtain ⟨args', m, ha, heqa⟩ :=
    says_listing (σ := σ) (p := .expression .assignment) (Expr.tokens σ) hargs k
  have hmap := map_getD_eq heqa
  have hlength' := congrArg List.length hmap
  rw [List.length_map, List.length_map] at hlength'
  rw [Expr.tokens, Expr.tokensOfAll_eq]
  refine ⟨_, m, .call hc (σ.kind_token _) ha (hlength' ▸ hlength) (σ.kind_token _), ?_⟩
  show Expr.call (callee'.relabel .erasing) 0 (Expr.relabelAll .erasing _) =
    Expr.call (callee.relabel .erasing) 0 (Expr.relabelAll .erasing _)
  rw [Expr.relabelAll_eq_map, Expr.relabelAll_eq_map]
  exact congrArg₂ (Expr.call · 0 ·) heqc hmap

theorem Says.get (h : Says (.expression .call) u object) :
    Says (.expression .call) (u ++ [σ.token .dot, name.token .identifier]) (.get object name) :=
  h.map (.get · name) (.get · (σ.kind_token _) rfl) (congrArg (Expr.get · (name.relabel .erasing)))

theorem Says.assignName {ref : Reference} (h : Says (.expression .assignment) v value) :
    Says (.expression .assignment) (ref.name.token .identifier :: σ.token .equal :: v)
      (.assign ref value) := by
  intro n
  obtain ⟨value', m, hv, heq⟩ := h (n + 1)
  exact ⟨_, m + 1, .assignName rfl (σ.kind_token _) hv,
    congrArg (Expr.assign ⟨0, ref.name.relabel .erasing⟩) heq⟩

theorem Says.assignField (hobject : Says (.expression .call) u object)
    (h : Says (.expression .assignment) v value) :
    Says (.expression .assignment)
      (u ++ σ.token .dot :: name.token .identifier :: σ.token .equal :: v)
      (.set object name value) := by
  intro n
  obtain ⟨object', k, ho, heqo⟩ := hobject n
  obtain ⟨value', m, hv, heqv⟩ := h k
  exact ⟨_, m, .assignField ho (σ.kind_token _) rfl (σ.kind_token _) hv,
    congrArg₂ (Expr.set · (name.relabel .erasing) ·) heqo heqv⟩

theorem Says.prefixed {op : UnaryOp} {k : Kind} (hop : UnaryOp.ofKind? k = some op)
    (h : Says (.expression .unary) v e) :
    Says (.expression .unary) (σ.token op.kind :: v) (.unary op line e) := by
  rw [unaryKind_of_ofKind? hop] at hop
  exact h.map (.unary op _) (.prefixed (by rwa [σ.kind_token])) (congrArg (Expr.unary op 0))

theorem Says.grouping (h : Says (.expression .assignment) v e) :
    Says (.expression .primary) (σ.token .leftParen :: (v ++ [σ.token .rightParen]))
      (.grouping e) :=
  h.map .grouping (.grouping (σ.kind_token _) · (σ.kind_token _)) (congrArg Expr.grouping)

/-- What is an expression of one rank is one of another. -/
theorem Says.rank {r' : Rank} (h : Says (.expression r) v e)
    (hread : ∀ {n e m}, Reading (.expression r) n v e m → Reading (.expression r') n v e m) :
    Says (.expression r') v e := by
  intro n
  obtain ⟨e', m, he, heq⟩ := h n
  exact ⟨e', m, hread he, heq⟩

/-- A literal as a whole expression. -/
theorem Says.literal {value : Literal} {k : Kind} (h : k.literal? = some value) :
    Says (.expression .assignment) (value.tokens σ) (.literal value) := by
  have hlevel : ∀ l ≤ Connective.levels,
      Says (.expression (.level l)) (value.tokens σ) (.literal value) := by
    intro l hl
    induction hl using Nat.decreasingInduction with
    | self => exact (says_literal h).rank fun h => .tightest (.unprefixed (.callee h))
    | of_succ l hl ih => exact ih.rank (.tighter hl)
  exact (hlevel 0 (Nat.zero_le _)).rank .loosest

end Expressions

/-! ## Statements -/

section Statements

variable {isOpen : Bool} {condition : Expr} {e : Expr} {yes no s body : Stmt}

theorem Says.simple (h : Says (.expression .assignment) v e) :
    Says .expressionStatement (v ++ [σ.token .semicolon]) (.expression e) :=
  h.map .expression (.expressionStatement · (σ.kind_token _)) (congrArg Stmt.expression)

theorem Says.ret {value : Option Expr} {line : Nat}
    (h : Says (.opt (.expression .assignment)) v value) :
    Says (.statement false) (σ.token .kwReturn :: (v ++ [σ.token .semicolon]))
      (.ret line value) :=
  h.map (.ret _) (.ret (σ.kind_token _) · (σ.kind_token _)) (congrArg (Stmt.ret 0))

theorem Says.print (h : Says (.expression .assignment) v e) :
    Says (.statement false) (σ.token .kwPrint :: (v ++ [σ.token .semicolon])) (.print e) :=
  h.map .print (.print (σ.kind_token _) · (σ.kind_token _)) (congrArg Stmt.print)

theorem Says.block {trees : List Stmt} (h : Says (.many .declaration) v trees) :
    Says (.statement false) (σ.token .leftBrace :: (v ++ [σ.token .rightBrace]))
      (.block trees) := by
  refine h.map .block (.block (σ.kind_token _) · (σ.kind_token _)) fun {trees'} heq => ?_
  show Stmt.block (Stmt.relabelAll .erasing _) = Stmt.block (Stmt.relabelAll .erasing _)
  rw [Stmt.relabelAll_eq_map, Stmt.relabelAll_eq_map]
  exact congrArg Stmt.block heq

theorem Says.ifThen (hcondition : Says (.expression .assignment) u condition)
    (h : Says (.statement isOpen) v yes) :
    Says (.statement true)
      (σ.token .kwIf :: σ.token .leftParen :: (u ++ σ.token .rightParen :: v))
      (.branch condition yes none) := by
  intro n
  obtain ⟨condition', k, hc, heqc⟩ := hcondition n
  obtain ⟨yes', m, hy, heqy⟩ := h k
  exact ⟨_, m, .ifThen (σ.kind_token _) (σ.kind_token _) hc (σ.kind_token _) hy,
    congrArg₂ (Stmt.branch · · none) heqc heqy⟩

theorem Says.ifElse (hcondition : Says (.expression .assignment) u condition)
    (hyes : Says (.statement false) v yes) (hno : Says (.statement isOpen) w no) :
    Says (.statement isOpen)
      (σ.token .kwIf :: σ.token .leftParen :: (u ++ σ.token .rightParen ::
        (v ++ σ.token .kwElse :: w))) (.branch condition yes (some no)) := by
  intro n
  obtain ⟨condition', k, hc, heqc⟩ := hcondition n
  obtain ⟨yes', k', hy, heqy⟩ := hyes k
  obtain ⟨no', m, hn, heqn⟩ := hno k'
  refine ⟨_, m, .ifElse (σ.kind_token _) (σ.kind_token _) hc (σ.kind_token _) hy
    (.after (σ.kind_token _) hn), ?_⟩
  show Stmt.branch (condition'.relabel .erasing) (yes'.relabel .erasing)
    (some (no'.relabel .erasing)) = _
  rw [show condition'.relabel .erasing = _ from heqc, show yes'.relabel .erasing = _ from heqy,
    show no'.relabel .erasing = _ from heqn]
  rfl

theorem Says.loop (hcondition : Says (.expression .assignment) u condition)
    (h : Says (.statement isOpen) v body) :
    Says (.statement isOpen)
      (σ.token .kwWhile :: σ.token .leftParen :: (u ++ σ.token .rightParen :: v))
      (.loop condition body) := by
  intro n
  obtain ⟨condition', k, hc, heqc⟩ := hcondition n
  obtain ⟨body', m, hb, heqb⟩ := h k
  exact ⟨_, m, .loop (σ.kind_token _) (σ.kind_token _) hc (σ.kind_token _) hb,
    congrArg₂ Stmt.loop heqc heqb⟩

theorem Says.declared (h : Says (.statement isOpen) v s) : Says .declaration v s := by
  intro n
  obtain ⟨s', m, hs, heq⟩ := h n
  exact ⟨s', m, .declareNothing hs, heq⟩

theorem Says.ofSimple (h : Says .expressionStatement v s) : Says (.statement false) v s := by
  intro n
  obtain ⟨s', m, hs, heq⟩ := h n
  exact ⟨s', m, .simple hs, heq⟩

theorem Says.var {name : Ident} {initializer : Option Expr}
    (h : Says (.opt (.after .equal (.expression .assignment))) v initializer) :
    Says .declaration (σ.token .kwVar :: name.token .identifier :: (v ++ [σ.token .semicolon]))
      (.var name initializer) :=
  h.map (.var name) (fun h => .declareVar (σ.kind_token _) (.varDeclaration rfl h (σ.kind_token _)))
    (congrArg (Stmt.var (name.relabel .erasing)))

theorem says_block {trees : List Stmt} (h : ∀ s ∈ trees, Says .declaration (s.tokens σ) s) :
    Says (.statement false) ((Stmt.block trees).tokens σ) (.block trees) := by
  rw [Stmt.tokens, Stmt.tokensOfAll_eq]
  exact (says_many _ h).block

/-- A statement that is written as one, closed if it was. -/
def StatementRewritten (σ : Spelling) (isOpen : Bool) (s : Stmt) : Prop :=
  ∃ isOpen', (isOpen = false → isOpen' = false) ∧ Says (.statement isOpen') (s.tokens σ) s

theorem StatementRewritten.closed (h : Says (.statement false) (s.tokens σ) s) :
    StatementRewritten σ isOpen s :=
  ⟨false, fun _ => rfl, h⟩

/-- The block and the loop that a `for` abbreviates. -/
theorem StatementRewritten.forLoop {start : Option Stmt} {condition increment : Option Expr}
    (hstart : ∀ s, start = some s → Says .declaration (s.tokens σ) s)
    (hcondition : ∀ e, condition = some e → Says (.expression .assignment) (e.tokens σ) e)
    (hincrement : ∀ e, increment = some e → Says (.expression .assignment) (e.tokens σ) e)
    (hbody : StatementRewritten σ isOpen body) :
    StatementRewritten σ isOpen (.forLoop start condition increment body) := by
  have hround : StatementRewritten σ isOpen
      (increment.elim body fun e => .block [body, .expression e]) := by
    cases increment with
    | none => exact hbody
    | some e =>
      obtain ⟨_, _, hbody⟩ := hbody
      refine .closed (says_block fun s hs => ?_)
      obtain rfl | rfl := List.mem_pair.1 hs
      · exact hbody.declared
      · exact (hincrement e rfl).simple.ofSimple.declared
  have hcondition : Says (.expression .assignment)
      ((condition.getD (.literal (.boolean true))).tokens σ)
      (condition.getD (.literal (.boolean true))) := by
    cases condition with
    | none => exact Says.literal (k := .kwTrue) rfl
    | some e => exact hcondition e rfl
  obtain ⟨isOpen', hclosed, hround⟩ := hround
  have hwhole : Says (.statement isOpen') (Stmt.tokens σ (.loop _ _)) _ := hcondition.loop hround
  have hforLoop : Stmt.forLoop start condition increment body = start.elim
      (.loop (condition.getD (.literal (.boolean true)))
        (increment.elim body fun e => .block [body, .expression e]))
      (fun s => .block [s, .loop (condition.getD (.literal (.boolean true)))
        (increment.elim body fun e => .block [body, .expression e])]) := by
    cases start <;> cases increment <;> rfl
  rw [hforLoop]
  cases start with
  | none => exact ⟨isOpen', hclosed, hwhole⟩
  | some s =>
    refine .closed (says_block fun s' hs => ?_)
    obtain rfl | rfl := List.mem_pair.1 hs
    · exact hstart _ rfl
    · exact hwhole.declared

end Statements

/-! ## Declarations -/

section Declarations

theorem says_ident (name : Ident) : Says .ident [name.token .identifier] name :=
  fun n => ⟨name, n, .ident rfl, rfl⟩

theorem says_reference (ref : Reference) :
    Says .reference [ref.name.token .identifier] ref :=
  fun n => ⟨⟨n, ref.name⟩, n + 1, .reference rfl, rfl⟩

theorem says_function {name : Ident} {params : Option (List Ident)} {body : List Stmt}
    (hparams : ∀ names, params = some names → names ≠ [])
    (hlength : (params.getD []).length ≤ maxArity)
    (hbody : ∀ s ∈ body, Says .declaration (s.tokens σ) s) :
    Says .function (FunctionDecl.tokens σ ⟨name, params.getD [], body⟩)
      ⟨name, params.getD [], body⟩ := by
  intro n
  have hparams : Says (.opt (.separated .ident)) _ params :=
    says_listing (σ := σ) _ fun names h => ⟨hparams names h, fun name _ => says_ident name⟩
  obtain ⟨params', k, hp, heqp⟩ := hparams n
  obtain ⟨body', m, hb, heqb⟩ := says_many (p := .declaration) (Stmt.tokens σ) hbody k
  have hmap := map_getD_eq heqp
  have hlength' := congrArg List.length hmap
  rw [List.length_map, List.length_map] at hlength'
  rw [FunctionDecl.tokens, Stmt.tokensOfAll_eq]
  refine ⟨_, m, .function rfl (σ.kind_token _) hp (hlength' ▸ hlength) (σ.kind_token _)
    (σ.kind_token _) hb (σ.kind_token _), ?_⟩
  show FunctionDecl.mk _ _ (Stmt.relabelAll .erasing _) =
    FunctionDecl.mk _ _ (Stmt.relabelAll .erasing _)
  rw [Stmt.relabelAll_eq_map, Stmt.relabelAll_eq_map]
  exact congrArg₂ (FunctionDecl.mk (name.relabel .erasing)) hmap heqb

theorem says_class {name : Ident} {parent : Option Reference} {methods : List FunctionDecl}
    (h : ∀ decl ∈ methods, Says .function (decl.tokens σ) decl) :
    Says .declaration ((Stmt.classDecl name parent methods).tokens σ)
      (.classDecl name parent methods) := by
  intro n
  have hparent : Says (.opt (.after .less .reference))
      (parent.elim [] fun ref => [σ.token .less, ref.name.token .identifier]) parent :=
    says_opt _ fun ref _ => (says_reference ref).after (σ.kind_token _)
  obtain ⟨parent', k, hp, heqp⟩ := hparent n
  obtain ⟨methods', m, hm, heqm⟩ := says_many (p := .function) (FunctionDecl.tokens σ) h k
  rw [Stmt.tokens, FunctionDecl.tokensOfAll_eq]
  refine ⟨_, m, .declareClass (σ.kind_token _) rfl hp (σ.kind_token _) hm (σ.kind_token _), ?_⟩
  show Stmt.classDecl _ _ (FunctionDecl.relabelAll .erasing _) =
    Stmt.classDecl _ _ (FunctionDecl.relabelAll .erasing _)
  rw [FunctionDecl.relabelAll_eq_map, FunctionDecl.relabelAll_eq_map]
  exact congrArg₂ (Stmt.classDecl (name.relabel .erasing)) heqp heqm

theorem Says.declareFun {decl : FunctionDecl} (h : Says .function v decl) :
    Says .declaration (σ.token .kwFun :: v) (.function decl) :=
  h.map .function (.declareFun (σ.kind_token _)) (congrArg Stmt.function)

end Declarations

/-! ## Whole programs -/

/-- The tree of a phrase is written as such a phrase. Clauses of `for` loops are written as the
declarations they become. -/
def Rewritten (σ : Spelling) : (p : Phrase) → p.Tree → Prop
  | .ident, _ | .reference, _ => True
  | .expression r, e => Says (.expression r) (e.tokens σ) e
  | .expressionStatement, s => Says .expressionStatement (s.tokens σ) s
  | .varDeclaration, s | .declaration, s => Says .declaration (s.tokens σ) s
  | .forStart, start => ∀ s, start = some s → Says .declaration (s.tokens σ) s
  | .statement isOpen, s => StatementRewritten σ isOpen s
  | .function, decl => Says .function (decl.tokens σ) decl
  | .opt p, o => ∀ t, o = some t → Rewritten σ p t
  | .many p, ts => ∀ t ∈ ts, Rewritten σ p t
  | .separated p, ts => ts ≠ [] ∧ ∀ t ∈ ts, Rewritten σ p t
  | .after _ p, t => Rewritten σ p t

/-- By induction on the reading, with one case for every way to read a phrase. -/
theorem rewritten {n m : Nat} {t : p.Tree} (h : Reading p n w t m) : Rewritten σ p t := by
  induction h with
  | optNone => exact nofun
  | optSome _ ih => exact fun t heq => Option.some.inj heq ▸ ih
  | manyNil => exact nofun
  | manyCons _ _ ih ihs => exact List.forall_mem_cons.2 ⟨ih, ihs⟩
  | separatedOne _ ih => exact ⟨nofun, List.forall_mem_singleton.2 ih⟩
  | separatedMore _ _ _ ih ihs => exact ⟨nofun, List.forall_mem_cons.2 ⟨ih, ihs.2⟩⟩
  | after _ _ ih => exact ih
  | ident | reference => trivial
  | assignName _ _ _ ih => exact ih.assignName
  | assignField _ _ _ _ _ ihu ih => exact ihu.assignField ih
  | loosest _ ih => exact ih.rank .loosest
  | tighter hl _ ih => exact ih.rank (.tighter hl)
  | joined _ hop _ ihleft ihright => exact says_join ihleft hop ihright
  | tightest _ ih => exact ih.rank .tightest
  | prefixed hop _ ih => exact ih.prefixed hop
  | unprefixed _ ih => exact ih.rank .unprefixed
  | callee _ ih => exact ih.rank .callee
  | call _ _ _ hargs _ ihcallee ih => exact says_call ihcallee ih hargs
  | get _ _ _ ih => exact ih.get
  | literal ht => exact says_literal ht
  | @this n t ht => exact fun n => ⟨.this ⟨n, t.ident⟩, n + 1, .this rfl, rfl⟩
  | @«variable» n t ht => exact fun n => ⟨.variable ⟨n, t.ident⟩, n + 1, .variable rfl, rfl⟩
  | @super n t dot method ht hdot hmethod =>
    exact fun n => ⟨.super ⟨n, t.ident⟩ method.ident, n + 1, .super rfl (σ.kind_token _) rfl, rfl⟩
  | grouping _ _ _ ih => exact ih.grouping
  | expressionStatement _ _ ih => exact ih.simple
  | varDeclaration _ _ _ ih =>
    exact Says.var (says_opt _ fun e he => Says.after (ih e he) (σ.kind_token _))
  | forNone => exact nofun
  | forVar _ _ ih => exact fun s heq => Option.some.inj heq ▸ ih
  | forExpression _ ih => exact fun s heq => Option.some.inj heq ▸ ih.ofSimple.declared
  | simple _ ih => exact .closed ih.ofSimple
  | print _ _ _ ih => exact .closed ih.print
  | ret _ _ _ ih => exact .closed (Says.ret (says_opt _ ih))
  | block _ _ _ ih => exact .closed (says_block ih)
  | ifThen _ _ _ _ _ ihcondition ih =>
    obtain ⟨_, _, ih⟩ := ih
    exact ⟨true, nofun, by simpa [Stmt.tokens] using ihcondition.ifThen ih⟩
  | ifElse _ _ _ _ _ _ ihcondition ihyes ihno =>
    obtain ⟨_, hclosed, ihyes⟩ := ihyes
    obtain ⟨isOpen', hno, ihno⟩ := ihno
    rw [hclosed rfl] at ihyes
    exact ⟨isOpen', hno, ihcondition.ifElse ihyes ihno⟩
  | loop _ _ _ _ _ ihcondition ih =>
    obtain ⟨isOpen', hclosed, ih⟩ := ih
    exact ⟨isOpen', hclosed, ihcondition.loop ih⟩
  | forLoop _ _ _ _ _ _ _ _ ihstart ihcondition ihincrement ih =>
    exact StatementRewritten.forLoop ihstart ihcondition ihincrement ih
  | function _ _ _ hlength _ _ _ _ ihparams ih =>
    exact says_function (fun names h => (ihparams names h).1) hlength ih
  | declareClass _ _ _ _ _ _ _ ih => exact says_class ih
  | declareFun _ _ ih => exact ih.declareFun
  | declareVar _ _ ih => exact ih
  | declareNothing _ ih =>
    obtain ⟨_, _, ih⟩ := ih
    exact ih.declared

/-- No end-of-file token is asked for. -/
def Phrase.Inner : Phrase → Prop
  | .after kind p => kind ≠ .eof ∧ p.Inner
  | .opt p | .many p | .separated p => p.Inner
  | _ => True

/-- No phrase goes past the end. -/
theorem Reading.ne_eof {n m : Nat} {t : p.Tree} (h : Reading p n w t m) (hp : p.Inner) :
    ∀ mark ∈ w, mark.kind ≠ .eof := by
  have hop : ∀ l, Connective.ofKind? l .eof = none := 
    fun l => Parser.ofKind?_eq_none nofun
  induction h with
  | joined _ hsign _ ihleft ihright =>
    simp only [List.forall_mem_append, List.forall_mem_cons]
    refine ⟨ihleft trivial, fun heq => ?_, ihright trivial⟩
    rw [heq, hop] at hsign
    cases hsign
  | prefixed hsign _ ih =>
    refine List.forall_mem_cons.2 ⟨fun heq => ?_, ih trivial⟩
    rw [heq] at hsign
    cases hsign
  | literal ht =>
    refine List.forall_mem_singleton.2 fun heq => ?_
    rw [heq] at ht
    cases ht
  | _ => simp_all [Phrase.Inner, or_imp]

/-- Parsing inverts unparsing: a program that was parsed without a fault and is written as tokens
again is parsed without a fault, to the same tree up to lines and identities. -/
theorem parse_unparse (σ : Spelling) (n n' : Nat) (tokens : List Token)
    (h : (parseProgram n tokens).faults = []) :
    (parseProgram n' (unparse σ (parseProgram n tokens).tree)).faults = [] ∧
      (parseProgram n' (unparse σ (parseProgram n tokens).tree)).tree.map Stmt.erase =
        (parseProgram n tokens).tree.map Stmt.erase := by
  have hparse : parseProgram n tokens =
      ⟨(parseProgram n tokens).tree, [], (parseProgram n tokens).nextId⟩ := by
    rw [← h]
  have htrees := rewritten (σ := σ) (Parser.parseProgram_eq_iff.1 hparse)
  obtain ⟨trees, m, hread, herase⟩ := says_many (p := .declaration) (Stmt.tokens σ) htrees n'
  rw [← Stmt.tokensOfAll_eq] at hread
  have hrest : (Cursor.start n' (unparse σ (parseProgram n tokens).tree)).rest = _ :=
    Parser.rest_start (hread.ne_eof trivial) (σ.kind_token .eof)
  have hagain : parseProgram n' (unparse σ (parseProgram n tokens).tree) = ⟨trees, [], m⟩ :=
    Parser.parseProgram_eq_iff.2 (by rwa [hrest])
  rw [hagain]
  exact ⟨rfl, herase⟩

end

/-- A spelling with tokens of no text. -/
noncomputable def Spelling.plain : Spelling where
  token kind := ⟨kind, "", 0⟩
  number x := open Classical in if h : ∃ n : Numeral, n.value = x then h.choose else .integer 0
  kind_token _ := rfl
  value_number n := by
    have h : ∃ n' : Numeral, n'.value = n.value := ⟨n, rfl⟩
    rw [dif_pos h]
    exact h.choose_spec

/-- `for (var i = 1; i < 2; i = -i) if (a) if (b) c.d = i; else print i;` -/
def loopedBranches : List Token :=
  [.kwFor, .leftParen, .kwVar, .identifier, .equal, .number (.integer 1), .semicolon, .identifier,
    .less, .number (.integer 2), .semicolon, .identifier, .equal, .minus, .identifier, .rightParen,
    .kwIf, .leftParen, .identifier, .rightParen, .kwIf, .leftParen, .identifier, .rightParen,
    .identifier, .dot, .identifier, .equal, .identifier, .semicolon, .kwElse, .kwPrint,
    .identifier, .semicolon, .eof].map (⟨·, "", 1⟩)

theorem parse_unparse_for :
    (parseProgram 0 loopedBranches).faults = [] ∧
      (parseProgram 5 (unparse .plain (parseProgram 0 loopedBranches).tree)).faults = [] ∧
      (parseProgram 5 (unparse .plain (parseProgram 0 loopedBranches).tree)).tree.map Stmt.erase =
        (parseProgram 0 loopedBranches).tree.map Stmt.erase :=
  ⟨by decide +kernel, parse_unparse .plain 0 5 loopedBranches (by decide +kernel)⟩

end Lox
