import Lox.Proofs.Scanning.Lossless
import Lox.Proofs.Syntax.Exact

/-!
# In which order syntax errors are recorded

A parser never goes back, and an error is recorded where it stands: it is located at the token ahead. The one
exception is a wrong assignment target. It is located at its equals sign and recorded when the value behind the
sign has been read, so errors of that value come before it. All other errors are in the order of the source.
-/
namespace Lox

/-- The error is located at the token at this place. -/
def SyntaxFault.StandsAt (tokens : List Token) (place : Nat) (fault : SyntaxFault) : Prop :=
  ∃ t, tokens[place]? = some t ∧ fault.line = t.line ∧
    fault.location = if t.kind = .eof then .atEnd else .at t.lexeme

/-- Two errors with the places where they stand, one recorded before the other. -/
def SyntaxFault.InTurn (tokens : List Token) (earlier later : Nat × SyntaxFault) : Prop :=
  earlier.1 ≤ later.1 ∨
    later.2.cause = .assignmentTarget ∧ ∃ t, tokens[later.1]? = some t ∧ t.kind = .equal

namespace Cursor

/-- Parsing stands at a place, and what has been recorded stands there or before. -/
structure Records (tokens : List Token) (place : Nat) (record : List (Nat × SyntaxFault)) (c : Cursor) :
    Prop where
  ahead : ∃ last : Token, last.kind = .eof ∧ last.line = c.endLine ∧ tokens.drop place = c.rest ++ [last]
  words : ∀ t ∈ c.rest, t.kind ≠ .eof
  faults : record.map Prod.snd = c.faults
  behind : ∀ entry ∈ record, entry.1 ≤ place
  stands : ∀ entry ∈ record, entry.2.StandsAt tokens entry.1
  inTurn : record.Pairwise (SyntaxFault.InTurn tokens)

namespace Records

variable {tokens : List Token} {place : Nat} {record : List (Nat × SyntaxFault)} {c : Cursor}

theorem token (h : c.Records tokens place record) {t : Token} {rest : List Token} (hrest : c.rest = t :: rest) :
    tokens[place]? = some t := by
  obtain ⟨last, -, -, htokens⟩ := h.ahead
  have hget : (tokens.drop place)[0]? = some t := by rw [htokens, hrest]; rfl
  rwa [List.getElem?_drop] at hget

/-- An error at the token ahead stands at the place that parsing has come to. -/
theorem stands_faultAt (h : c.Records tokens place record) (cause : SyntaxError) :
    (c.faultAt cause).StandsAt tokens place := by
  cases hrest : c.rest with
  | nil =>
    obtain ⟨last, hkind, hline, htokens⟩ := h.ahead
    have hget : (tokens.drop place)[0]? = some last := by rw [htokens, hrest]; rfl
    rw [List.getElem?_drop] at hget
    refine ⟨last, hget, ?_, ?_⟩
    · simp [faultAt, hrest, hline]
    · simp [faultAt, hrest, hkind]
  | cons t rest =>
    have hkind := h.words t (hrest ▸ List.mem_cons_self)
    refine ⟨t, h.token hrest, ?_, ?_⟩
    · simp [faultAt, hrest]
    · simp [faultAt, hrest, hkind]

/-- An error is recorded at the place that parsing has come to, or before if it is of a wrong target. -/
theorem push (h : c.Records tokens place record) {entry : Nat × SyntaxFault} (hplace : entry.1 ≤ place)
    (hstands : entry.2.StandsAt tokens entry.1)
    (hturn : ∀ earlier ∈ record, SyntaxFault.InTurn tokens earlier entry) :
    { c with faults := c.faults ++ [entry.2] }.Records tokens place (record ++ [entry]) where
  ahead := h.ahead
  words := h.words
  faults := by simp [h.faults]
  behind := List.forall_mem_append.2 ⟨h.behind, List.forall_mem_singleton.2 hplace⟩
  stands := List.forall_mem_append.2 ⟨h.stands, List.forall_mem_singleton.2 hstands⟩
  inTurn := List.pairwise_append.2 ⟨h.inTurn, List.pairwise_singleton _ _, fun earlier he entry' hentry => by
    rw [List.mem_singleton.1 hentry]
    exact hturn earlier he⟩

theorem push_ahead (h : c.Records tokens place record) (cause : SyntaxError) :
    { c with faults := c.faults ++ [c.faultAt cause] }.Records tokens place
      (record ++ [(place, c.faultAt cause)]) :=
  h.push le_rfl (h.stands_faultAt cause) fun earlier he => .inl (h.behind earlier he)

theorem push_target (h : c.Records tokens place record) {sign : Nat} {t : Token} (hsign : sign ≤ place)
    (ht : tokens[sign]? = some t) (hkind : t.kind = .equal) :
    let fault : SyntaxFault := ⟨t.line, .at t.lexeme, .assignmentTarget⟩
    { c with faults := c.faults ++ [fault] }.Records tokens place (record ++ [(sign, fault)]) := by
  refine h.push hsign ⟨t, ht, rfl, ?_⟩ fun _ _ => .inr ⟨rfl, t, ht, hkind⟩
  rw [hkind]
  rfl

theorem advance (h : c.Records tokens place record) {t : Token} {rest : List Token} (hrest : c.rest = t :: rest) :
    { c with rest := rest }.Records tokens (place + 1) record := by
  obtain ⟨last, hkind, hline, htokens⟩ := h.ahead
  refine ⟨⟨last, hkind, hline, ?_⟩, fun t ht => h.words t (hrest ▸ List.mem_cons_of_mem _ ht), h.faults,
    fun entry he => (h.behind entry he).trans (Nat.le_succ _), h.stands, h.inTurn⟩
  rw [← List.drop_drop, htokens, hrest]
  rfl

/-- Recovery goes forward. -/
theorem skip (h : c.Records tokens place record) (last : Token) :
    ∃ next, place ≤ next ∧ { c with rest := Cursor.boundary last c.rest }.Records tokens next record := by
  obtain ⟨rest, endLine, faults, nextId⟩ := c
  induction rest generalizing last place with
  | nil => exact ⟨place, le_rfl, h⟩
  | cons t rest ih =>
    unfold Cursor.boundary
    split
    · exact ⟨place, le_rfl, h⟩
    · obtain ⟨next, hnext, hskip⟩ := ih t (h.advance rfl)
      exact ⟨next, place.le_succ.trans hnext, hskip⟩

theorem synchronize (h : c.Records tokens place record) :
    ∃ next, place ≤ next ∧ c.synchronize.Records tokens next record := by
  obtain ⟨_ | ⟨t, rest⟩, endLine, faults, nextId⟩ := c
  · exact ⟨place, le_rfl, h⟩
  · obtain ⟨next, hnext, hskip⟩ := (h.advance rfl).skip t
    exact ⟨next, (Nat.le_succ _).trans hnext, hskip⟩

end Records

/-- Parsing stands at a place with its errors in turn. -/
def Tidy (tokens : List Token) (place : Nat) (c : Cursor) : Prop := ∃ record, c.Records tokens place record

end Cursor

namespace Parser

open Cursor (Tidy)

variable {α β : Type} {tokens : List Token} {start : Nat}

/-- From a place parsing has gone forward, and the errors are in turn. One that it has failed with is an error at
the token ahead. -/
def Leads (tokens : List Token) (place : Nat) : EStateM.Result SyntaxFault Cursor α → Prop
  | .ok _ c => ∃ next, place ≤ next ∧ Tidy tokens next c
  | .error fault c => fault = c.faultAt fault.cause ∧ ∃ next, place ≤ next ∧ Tidy tokens next c

theorem Leads.of_le {place middle : Nat} {r : EStateM.Result SyntaxFault Cursor α} (hle : place ≤ middle)
    (h : Leads tokens middle r) : Leads tokens place r := by
  cases r with
  | ok a c =>
    obtain ⟨next, hnext, htidy⟩ := h
    exact ⟨next, hle.trans hnext, htidy⟩
  | error fault c =>
    obtain ⟨hfault, next, hnext, htidy⟩ := h
    exact ⟨hfault, next, hle.trans hnext, htidy⟩

/-- From any place behind `start` the parser goes forward and keeps the errors in turn. -/
def Orderly (tokens : List Token) (start : Nat) (p : Parser α) : Prop :=
  ∀ place c, start ≤ place → Tidy tokens place c → Leads tokens place (p c)

namespace Orderly

theorem later {p : Parser α} (hp : Orderly tokens 0 p) : Orderly tokens start p :=
  fun place c _ h => hp place c place.zero_le h

theorem pure (a : α) : Orderly tokens start (Pure.pure a : Parser α) := fun place _ _ h => ⟨place, le_rfl, h⟩

theorem bind {p : Parser α} {f : α → Parser β} (hp : Orderly tokens start p)
    (hf : ∀ a, Orderly tokens start (f a)) : Orderly tokens start (p >>= f) := by
  intro place c hstart h
  have hfirst := hp place c hstart h
  rw [bind_eq]
  cases hc : p c with
  | error fault c' =>
    rw [hc] at hfirst
    exact hfirst
  | ok a c' =>
    rw [hc] at hfirst
    obtain ⟨middle, hmiddle, htidy⟩ := hfirst
    exact (hf a middle c' (hstart.trans hmiddle) htidy).of_le hmiddle

theorem ite {b : Prop} [Decidable b] {p q : Parser α} (hp : Orderly tokens start p) (hq : Orderly tokens start q) :
    Orderly tokens start (if b then p else q) := by
  split
  · exact hp
  · exact hq

theorem fail (cause : SyntaxError) : Orderly tokens start (Parser.fail cause : Parser α) := by
  intro place c hstart h
  refine ⟨?_, place, le_rfl, h⟩
  obtain ⟨_ | ⟨t, rest⟩, endLine, faults, nextId⟩ := c <;> rfl

theorem note (cause : SyntaxError) : Orderly tokens start (Parser.note cause) := by
  rintro place c - ⟨record, h⟩
  exact ⟨place, le_rfl, _, h.push_ahead cause⟩

theorem next? : Orderly tokens start Parser.next? := fun place _ _ h => ⟨place, le_rfl, h⟩

theorem advance : Orderly tokens start Parser.advance := by
  rintro place ⟨_ | ⟨t, rest⟩, endLine, faults, nextId⟩ - ⟨record, h⟩
  · exact ⟨place, le_rfl, record, h⟩
  · exact ⟨place + 1, place.le_succ, record, h.advance rfl⟩

theorem reference (name : Ident) : Orderly tokens start (Parser.reference name) := by
  rintro place c - ⟨record, h⟩
  exact ⟨place, le_rfl, record, h.ahead, h.words, h.faults, h.behind, h.stands, h.inTurn⟩

theorem check (kind : Kind) : Orderly tokens start (Parser.check kind) := next?.bind fun _ => .pure _

theorem accept (kind : Kind) : Orderly tokens start (Parser.accept kind) :=
  (check kind).bind fun _ => .ite (advance.bind fun _ => .pure _) (.pure _)

theorem expect (kind : Kind) (cause : SyntaxError) : Orderly tokens start (Parser.expect kind cause) :=
  (accept kind).bind fun _ => .ite (.pure _) (.fail cause)

theorem take? (test : Token → Bool) : Orderly tokens start (Parser.take? test) := by
  refine next?.bind fun t => ?_
  cases t with
  | none => exact .pure _
  | some t => exact .ite (advance.bind fun _ => .pure _) (.pure _)

theorem take (kind : Kind) (cause : SyntaxError) : Orderly tokens start (Parser.take kind cause) := by
  refine (take? _).bind fun t => ?_
  cases t with
  | none => exact .fail cause
  | some t => exact .pure _

theorem ident (cause : SyntaxError) : Orderly tokens start (Parser.ident cause) :=
  (take .identifier cause).bind fun _ => .pure _

theorem closing : Orderly tokens start Parser.closing := by
  refine next?.bind fun t => ?_
  cases t <;> exact .pure _

theorem limit (count : Nat) (cause : SyntaxError) : Orderly tokens start (Parser.limit count cause) :=
  .ite (note cause) (.pure _)

theorem behind {p : Parser α} (hp : Orderly tokens start p) (kind : Kind) :
    Orderly tokens start (Parser.behind kind p) :=
  (accept kind).bind fun _ => .ite (hp.bind fun _ => .pure _) (.pure _)

theorem unlessNext {p : Parser α} (hp : Orderly tokens start p) (kind : Kind) :
    Orderly tokens start (Parser.unlessNext kind p) :=
  (check kind).bind fun _ => .ite (.pure _) (hp.bind fun _ => .pure _)

theorem separated {item : Parser α} (hitem : Orderly tokens start item) (cause : SyntaxError) (depth count : Nat) :
    Orderly tokens start (Parser.separated item cause depth count) := by
  induction depth generalizing count with
  | zero => exact .fail _
  | succ depth ih =>
    exact (limit count cause).bind fun _ => hitem.bind fun _ => ((ih (count + 1)).behind _).bind fun _ => .pure _

/-- The error of a malformed declaration is recorded before any token is dropped. -/
theorem recovering {p : Parser α} (hp : Orderly tokens start p) : Orderly tokens start (Parser.recovering p) := by
  intro place c hstart h
  have hrun := hp place c hstart h
  unfold Parser.recovering
  cases hc : p c with
  | ok a c' =>
    rw [hc] at hrun
    exact hrun
  | error fault c' =>
    rw [hc] at hrun
    obtain ⟨hfault, middle, hmiddle, record, hrecords⟩ := hrun
    have hpush := hrecords.push_ahead fault.cause
    rw [← hfault] at hpush
    obtain ⟨next, hnext, hskip⟩ := hpush.synchronize
    exact ⟨next, hmiddle.trans hnext, _, hskip⟩

/-- What is parsed behind a token that has passed a test begins behind its place. -/
theorem ifTaken {test : Token → Bool} {f : Option Token → Parser α} (hnone : Orderly tokens 0 (f none))
    (hsome : ∀ sign t, tokens[sign]? = some t → test t = true → Orderly tokens sign (f (some t))) :
    Orderly tokens 0 (Parser.take? test >>= f) := by
  rintro place c - ⟨record, h⟩
  rw [bind_eq, take?_eq]
  cases hrest : c.rest with
  | nil => exact hnone place c place.zero_le ⟨record, h⟩
  | cons t rest =>
    dsimp only
    by_cases htest : test t = true
    · rw [if_pos htest]
      have hrun := hsome place t (h.token hrest) htest (place + 1) _ place.le_succ ⟨record, h.advance hrest⟩
      exact hrun.of_le place.le_succ
    · rw [if_neg htest]
      exact hnone place c place.zero_le ⟨record, h⟩

/-- A wrong target is recorded at its equals sign, which parsing has passed. -/
theorem wrongTarget {sign : Nat} {equals : Token} (hequals : tokens[sign]? = some equals)
    (hkind : equals.kind = .equal) (a : α) : Orderly tokens sign (do
      let fault : SyntaxFault := ⟨equals.line, .at equals.lexeme, .assignmentTarget⟩
      modify fun c : Cursor => { c with faults := c.faults ++ [fault] }
      return a) := by
  rintro place c hsign ⟨record, h⟩
  exact ⟨place, le_rfl, _, h.push_target hsign hequals hkind⟩

end Orderly

/-! ## Productions -/

structure ExpressionsOrderly (tokens : List Token) (depth : Nat) : Prop where
  expression : Orderly tokens 0 (expression depth)
  assignment : Orderly tokens 0 (assignment depth)
  operators : ∀ level, Orderly tokens 0 (operators depth level)
  chain : ∀ level left, Orderly tokens 0 (chain depth level left)
  unary : Orderly tokens 0 (unary depth)
  suffixes : ∀ callee, Orderly tokens 0 (suffixes depth callee)
  primary : Orderly tokens 0 (primary depth)

section

variable {depth : Nat}

theorem orderly_assignment (ih : ExpressionsOrderly tokens depth) : Orderly tokens 0 (assignment (depth + 1)) := by
  refine (ih.operators 0).bind fun target => Orderly.ifTaken (.pure _) fun sign equals hequals hkind => ?_
  refine ih.assignment.later.bind fun value => ?_
  cases target with
  | «variable» ref => exact (Orderly.reference _).bind fun _ => .pure _
  | get object name => exact .pure _
  | _ => exact .wrongTarget hequals (of_decide_eq_true hkind) _

theorem orderly_chain (ih : ExpressionsOrderly tokens depth) (level : Nat) (left : Expr) :
    Orderly tokens 0 (chain (depth + 1) level left) := by
  refine (Orderly.take? _).bind fun t => ?_
  cases t with
  | none => exact .pure _
  | some t =>
    dsimp only
    cases Connective.ofKind? level t.kind with
    | none => exact .pure _
    | some op => exact (ih.operators _).bind fun _ => ih.chain _ _

theorem orderly_unary (ih : ExpressionsOrderly tokens depth) : Orderly tokens 0 (unary (depth + 1)) := by
  refine (Orderly.take? _).bind fun t => ?_
  cases t with
  | none => exact ih.primary.bind fun callee => ih.suffixes callee
  | some t =>
    refine ih.unary.bind fun operand => ?_
    cases UnaryOp.ofKind? t.kind <;> exact .pure _

theorem orderly_suffixes (ih : ExpressionsOrderly tokens depth) (callee : Expr) :
    Orderly tokens 0 (suffixes (depth + 1) callee) := by
  refine (Orderly.accept _).bind fun _ => .ite ?_ ?_
  · exact ((ih.expression.separated _ _ _).unlessNext _).bind fun _ =>
      (Orderly.take _ _).bind fun _ => ih.suffixes _
  · exact (Orderly.accept _).bind fun _ => .ite ((Orderly.ident _).bind fun _ => ih.suffixes _) (.pure _)

theorem orderly_primary (ih : ExpressionsOrderly tokens depth) : Orderly tokens 0 (primary (depth + 1)) := by
  refine Orderly.next?.bind fun t => ?_
  cases t with
  | none => exact .fail _
  | some t =>
    dsimp only
    cases t.kind with
    | kwThis | identifier => exact Orderly.advance.bind fun _ => (Orderly.reference _).bind fun _ => .pure _
    | kwSuper =>
      exact Orderly.advance.bind fun _ => (Orderly.expect _ _).bind fun _ => (Orderly.ident _).bind fun _ =>
        (Orderly.reference _).bind fun _ => .pure _
    | leftParen =>
      exact Orderly.advance.bind fun _ => ih.expression.bind fun _ => (Orderly.expect _ _).bind fun _ => .pure _
    | kwFalse | kwTrue | kwNil | number | string => exact Orderly.advance.bind fun _ => .pure _
    | _ => exact .fail _

end

theorem expressionsOrderly (tokens : List Token) (depth : Nat) : ExpressionsOrderly tokens depth := by
  induction depth with
  | zero =>
    exact {
      expression := .fail _
      assignment := .fail _
      operators := fun _ => .fail _
      chain := fun _ _ => .fail _
      unary := .fail _
      suffixes := fun _ => .fail _
      primary := .fail _ }
  | succ depth ih =>
    exact {
      expression := ih.assignment
      assignment := orderly_assignment ih
      operators := fun _ => .ite ((ih.operators _).bind fun _ => ih.chain _ _) ih.unary
      chain := orderly_chain ih
      unary := orderly_unary ih
      suffixes := orderly_suffixes ih
      primary := orderly_primary ih }

section

variable (tokens) (depth : Nat)

theorem orderly_expression : Orderly tokens 0 (expression depth) := (expressionsOrderly tokens depth).expression

theorem orderly_varDeclaration : Orderly tokens 0 (varDeclaration depth) :=
  (Orderly.ident _).bind fun _ => ((orderly_expression tokens depth).behind _).bind fun _ =>
    (Orderly.expect _ _).bind fun _ => .pure _

theorem orderly_expressionStatement : Orderly tokens 0 (expressionStatement depth) :=
  (orderly_expression tokens depth).bind fun _ => (Orderly.expect _ _).bind fun _ => .pure _

theorem orderly_printStatement : Orderly tokens 0 (printStatement depth) :=
  (orderly_expression tokens depth).bind fun _ => (Orderly.expect _ _).bind fun _ => .pure _

theorem orderly_returnStatement (line : Nat) : Orderly tokens 0 (returnStatement depth line) :=
  ((orderly_expression tokens depth).unlessNext _).bind fun _ => (Orderly.expect _ _).bind fun _ => .pure _

theorem orderly_forStart : Orderly tokens 0 (forStart depth) :=
  (Orderly.accept _).bind fun _ => .ite (.pure _) <| (Orderly.accept _).bind fun _ => .ite
    ((orderly_varDeclaration tokens depth).bind fun _ => .pure _)
    ((orderly_expressionStatement tokens depth).bind fun _ => .pure _)

end

structure StatementsOrderly (tokens : List Token) (depth : Nat) : Prop where
  declaration : Orderly tokens 0 (declaration depth)
  declared : Orderly tokens 0 (declared depth)
  declarations : Orderly tokens 0 (declarations depth)
  block : Orderly tokens 0 (block depth)
  function : ∀ sort, Orderly tokens 0 (function depth sort)
  methods : Orderly tokens 0 (methods depth)
  classDeclaration : Orderly tokens 0 (classDeclaration depth)
  statement : Orderly tokens 0 (statement depth)
  forStatement : Orderly tokens 0 (forStatement depth)
  ifStatement : Orderly tokens 0 (ifStatement depth)
  whileStatement : Orderly tokens 0 (whileStatement depth)

section

variable {depth : Nat}

theorem orderly_declared (ih : StatementsOrderly tokens depth) : Orderly tokens 0 (declared (depth + 1)) :=
  (Orderly.accept _).bind fun _ => .ite ih.classDeclaration <| (Orderly.accept _).bind fun _ =>
    .ite ((ih.function _).bind fun _ => .pure _) <| (Orderly.accept _).bind fun _ =>
      .ite (orderly_varDeclaration tokens depth) ih.statement

theorem orderly_declarations (ih : StatementsOrderly tokens depth) :
    Orderly tokens 0 (declarations (depth + 1)) :=
  Orderly.closing.bind fun _ => .ite (.pure _) <|
    ih.declaration.bind fun _ => ih.declarations.bind fun _ => .pure _

theorem orderly_function (ih : StatementsOrderly tokens depth) (sort : FunctionSort) :
    Orderly tokens 0 (function (depth + 1) sort) :=
  (Orderly.ident _).bind fun _ => (Orderly.expect _ _).bind fun _ =>
    (((Orderly.ident _).separated _ _ _).unlessNext _).bind fun _ => (Orderly.expect _ _).bind fun _ =>
      (Orderly.expect _ _).bind fun _ => ih.block.bind fun _ => .pure _

theorem orderly_methods (ih : StatementsOrderly tokens depth) : Orderly tokens 0 (methods (depth + 1)) :=
  Orderly.closing.bind fun _ => .ite (.pure _) <|
    (ih.function _).bind fun _ => ih.methods.bind fun _ => .pure _

theorem orderly_classDeclaration (ih : StatementsOrderly tokens depth) :
    Orderly tokens 0 (classDeclaration (depth + 1)) :=
  (Orderly.ident _).bind fun _ =>
    (((Orderly.ident _).bind fun _ => Orderly.reference _).behind _).bind fun _ =>
      (Orderly.expect _ _).bind fun _ => ih.methods.bind fun _ => (Orderly.expect _ _).bind fun _ => .pure _

theorem orderly_statement (ih : StatementsOrderly tokens depth) : Orderly tokens 0 (statement (depth + 1)) := by
  refine (Orderly.accept _).bind fun _ => .ite ih.forStatement <| (Orderly.accept _).bind fun _ =>
    .ite ih.ifStatement <| (Orderly.accept _).bind fun _ => .ite ih.whileStatement <|
      (Orderly.take? _).bind fun t => ?_
  cases t with
  | some t => exact orderly_returnStatement tokens depth t.line
  | none =>
    exact (Orderly.accept _).bind fun _ => .ite (ih.block.bind fun _ => .pure _) <|
      (Orderly.accept _).bind fun _ => .ite (orderly_printStatement tokens depth)
        (orderly_expressionStatement tokens depth)

theorem orderly_forStatement (ih : StatementsOrderly tokens depth) :
    Orderly tokens 0 (forStatement (depth + 1)) :=
  (Orderly.expect _ _).bind fun _ => (orderly_forStart tokens depth).bind fun _ =>
    ((orderly_expression tokens depth).unlessNext _).bind fun _ => (Orderly.expect _ _).bind fun _ =>
      ((orderly_expression tokens depth).unlessNext _).bind fun _ => (Orderly.expect _ _).bind fun _ =>
        ih.statement.bind fun _ => .pure _

theorem orderly_ifStatement (ih : StatementsOrderly tokens depth) :
    Orderly tokens 0 (ifStatement (depth + 1)) :=
  (Orderly.expect _ _).bind fun _ => (orderly_expression tokens depth).bind fun _ =>
    (Orderly.expect _ _).bind fun _ => ih.statement.bind fun _ => (ih.statement.behind _).bind fun _ => .pure _

theorem orderly_whileStatement (ih : StatementsOrderly tokens depth) :
    Orderly tokens 0 (whileStatement (depth + 1)) :=
  (Orderly.expect _ _).bind fun _ => (orderly_expression tokens depth).bind fun _ =>
    (Orderly.expect _ _).bind fun _ => ih.statement.bind fun _ => .pure _

end

theorem statementsOrderly (tokens : List Token) (depth : Nat) : StatementsOrderly tokens depth := by
  induction depth with
  | zero =>
    exact {
      declaration := .pure _
      declared := .fail _
      declarations := .pure _
      block := .fail _
      function := fun _ => .fail _
      methods := .pure _
      classDeclaration := .fail _
      statement := .fail _
      forStatement := .fail _
      ifStatement := .fail _
      whileStatement := .fail _ }
  | succ depth ih =>
    exact {
      declaration := ih.declared.recovering
      declared := orderly_declared ih
      declarations := orderly_declarations ih
      block := ih.declarations.bind fun _ => (Orderly.expect _ _).bind fun _ => .pure _
      function := orderly_function ih
      methods := orderly_methods ih
      classDeclaration := orderly_classDeclaration ih
      statement := orderly_statement ih
      forStatement := orderly_forStatement ih
      ifStatement := orderly_ifStatement ih
      whileStatement := orderly_whileStatement ih }

theorem orderly_program (tokens : List Token) (depth : Nat) : Orderly tokens 0 (program depth) := by
  induction depth with
  | zero => exact .pure _
  | succ depth ih =>
    refine Orderly.next?.bind fun t => ?_
    cases t with
    | none => exact .pure _
    | some t => exact (statementsOrderly tokens depth).declaration.bind fun _ => ih.bind fun _ => .pure _

theorem orderly_wholeExpression (tokens : List Token) (depth : Nat) : Orderly tokens 0 (wholeExpression depth) := by
  refine (orderly_expression tokens depth).bind fun _ => Orderly.next?.bind fun t => ?_
  cases t with
  | none => exact .pure _
  | some t => exact .fail _

end Parser

/-! ## Texts -/

namespace Parser

variable {body : List Token} {last : Token}

theorem tidy_start (hbody : ∀ t ∈ body, t.kind ≠ .eof) (hlast : last.kind = .eof) (n : Nat) :
    Cursor.Tidy (body ++ [last]) 0 (Cursor.start n (body ++ [last])) := by
  have hrest : (Cursor.start n (body ++ [last])).rest = body := rest_start hbody hlast
  have hfind : (body ++ [last]).find? (·.kind = .eof) = some last := by
    have hnone : body.find? (·.kind = .eof) = none :=
      List.find?_eq_none.2 fun t ht => by simpa using hbody t ht
    rw [List.find?_append, hnone]
    simp [hlast]
  refine ⟨[], ⟨last, hlast, ?_, ?_⟩, ?_, rfl, nofun, nofun, .nil⟩
  · simp [Cursor.start, hfind]
  · rw [hrest]
    rfl
  · rw [hrest]
    exact hbody

end Parser

/-- Errors stand recorded in turn, on lines that do not go back except at wrong targets. -/
structure SyntaxFault.Recorded (tokens : List Token) (faults : List SyntaxFault) : Prop where
  places : ∃ record : List (Nat × SyntaxFault), record.map Prod.snd = faults ∧
    (∀ entry ∈ record, entry.2.StandsAt tokens entry.1) ∧ record.Pairwise (SyntaxFault.InTurn tokens)
  lines : faults.Pairwise fun earlier later =>
    earlier.line ≤ later.line ∨ later.cause = .assignmentTarget

namespace SyntaxFault

variable {tokens : List Token}

theorem Recorded.of_tidy (hlines : tokens.Pairwise fun t t' => t.line ≤ t'.line) {place : Nat} {c : Cursor}
    (h : c.Tidy tokens place) : Recorded tokens c.faults := by
  obtain ⟨record, hrecord⟩ := h
  refine ⟨⟨record, hrecord.faults, hrecord.stands, hrecord.inTurn⟩, ?_⟩
  rw [← hrecord.faults, List.pairwise_map]
  refine (List.Pairwise.imp_of_mem ?_ hrecord.inTurn)
  rintro earlier later hearlier hlater (hle | ⟨hcause, -⟩)
  · obtain ⟨t, ht, hline, -⟩ := hrecord.stands earlier hearlier
    obtain ⟨t', ht', hline', -⟩ := hrecord.stands later hlater
    left
    rw [hline, hline']
    obtain ⟨hi, rfl⟩ := List.getElem?_eq_some_iff.1 ht
    obtain ⟨hj, rfl⟩ := List.getElem?_eq_some_iff.1 ht'
    obtain heq | hlt := hle.eq_or_lt
    · simp [heq]
    · exact List.pairwise_iff_getElem.1 hlines _ _ hi hj hlt
  · exact .inr hcause

theorem Recorded.of_failed (hlines : tokens.Pairwise fun t t' => t.line ≤ t'.line) {place : Nat} {c : Cursor}
    (h : c.Tidy tokens place) {fault : SyntaxFault} (hfault : fault = c.faultAt fault.cause) :
    Recorded tokens (c.faults ++ [fault]) := by
  obtain ⟨record, hrecord⟩ := h
  have hpush := hrecord.push_ahead fault.cause
  rw [← hfault] at hpush
  exact .of_tidy hlines ⟨_, hpush⟩

end SyntaxFault

/-- Tokens are on the lines of the source, from the first on. -/
theorem Item.lines_ofPieces (line : Nat) (ps : List Piece) :
    (∀ t ∈ (ofPieces line ps).filterMap token?, line ≤ t.line) ∧
      ((ofPieces line ps).filterMap token?).Pairwise fun t t' => t.line ≤ t'.line := by
  induction ps generalizing line with
  | nil => exact ⟨fun t ht => by cases List.mem_singleton.1 ht; exact le_rfl, List.pairwise_singleton _ _⟩
  | cons p ps ih =>
    obtain ⟨hbelow, hpairwise⟩ := ih (line + newlines p.text)
    have hlater : ∀ t ∈ (ofPieces (line + newlines p.text) ps).filterMap token?, line ≤ t.line := fun t ht =>
      (Nat.le_add_right _ _).trans (hbelow t ht)
    rw [ofPieces]
    cases p.content with
    | blank | comment | fault cause => exact ⟨hlater, hpairwise⟩
    | token kind =>
      exact ⟨List.forall_mem_cons.2 ⟨Nat.le_add_right _ _, hlater⟩, List.pairwise_cons.2 ⟨hbelow, hpairwise⟩⟩

theorem tokens_tokenize (source : String) : ∃ body last, (tokenize source).1 = body ++ [last] ∧
    (∀ t ∈ body, t.kind ≠ .eof) ∧ last.kind = .eof := by
  obtain ⟨items, hitems, hbody⟩ := Item.ofPieces_end 1 (pieces source.toList) ne_eof_of_mem_pieces
  have htokens : (tokenize source).1 = items.filterMap Item.token? ++
      [⟨.eof, "", 1 + Item.newlines ((pieces source.toList).flatMap Piece.text)⟩] := by
    change (Item.ofPieces 1 (pieces source.toList)).filterMap Item.token? = _
    rw [hitems, List.filterMap_append]
    rfl
  refine ⟨_, _, htokens, fun t ht => ?_, rfl⟩
  obtain ⟨item, hitem, hsome⟩ := List.mem_filterMap.1 ht
  cases item with
  | token t' =>
    cases hsome
    exact hbody t hitem
  | fault line cause => cases hsome

/-- The errors of a text stand recorded in the order of the tokens that they are located at, wrong assignment
targets apart: those stand at an equals sign, and errors behind the sign can come before them. -/
theorem recorded_parse (n : Nat) (source : String) :
    let tokens := (tokenize source).1
    SyntaxFault.Recorded tokens (parseProgram n tokens).faults ∧
      SyntaxFault.Recorded tokens (parseExpression n tokens).faults := by
  intro tokens
  have hlines : tokens.Pairwise fun t t' => t.line ≤ t'.line := (Item.lines_ofPieces 1 _).2
  obtain ⟨body, last, htokens, hbody, hlast⟩ := tokens_tokenize source
  have hstart := Parser.tidy_start hbody hlast n
  rw [← htokens] at hstart
  constructor
  · have hrun := Parser.orderly_program tokens (Cursor.start n tokens).depth 0 _ le_rfl hstart
    unfold parseProgram
    dsimp only
    split <;> rename_i hr <;> rw [hr] at hrun
    · obtain ⟨place, -, htidy⟩ := hrun
      exact .of_tidy hlines htidy
    · obtain ⟨hfault, place, -, htidy⟩ := hrun
      exact .of_failed hlines htidy hfault
  · have hrun := Parser.orderly_wholeExpression tokens (Cursor.start n tokens).depth 0 _ le_rfl hstart
    unfold parseExpression
    dsimp only
    split <;> rename_i hr <;> rw [hr] at hrun
    · obtain ⟨place, -, htidy⟩ := hrun
      exact .of_tidy hlines htidy
    · obtain ⟨hfault, place, -, htidy⟩ := hrun
      exact .of_failed hlines htidy hfault

/-- Of two wrong targets in one statement the one on the later line is recorded first. -/
theorem lines_wrongTargets : ((parseProgram 0 (tokenize "1 =\n2 =\n3;").1).faults.map SyntaxFault.line) = [2, 1] := by
  decide +kernel

end Lox
