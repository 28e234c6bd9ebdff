import Mathlib.Logic.Equiv.Basic
import Lox.Proofs.Scoping.Surroundings

/-!
# Other names for local variables

Two trees say the same if they differ in the names of local variables only. Some of the scopes are
marked, and in those a new name is declared for an old one. A reference has the name which is declared
for it in the scope that resolution has found. Around a node there is a list of marks, one for each
scope and innermost first; where it ends there is no mark.
-/
namespace Lox

/-- A new name for an old one, and how many scopes away resolution has found the references. -/
structure Exchange where
  old : String
  new : String
  old_plain : old ≠ "this" ∧ old ≠ "super"
  new_plain : new ≠ "this" ∧ new ≠ "super"
  distances : Nat → Option Nat

/-- The mark of the scope that lies so many scopes outside. -/
def isMarked (marks : List Bool) (distance : Nat) : Bool := marks.getD distance false

@[simp] theorem marked_nil (distance : Nat) : isMarked [] distance = false := rfl

@[simp] theorem marked_cons_zero (mark : Bool) (marks : List Bool) : isMarked (mark :: marks) 0 = mark := rfl

@[simp] theorem marked_cons_succ (mark : Bool) (marks : List Bool) (distance : Nat) :
    isMarked (mark :: marks) (distance + 1) = isMarked marks distance := rfl

theorem marked_drop (marks : List Bool) (distance : Nat) :
    isMarked (marks.drop distance) 0 = isMarked marks distance := by
  simp [isMarked, List.getD_eq_getElem?_getD]

/-- No scope around is marked. -/
def Unmarked (marks : List Bool) : Prop := ∀ distance, isMarked marks distance = false

theorem Unmarked.nil : Unmarked [] := fun _ => rfl

theorem Unmarked.cons {marks : List Bool} (h : Unmarked marks) : Unmarked (false :: marks) := by
  rintro (_ | distance)
  · rfl
  · exact h distance

namespace Exchange

variable (ξ : Exchange)

/-- The name that is declared for a name. A name that happens to be the new one is declared as the old one,
so that different names stay different. -/
def text (mark : Bool) (name : String) : String := if mark then Equiv.swap ξ.old ξ.new name else name

@[simp] theorem text_false (name : String) : ξ.text false name = name := rfl

@[simp] theorem text_text (mark : Bool) (name : String) : ξ.text mark (ξ.text mark name) = name := by
  cases mark with
  | false => rfl
  | true => exact Equiv.swap_apply_self ξ.old ξ.new name

theorem text_inj {mark : Bool} {name other : String} : ξ.text mark name = ξ.text mark other ↔ name = other := by
  refine ⟨fun h => ?_, congrArg _⟩
  have hback := congrArg (ξ.text mark) h
  rwa [text_text, text_text] at hback

@[simp] theorem text_old : ξ.text true ξ.old = ξ.new := Equiv.swap_apply_left ξ.old ξ.new

@[simp] theorem text_new : ξ.text true ξ.new = ξ.old := Equiv.swap_apply_right ξ.old ξ.new

theorem text_of_ne {name : String} (hold : name ≠ ξ.old) (hnew : name ≠ ξ.new) (mark : Bool) :
    ξ.text mark name = name := by
  cases mark with
  | false => rfl
  | true => exact Equiv.swap_apply_of_ne_of_ne hold hnew

@[simp] theorem text_this (mark : Bool) : ξ.text mark "this" = "this" :=
  ξ.text_of_ne ξ.old_plain.1.symm ξ.new_plain.1.symm mark

@[simp] theorem text_super (mark : Bool) : ξ.text mark "super" = "super" :=
  ξ.text_of_ne ξ.old_plain.2.symm ξ.new_plain.2.symm mark

end Exchange

/-! ## Trees -/

section

variable (ξ : Exchange)

def Ident.exchange (mark : Bool) (name : Ident) : Ident := ⟨ξ.text mark name.text, name.line⟩

def Reference.exchange (marks : List Bool) (ref : Reference) : Reference :=
  match ξ.distances ref.id with
  | some distance => ⟨ref.id, ref.name.exchange ξ (isMarked marks distance)⟩
  | none => ref

mutual

def Expr.exchange (marks : List Bool) : Expr → Expr
  | .literal value => .literal value
  | .unary op line operand => .unary op line (operand.exchange marks)
  | .binary op line left right => .binary op line (left.exchange marks) (right.exchange marks)
  | .logical op line left right => .logical op line (left.exchange marks) (right.exchange marks)
  | .grouping inner => .grouping (inner.exchange marks)
  | .variable ref => .variable (ref.exchange ξ marks)
  | .assign ref value => .assign (ref.exchange ξ marks) (value.exchange marks)
  | .call callee line arguments => .call (callee.exchange marks) line (Expr.exchangeAll marks arguments)
  | .get object name => .get (object.exchange marks) name
  | .set object name value => .set (object.exchange marks) name (value.exchange marks)
  | .this ref => .this (ref.exchange ξ marks)
  | .super ref method => .super (ref.exchange ξ marks) method

def Expr.exchangeAll (marks : List Bool) : List Expr → List Expr
  | [] => []
  | e :: rest => e.exchange marks :: Expr.exchangeAll marks rest

end

end

mutual

/-- The second statement is the first one with other names for local variables. What functions and classes are
called is shown to the user, so that they keep their names. -/
inductive Stmt.Exchanged (ξ : Exchange) : List Bool → Stmt → Stmt → Prop where
  | expression {marks e} : Stmt.Exchanged ξ marks (.expression e) (.expression (e.exchange ξ marks))
  | print {marks e} : Stmt.Exchanged ξ marks (.print e) (.print (e.exchange ξ marks))
  | var {marks name value} : Stmt.Exchanged ξ marks (.var name value)
      (.var (name.exchange ξ (isMarked marks 0)) (value.map (Expr.exchange ξ marks)))
  | block {marks body body'} (mark : Bool) (h : Stmt.ExchangedAll ξ (mark :: marks) body body') :
      Stmt.Exchanged ξ marks (.block body) (.block body')
  | branch {marks condition yes yes'} (hyes : Stmt.Exchanged ξ marks yes yes') :
      Stmt.Exchanged ξ marks (.branch condition yes none) (.branch (condition.exchange ξ marks) yes' none)
  | branchElse {marks condition yes yes' no no'} (hyes : Stmt.Exchanged ξ marks yes yes')
      (hno : Stmt.Exchanged ξ marks no no') : Stmt.Exchanged ξ marks (.branch condition yes (some no))
        (.branch (condition.exchange ξ marks) yes' (some no'))
  | loop {marks condition body body'} (h : Stmt.Exchanged ξ marks body body') :
      Stmt.Exchanged ξ marks (.loop condition body) (.loop (condition.exchange ξ marks) body')
  | function {marks decl decl'} (hname : ξ.text (isMarked marks 0) decl.name.text = decl.name.text)
      (h : FunctionDecl.Exchanged ξ marks decl decl') : Stmt.Exchanged ξ marks (.function decl) (.function decl')
  | base {marks name methods methods'} (hname : ξ.text (isMarked marks 0) name.text = name.text)
      (h : FunctionDecl.ExchangedAll ξ (false :: marks) methods methods') :
      Stmt.Exchanged ξ marks (.classDecl name none methods) (.classDecl name none methods')
  | derived {marks name parent methods methods'} (hname : ξ.text (isMarked marks 0) name.text = name.text)
      (h : FunctionDecl.ExchangedAll ξ (false :: false :: marks) methods methods') :
      Stmt.Exchanged ξ marks (.classDecl name (some parent) methods)
        (.classDecl name (some (parent.exchange ξ marks)) methods')
  | ret {marks line value} :
      Stmt.Exchanged ξ marks (.ret line value) (.ret line (value.map (Expr.exchange ξ marks)))

inductive Stmt.ExchangedAll (ξ : Exchange) : List Bool → List Stmt → List Stmt → Prop where
  | nil {marks} : Stmt.ExchangedAll ξ marks [] []
  | cons {marks s s' rest rest'} (h : Stmt.Exchanged ξ marks s s') (hrest : Stmt.ExchangedAll ξ marks rest rest') :
      Stmt.ExchangedAll ξ marks (s :: rest) (s' :: rest')

/-- Parameters and body share a scope. -/
inductive FunctionDecl.Exchanged (ξ : Exchange) : List Bool → FunctionDecl → FunctionDecl → Prop where
  | mk {marks name params body body'} (mark : Bool) (h : Stmt.ExchangedAll ξ (mark :: marks) body body') :
      FunctionDecl.Exchanged ξ marks ⟨name, params, body⟩ ⟨name, params.map (Ident.exchange ξ mark), body'⟩

inductive FunctionDecl.ExchangedAll (ξ : Exchange) : List Bool → List FunctionDecl → List FunctionDecl → Prop where
  | nil {marks} : FunctionDecl.ExchangedAll ξ marks [] []
  | cons {marks decl decl' rest rest'} (h : FunctionDecl.Exchanged ξ marks decl decl')
      (hrest : FunctionDecl.ExchangedAll ξ marks rest rest') :
      FunctionDecl.ExchangedAll ξ marks (decl :: rest) (decl' :: rest')

end

variable {ξ : Exchange} {marks : List Bool}

theorem FunctionDecl.Exchanged.name {decl decl' : FunctionDecl} (h : decl.Exchanged ξ marks decl') :
    decl'.name = decl.name := by
  cases h
  rfl

namespace Reference

@[simp] theorem exchange_id (ref : Reference) : (ref.exchange ξ marks).id = ref.id := by
  unfold exchange
  split <;> rfl

@[simp] theorem exchange_line (ref : Reference) : (ref.exchange ξ marks).name.line = ref.name.line := by
  unfold exchange
  split <;> rfl

theorem exchange_of_some {ref : Reference} {distance : Nat} (h : ξ.distances ref.id = some distance) :
    ref.exchange ξ marks = ⟨ref.id, ref.name.exchange ξ (isMarked marks distance)⟩ := by
  unfold exchange
  rw [h]

theorem exchange_of_none {ref : Reference} (h : ξ.distances ref.id = none) : ref.exchange ξ marks = ref := by
  unfold exchange
  rw [h]

end Reference

/-! ## Where nothing is marked -/

@[simp] theorem Ident.exchange_false (name : Ident) : name.exchange ξ false = name := rfl

@[simp] theorem Ident.map_exchange_false (names : List Ident) : names.map (Ident.exchange ξ false) = names :=
  List.map_id' names

theorem Reference.exchange_unmarked (h : Unmarked marks) (ref : Reference) : ref.exchange ξ marks = ref := by
  unfold exchange
  split
  · next distance _ => rw [h distance, Ident.exchange_false]
  · rfl

mutual

theorem Expr.exchange_unmarked (h : Unmarked marks) (e : Expr) : e.exchange ξ marks = e := by
  cases e with
  | literal => rfl
  | «variable» ref | this ref | super ref method => rw [exchange, Reference.exchange_unmarked h]
  | assign ref value => rw [exchange, Reference.exchange_unmarked h, Expr.exchange_unmarked h value]
  | call callee line arguments =>
    rw [exchange, Expr.exchange_unmarked h callee, Expr.exchangeAll_unmarked h arguments]
  | unary op line e => rw [exchange, Expr.exchange_unmarked h e]
  | grouping e => rw [exchange, Expr.exchange_unmarked h e]
  | get e name => rw [exchange, Expr.exchange_unmarked h e]
  | binary op line left right | logical op line left right =>
    rw [exchange, Expr.exchange_unmarked h left, Expr.exchange_unmarked h right]
  | set object name value => rw [exchange, Expr.exchange_unmarked h object, Expr.exchange_unmarked h value]

theorem Expr.exchangeAll_unmarked (h : Unmarked marks) (es : List Expr) : Expr.exchangeAll ξ marks es = es := by
  cases es with
  | nil => rfl
  | cons e rest => rw [exchangeAll, Expr.exchange_unmarked h e, Expr.exchangeAll_unmarked h rest]

end

theorem Expr.map_exchange_unmarked (h : Unmarked marks) (e : Option Expr) : e.map (Expr.exchange ξ marks) = e := by
  cases e with
  | none => rfl
  | some e => rw [Option.map_some, Expr.exchange_unmarked h]

mutual

theorem Stmt.Exchanged.refl {marks : List Bool} (h : Unmarked marks) (s : Stmt) : s.Exchanged ξ marks s := by
  cases s with
  | expression e =>
    have hsame : Stmt.Exchanged ξ marks (.expression e) _ := .expression
    rwa [Expr.exchange_unmarked h] at hsame
  | print e =>
    have hsame : Stmt.Exchanged ξ marks (.print e) _ := .print
    rwa [Expr.exchange_unmarked h] at hsame
  | var name value =>
    have hsame : Stmt.Exchanged ξ marks (.var name value) _ := .var
    rwa [h 0, Expr.map_exchange_unmarked h] at hsame
  | block body => exact .block false (Stmt.ExchangedAll.refl h.cons body)
  | branch condition yes no =>
    cases no with
    | none =>
      have hsame : Stmt.Exchanged ξ marks (.branch condition yes none) _ := .branch (Stmt.Exchanged.refl h yes)
      rwa [Expr.exchange_unmarked h] at hsame
    | some no =>
      have hsame : Stmt.Exchanged ξ marks (.branch condition yes (some no)) _ :=
        .branchElse (Stmt.Exchanged.refl h yes) (Stmt.Exchanged.refl h no)
      rwa [Expr.exchange_unmarked h] at hsame
  | loop condition body =>
    have hsame : Stmt.Exchanged ξ marks (.loop condition body) _ := .loop (Stmt.Exchanged.refl h body)
    rwa [Expr.exchange_unmarked h] at hsame
  | function decl => exact .function (by rw [h 0, Exchange.text_false]) (FunctionDecl.Exchanged.refl h decl)
  | classDecl name parent methods =>
    have hname : ξ.text (isMarked marks 0) name.text = name.text := by rw [h 0, Exchange.text_false]
    cases parent with
    | none => exact .base hname (FunctionDecl.ExchangedAll.refl h.cons methods)
    | some parent =>
      have hsame : Stmt.Exchanged ξ marks (.classDecl name (some parent) methods) _ := .derived hname
        (FunctionDecl.ExchangedAll.refl h.cons.cons methods)
      rwa [Reference.exchange_unmarked h] at hsame
  | ret line value =>
    have hsame : Stmt.Exchanged ξ marks (.ret line value) _ := .ret
    rwa [Expr.map_exchange_unmarked h] at hsame

theorem Stmt.ExchangedAll.refl {marks : List Bool} (h : Unmarked marks) (body : List Stmt) :
    Stmt.ExchangedAll ξ marks body body := by
  cases body with
  | nil => exact .nil
  | cons s rest => exact .cons (Stmt.Exchanged.refl h s) (Stmt.ExchangedAll.refl h rest)

theorem FunctionDecl.Exchanged.refl {marks : List Bool} (h : Unmarked marks) (decl : FunctionDecl) :
    decl.Exchanged ξ marks decl := by
  obtain ⟨name, params, body⟩ := decl
  have hsame : FunctionDecl.Exchanged ξ marks ⟨name, params, body⟩ _ := .mk false
    (Stmt.ExchangedAll.refl h.cons body)
  rwa [Ident.map_exchange_false] at hsame

theorem FunctionDecl.ExchangedAll.refl {marks : List Bool} (h : Unmarked marks) (methods : List FunctionDecl) :
    FunctionDecl.ExchangedAll ξ marks methods methods := by
  cases methods with
  | nil => exact .nil
  | cons decl rest => exact .cons (FunctionDecl.Exchanged.refl h decl) (FunctionDecl.ExchangedAll.refl h rest)

end

theorem Stmt.ExchangedAll.append {body body' rest rest' : List Stmt} (h : Stmt.ExchangedAll ξ marks body body')
    (hrest : Stmt.ExchangedAll ξ marks rest rest') : Stmt.ExchangedAll ξ marks (body ++ rest) (body' ++ rest') := by
  induction body generalizing body' with
  | nil =>
    cases h
    exact hrest
  | cons s body ih =>
    cases h with
    | cons hs h => exact .cons hs (ih h)

end Lox
