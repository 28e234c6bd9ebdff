import Lox.Proofs.Locals.Trees
import Lox.Proofs.Resolution.Verdict

/-!
# Renaming a local variable

One declaration of a variable or a parameter in a block or a function gets another name, and with it the
references that resolution has found to mean it. These are the references of the old name that stand as many
scopes inside of the scope of the declaration as resolution has counted for them.
-/
namespace Lox

section

variable (distances : List (Nat × Nat)) (x y : String)

/-- Names a reference `y` if it means the `x` that is declared `depth` scopes outside. -/
def Reference.renameAt (depth : Nat) (ref : Reference) : Reference :=
  if ref.name.text = x ∧ (ref.id, depth) ∈ distances then ⟨ref.id, ⟨y, ref.name.line⟩⟩ else ref

mutual

/-- Only variables and assignments are renamed: `this` and `super` do not name what programs declare. -/
def Expr.renameAt (depth : Nat) : Expr → Expr
  | .literal value => .literal value
  | .unary op line operand => .unary op line (operand.renameAt depth)
  | .binary op line left right => .binary op line (left.renameAt depth) (right.renameAt depth)
  | .logical op line left right => .logical op line (left.renameAt depth) (right.renameAt depth)
  | .grouping inner => .grouping (inner.renameAt depth)
  | .variable ref => .variable (ref.renameAt distances x y depth)
  | .assign ref value => .assign (ref.renameAt distances x y depth) (value.renameAt depth)
  | .call callee line arguments => .call (callee.renameAt depth) line (Expr.renameAllAt depth arguments)
  | .get object name => .get (object.renameAt depth) name
  | .set object name value => .set (object.renameAt depth) name (value.renameAt depth)
  | .this ref => .this ref
  | .super ref method => .super ref method

def Expr.renameAllAt (depth : Nat) : List Expr → List Expr
  | [] => []
  | e :: rest => e.renameAt depth :: Expr.renameAllAt depth rest

end

mutual

/-- Renames references in a statement. What it declares itself keeps its names. -/
def Stmt.renameAt (depth : Nat) : Stmt → Stmt
  | .expression e => .expression (e.renameAt distances x y depth)
  | .print e => .print (e.renameAt distances x y depth)
  | .var name value => .var name (value.map (Expr.renameAt distances x y depth))
  | .block body => .block (Stmt.renameAllAt (depth + 1) body)
  | .branch condition yes none => .branch (condition.renameAt distances x y depth) (yes.renameAt depth) none
  | .branch condition yes (some no) =>
    .branch (condition.renameAt distances x y depth) (yes.renameAt depth) (some (no.renameAt depth))
  | .loop condition body => .loop (condition.renameAt distances x y depth) (body.renameAt depth)
  | .function decl => .function (decl.renameAt depth)
  | .classDecl name none methods => .classDecl name none (FunctionDecl.renameAllAt (depth + 1) methods)
  | .classDecl name (some parent) methods =>
    .classDecl name (some (parent.renameAt distances x y depth)) (FunctionDecl.renameAllAt (depth + 2) methods)
  | .ret line value => .ret line (value.map (Expr.renameAt distances x y depth))

def Stmt.renameAllAt (depth : Nat) : List Stmt → List Stmt
  | [] => []
  | s :: rest => s.renameAt depth :: Stmt.renameAllAt depth rest

def FunctionDecl.renameAt (depth : Nat) : FunctionDecl → FunctionDecl
  | ⟨name, params, body⟩ => ⟨name, params, Stmt.renameAllAt (depth + 1) body⟩

def FunctionDecl.renameAllAt (depth : Nat) : List FunctionDecl → List FunctionDecl
  | [] => []
  | decl :: rest => decl.renameAt depth :: FunctionDecl.renameAllAt depth rest

end

/-- A variable that is declared in a scope is renamed there. -/
inductive Stmt.RenamesVar : List Stmt → List Stmt → Prop where
  | mk (before : List Stmt) (line : Nat) (value : Option Expr) (after : List Stmt) :
    Stmt.RenamesVar (before ++ .var ⟨x, line⟩ value :: after)
      (Stmt.renameAllAt distances x y 0 before ++
        .var ⟨y, line⟩ (value.map (Expr.renameAt distances x y 0)) ::
          Stmt.renameAllAt distances x y 0 after)

mutual

/-- One local variable or parameter is renamed somewhere in a statement. -/
inductive Stmt.Renames : Stmt → Stmt → Prop where
  | var {body body'} (h : Stmt.RenamesVar distances x y body body') : Stmt.Renames (.block body) (.block body')
  | block {body body'} (h : Stmt.RenamesAll body body') : Stmt.Renames (.block body) (.block body')
  | yes {condition yes yes' no} (h : Stmt.Renames yes yes') :
    Stmt.Renames (.branch condition yes no) (.branch condition yes' no)
  | no {condition yes no no'} (h : Stmt.Renames no no') :
    Stmt.Renames (.branch condition yes (some no)) (.branch condition yes (some no'))
  | loop {condition body body'} (h : Stmt.Renames body body') :
    Stmt.Renames (.loop condition body) (.loop condition body')
  | function {decl decl'} (h : FunctionDecl.Renames decl decl') : Stmt.Renames (.function decl) (.function decl')
  | method {name superclass before decl decl' after} (h : FunctionDecl.Renames decl decl') :
    Stmt.Renames (.classDecl name superclass (before ++ decl :: after))
      (.classDecl name superclass (before ++ decl' :: after))

/-- One local variable or parameter is renamed in one of some statements. -/
inductive Stmt.RenamesAll : List Stmt → List Stmt → Prop where
  | mk {before s s' after} (h : Stmt.Renames s s') : Stmt.RenamesAll (before ++ s :: after) (before ++ s' :: after)

inductive FunctionDecl.Renames : FunctionDecl → FunctionDecl → Prop where
  | param {name before line after body} :
    FunctionDecl.Renames ⟨name, before ++ ⟨x, line⟩ :: after, body⟩
      ⟨name, before ++ ⟨y, line⟩ :: after, Stmt.renameAllAt distances x y 0 body⟩
  | var {name params body body'} (h : Stmt.RenamesVar distances x y body body') :
    FunctionDecl.Renames ⟨name, params, body⟩ ⟨name, params, body'⟩
  | inside {name params body body'} (h : Stmt.RenamesAll body body') :
    FunctionDecl.Renames ⟨name, params, body⟩ ⟨name, params, body'⟩

end

end

mutual

/-- All that a statement declares, in whatever scope. -/
def Stmt.binders : Stmt → List Ident
  | .expression _ | .print _ | .ret .. => []
  | .var name _ => [name]
  | .block body => Stmt.bindersAll body
  | .branch _ yes none => yes.binders
  | .branch _ yes (some no) => yes.binders ++ no.binders
  | .loop _ body => body.binders
  | .function decl => decl.binders
  | .classDecl name _ methods => name :: FunctionDecl.bindersAll methods

def Stmt.bindersAll : List Stmt → List Ident
  | [] => []
  | s :: rest => s.binders ++ Stmt.bindersAll rest

def FunctionDecl.binders : FunctionDecl → List Ident
  | ⟨name, params, body⟩ => name :: (params ++ Stmt.bindersAll body)

def FunctionDecl.bindersAll : List FunctionDecl → List Ident
  | [] => []
  | decl :: rest => decl.binders ++ FunctionDecl.bindersAll rest

end

theorem FunctionDecl.name_mem_binders : (decl : FunctionDecl) → decl.name ∈ decl.binders
  | ⟨_, _, _⟩ => List.mem_cons_self

/-- Nothing in a program has the name: no declaration, and no reference. -/
def Unused (name : String) (program : List Stmt) : Prop :=
  (∀ binder ∈ Stmt.bindersAll program, binder.text ≠ name) ∧
    ∀ ref ∈ Stmt.referencesAll program, ref.name.text ≠ name

/-! ## Marks for one scope -/

/-- Of the scopes around only the one that lies so many scopes outside is marked. -/
def MarkedAt (depth : Nat) (marks : List Bool) : Prop := ∀ distance, isMarked marks distance = (distance == depth)

theorem MarkedAt.zero {marks : List Bool} (h : Unmarked marks) : MarkedAt 0 (true :: marks) := by
  rintro (_ | distance)
  · rfl
  · exact h distance

theorem MarkedAt.cons {depth : Nat} {marks : List Bool} (h : MarkedAt depth marks) :
    MarkedAt (depth + 1) (false :: marks) := by
  rintro (_ | distance)
  · rfl
  · rw [marked_cons_succ, h distance]
    simp

/-- The new name is not that of the reference, and the distance is the one that resolution has found. -/
structure Exchange.Finds (ξ : Exchange) (distances : List (Nat × Nat)) (ref : Reference) : Prop where
  fresh : ref.name.text ≠ ξ.new
  distance : ∀ d, (ref.id, d) ∈ distances ↔ ξ.distances ref.id = some d

variable {distances : List (Nat × Nat)} {ξ : Exchange} {depth : Nat} {marks : List Bool}
  {around : List Surrounding}

theorem Reference.renameAt_eq (hmarks : MarkedAt depth marks) {ref : Reference} (h : ξ.Finds distances ref) :
    ref.renameAt distances ξ.old ξ.new depth = ref.exchange ξ marks := by
  unfold renameAt exchange Ident.exchange
  simp only [h.distance]
  cases hd : ξ.distances ref.id with
  | none => simp
  | some distance =>
    dsimp only
    rw [hmarks distance]
    by_cases hdepth : distance = depth
    · by_cases hold : ref.name.text = ξ.old
      · simp [hold, hdepth]
      · simp [hold, hdepth, ξ.text_of_ne hold h.fresh]
    · simp [hdepth, beq_false_of_ne hdepth]

/-- What no program declares keeps its name. -/
theorem Reference.exchange_of_fixed {ref : Reference} (h : ∀ mark, ξ.text mark ref.name.text = ref.name.text) :
    ref.exchange ξ marks = ref := by
  unfold exchange Ident.exchange
  split
  · rw [h]
  · rfl

mutual

theorem Expr.renameAt_eq (hmarks : MarkedAt depth marks) {e : Expr} (h : e.Fits (ξ.Finds distances)) :
    e.renameAt distances ξ.old ξ.new depth = e.exchange ξ marks := by
  cases e with
  | literal value => rfl
  | unary op line e => rw [renameAt, exchange, Expr.renameAt_eq hmarks (e := e) h]
  | grouping e => rw [renameAt, exchange, Expr.renameAt_eq hmarks (e := e) h]
  | get e name => rw [renameAt, exchange, Expr.renameAt_eq hmarks (e := e) h]
  | binary op line left right | logical op line left right =>
    rw [renameAt, exchange, Expr.renameAt_eq hmarks h.1, Expr.renameAt_eq hmarks h.2]
  | set object name value => rw [renameAt, exchange, Expr.renameAt_eq hmarks h.2, Expr.renameAt_eq hmarks h.1]
  | call callee line arguments =>
    rw [renameAt, exchange, Expr.renameAt_eq hmarks h.1, Expr.renameAllAt_eq hmarks h.2]
  | «variable» ref => rw [renameAt, exchange, Reference.renameAt_eq hmarks h.2]
  | assign ref value =>
    rw [renameAt, exchange, Reference.renameAt_eq hmarks h.2.2, Expr.renameAt_eq hmarks h.1]
  | this ref =>
    rw [renameAt, exchange, Reference.exchange_of_fixed]
    simp [h.1]
  | super ref method =>
    rw [renameAt, exchange, Reference.exchange_of_fixed]
    simp [h.1]

theorem Expr.renameAllAt_eq (hmarks : MarkedAt depth marks) {es : List Expr}
    (h : Expr.FitsAll (ξ.Finds distances) es) :
    Expr.renameAllAt distances ξ.old ξ.new depth es = Expr.exchangeAll ξ marks es := by
  cases es with
  | nil => rfl
  | cons e rest => rw [renameAllAt, exchangeAll, Expr.renameAt_eq hmarks h.1, Expr.renameAllAt_eq hmarks h.2]

end

theorem Expr.map_renameAt_eq (hmarks : MarkedAt depth marks) {e : Option Expr}
    (h : Expr.FitsOption (ξ.Finds distances) e) :
    e.map (Expr.renameAt distances ξ.old ξ.new depth) = e.map (Expr.exchange ξ marks) := by
  cases e with
  | none => rfl
  | some e => rw [Option.map_some, Option.map_some, Expr.renameAt_eq hmarks (h e rfl)]

/-- What else is declared in the marked scope has another name than the two. -/
theorem MarkedAt.text_eq (hmarks : MarkedAt depth marks) {name : String} (hnew : name ≠ ξ.new)
    (hold : depth = 0 → name ≠ ξ.old) : ξ.text (isMarked marks 0) name = name := by
  rw [hmarks 0]
  by_cases hdepth : depth = 0
  · exact ξ.text_of_ne (hold hdepth) hnew _
  · rw [beq_false_of_ne (Ne.symm hdepth), Exchange.text_false]

mutual

theorem Stmt.renameAt_exchanged {around : List Surrounding} {depth : Nat} {marks : List Bool} {s : Stmt}
    (hmarks : MarkedAt depth marks) (h : s.Fits (fun _ => ξ.Finds distances) around)
    (hnew : ∀ binder ∈ s.binders, binder.text ≠ ξ.new) (hold : depth = 0 → ξ.old ∉ s.declared) :
    s.Exchanged ξ marks (s.renameAt distances ξ.old ξ.new depth) := by
  cases s with
  | expression e =>
    rw [Stmt.renameAt, Expr.renameAt_eq hmarks h]
    exact .expression
  | print e =>
    rw [Stmt.renameAt, Expr.renameAt_eq hmarks h]
    exact .print
  | ret line value =>
    rw [Stmt.renameAt, Expr.map_renameAt_eq hmarks h]
    exact .ret
  | var name value =>
    have hname : name.exchange ξ (isMarked marks 0) = name :=
      congrArg (Ident.mk · _) (hmarks.text_eq (hnew name List.mem_cons_self) fun hdepth heq =>
        hold hdepth (List.mem_singleton.2 heq.symm))
    have hsame : Stmt.Exchanged ξ marks (.var name value) _ := .var
    rw [hname] at hsame
    rw [Stmt.renameAt, Expr.map_renameAt_eq hmarks h.2]
    exact hsame
  | block body => exact .block false (Stmt.renameAllAt_exchanged hmarks.cons h hnew nofun)
  | branch condition yes no =>
    cases no with
    | none =>
      rw [Stmt.renameAt, Expr.renameAt_eq hmarks h.1]
      exact .branch (Stmt.renameAt_exchanged hmarks h.2.1 hnew hold)
    | some no =>
      obtain ⟨hcondition, ⟨hyes, -⟩, hno, -⟩ := h
      obtain ⟨hnewYes, hnewNo⟩ := List.forall_mem_append.1 hnew
      rw [Stmt.renameAt, Expr.renameAt_eq hmarks hcondition]
      refine .branchElse (Stmt.renameAt_exchanged hmarks hyes hnewYes fun hdepth hx => ?_)
        (Stmt.renameAt_exchanged hmarks hno hnewNo fun hdepth hx => ?_)
      · exact hold hdepth (List.mem_append_left _ hx)
      · exact hold hdepth (List.mem_append_right _ hx)
  | loop condition body =>
    rw [Stmt.renameAt, Expr.renameAt_eq hmarks h.1]
    exact .loop (Stmt.renameAt_exchanged hmarks h.2.1 hnew hold)
  | function decl =>
    obtain ⟨name, params, body⟩ := decl
    refine .function ?_ (FunctionDecl.renameAt_exchanged hmarks h.2 hnew)
    exact hmarks.text_eq (hnew name List.mem_cons_self) fun hdepth heq =>
      hold hdepth (List.mem_singleton.2 heq.symm)
  | classDecl name superclass methods =>
    obtain ⟨hnewName, hnewMethods⟩ := List.forall_mem_cons.1 hnew
    have hname : ξ.text (isMarked marks 0) name.text = name.text :=
      hmarks.text_eq hnewName fun hdepth heq => hold hdepth (List.mem_singleton.2 heq.symm)
    cases superclass with
    | none => exact .base hname (FunctionDecl.renameAllAt_exchanged hmarks.cons h.2 hnewMethods)
    | some parent =>
      rw [Stmt.renameAt, Reference.renameAt_eq hmarks h.2.1.2]
      exact .derived hname (FunctionDecl.renameAllAt_exchanged hmarks.cons.cons h.2.2 hnewMethods)

theorem Stmt.renameAllAt_exchanged {around : List Surrounding} {depth : Nat} {marks : List Bool}
    {body : List Stmt} (hmarks : MarkedAt depth marks)
    (h : Stmt.FitsAll (fun _ => ξ.Finds distances) around body)
    (hnew : ∀ binder ∈ Stmt.bindersAll body, binder.text ≠ ξ.new)
    (hold : depth = 0 → ξ.old ∉ body.flatMap Stmt.declared) :
    Stmt.ExchangedAll ξ marks body (Stmt.renameAllAt distances ξ.old ξ.new depth body) := by
  cases body with
  | nil => exact .nil
  | cons s rest =>
    obtain ⟨hnewFirst, hnewRest⟩ := List.forall_mem_append.1 hnew
    refine .cons (Stmt.renameAt_exchanged hmarks h.1 hnewFirst fun hdepth hx => ?_)
      (Stmt.renameAllAt_exchanged hmarks h.2 hnewRest fun hdepth hx => ?_)
    · exact hold hdepth (List.mem_append_left _ hx)
    · exact hold hdepth (List.mem_append_right _ hx)

theorem FunctionDecl.renameAt_exchanged {around : List Surrounding} {depth : Nat} {marks : List Bool}
    {decl : FunctionDecl} (hmarks : MarkedAt depth marks)
    (h : decl.Fits (fun _ => ξ.Finds distances) around) (hnew : ∀ binder ∈ decl.binders, binder.text ≠ ξ.new) :
    decl.Exchanged ξ marks (decl.renameAt distances ξ.old ξ.new depth) := by
  obtain ⟨name, params, body⟩ := decl
  have hnewBody := (List.forall_mem_append.1 (List.forall_mem_cons.1 hnew).2).2
  have hsame : FunctionDecl.Exchanged ξ marks ⟨name, params, body⟩ _ := .mk false
    (Stmt.renameAllAt_exchanged hmarks.cons h.2 hnewBody nofun)
  rwa [Ident.map_exchange_false] at hsame

theorem FunctionDecl.renameAllAt_exchanged {around : List Surrounding} {depth : Nat} {marks : List Bool}
    {methods : List FunctionDecl} (hmarks : MarkedAt depth marks)
    (h : FunctionDecl.FitsAll (fun _ => ξ.Finds distances) around methods)
    (hnew : ∀ binder ∈ FunctionDecl.bindersAll methods, binder.text ≠ ξ.new) :
    FunctionDecl.ExchangedAll ξ marks methods
      (FunctionDecl.renameAllAt distances ξ.old ξ.new depth methods) := by
  cases methods with
  | nil => exact .nil
  | cons decl rest =>
    obtain ⟨hnewFirst, hnewRest⟩ := List.forall_mem_append.1 hnew
    exact .cons (FunctionDecl.renameAt_exchanged hmarks h.1 hnewFirst)
      (FunctionDecl.renameAllAt_exchanged hmarks h.2 hnewRest)

end

/-! ## The way to the declaration -/

section

variable {P : List Surrounding → Reference → Prop}

theorem Stmt.fitsAll_append {body rest : List Stmt} {around : List Surrounding} :
    Stmt.FitsAll P around (body ++ rest) ↔ Stmt.FitsAll P around body ∧
      Stmt.FitsAll P (Surrounding.declare (body.flatMap Stmt.declared) around) rest := by
  induction body generalizing around with
  | nil =>
    rw [List.flatMap_nil, Surrounding.declare_nil]
    exact (and_iff_right trivial).symm
  | cons s body ih =>
    rw [List.flatMap_cons, Surrounding.declare_append, List.cons_append, FitsAll, FitsAll, ih, and_assoc]

theorem FunctionDecl.fitsAll_append {methods rest : List FunctionDecl} {around : List Surrounding} :
    FunctionDecl.FitsAll P around (methods ++ rest) ↔
      FunctionDecl.FitsAll P around methods ∧ FunctionDecl.FitsAll P around rest := by
  induction methods with
  | nil => exact (and_iff_right trivial).symm
  | cons method methods ih => rw [List.cons_append, FitsAll, FitsAll, ih, and_assoc]

/-! ### The old name -/

variable {x y : String}

theorem Stmt.RenamesVar.plain {body body' : List Stmt} {around : List Surrounding}
    (h : Stmt.RenamesVar distances x y body body') (hfits : Stmt.FitsAll P around body) :
    x ≠ "this" ∧ x ≠ "super" := by
  obtain ⟨before, line, value, after⟩ := h
  exact (Stmt.fitsAll_append.1 hfits).2.1.1

mutual

theorem Stmt.Renames.plain {around : List Surrounding} {s s' : Stmt} (h : Stmt.Renames distances x y s s')
    (hfits : s.Fits P around) : x ≠ "this" ∧ x ≠ "super" := by
  cases h with
  | var h => exact h.plain hfits
  | block h => exact Stmt.RenamesAll.plain h hfits
  | @yes _ _ _ no h =>
    cases no with
    | none => exact Stmt.Renames.plain h hfits.2.1
    | some no => exact Stmt.Renames.plain h hfits.2.1.1
  | no h => exact Stmt.Renames.plain h hfits.2.2.1
  | loop h => exact Stmt.Renames.plain h hfits.2.1
  | function h => exact FunctionDecl.Renames.plain h hfits.2
  | @method _ superclass before decl _ after h =>
    have hmem : decl ∈ before ++ decl :: after := List.mem_append_right _ List.mem_cons_self
    have hlt := List.sizeOf_lt_of_mem hmem
    cases superclass with
    | none => exact FunctionDecl.Renames.plain h (FunctionDecl.fitsAll_append.1 hfits.2).2.1
    | some parent => exact FunctionDecl.Renames.plain h (FunctionDecl.fitsAll_append.1 hfits.2.2).2.1
termination_by sizeOf s

theorem Stmt.RenamesAll.plain {around : List Surrounding} {body body' : List Stmt}
    (h : Stmt.RenamesAll distances x y body body') (hfits : Stmt.FitsAll P around body) :
    x ≠ "this" ∧ x ≠ "super" := by
  cases h with
  | @mk before s _ after h =>
    have hmem : s ∈ before ++ s :: after := List.mem_append_right _ List.mem_cons_self
    have hlt := List.sizeOf_lt_of_mem hmem
    exact Stmt.Renames.plain h (Stmt.fitsAll_append.1 hfits).2.1
termination_by sizeOf body

theorem FunctionDecl.Renames.plain {around : List Surrounding} {decl decl' : FunctionDecl}
    (h : FunctionDecl.Renames distances x y decl decl') (hfits : decl.Fits P around) :
    x ≠ "this" ∧ x ≠ "super" := by
  cases h with
  | @param _ before line after _ => exact hfits.1 ⟨x, line⟩ (List.mem_append_right _ List.mem_cons_self)
  | var h => exact h.plain hfits.2
  | inside h => exact Stmt.RenamesAll.plain h hfits.2
termination_by sizeOf decl

end

end

theorem Stmt.bindersAll_append (body rest : List Stmt) :
    Stmt.bindersAll (body ++ rest) = Stmt.bindersAll body ++ Stmt.bindersAll rest := by
  induction body with
  | nil => rfl
  | cons s body ih => rw [List.cons_append, bindersAll, bindersAll, ih, List.append_assoc]

theorem FunctionDecl.bindersAll_append (methods rest : List FunctionDecl) :
    FunctionDecl.bindersAll (methods ++ rest) =
      FunctionDecl.bindersAll methods ++ FunctionDecl.bindersAll rest := by
  induction methods with
  | nil => rfl
  | cons decl methods ih => rw [List.cons_append, bindersAll, bindersAll, ih, List.append_assoc]

theorem FunctionDecl.ExchangedAll.append {methods methods' rest rest' : List FunctionDecl}
    (h : FunctionDecl.ExchangedAll ξ marks methods methods') (hrest : FunctionDecl.ExchangedAll ξ marks rest rest') :
    FunctionDecl.ExchangedAll ξ marks (methods ++ rest) (methods' ++ rest') := by
  induction methods generalizing methods' with
  | nil =>
    cases h
    exact hrest
  | cons decl methods ih =>
    cases h with
    | cons hd h => exact .cons hd (ih h)

/-- No other declaration of the scope has the old name, since resolution lets none be declared twice. -/
theorem Stmt.RenamesVar.exchanged {body body' : List Stmt}
    (h : Stmt.RenamesVar distances ξ.old ξ.new body body') (hmarks : MarkedAt 0 marks)
    (hfits : Stmt.FitsAll (fun _ => ξ.Finds distances) around body)
    (hnew : ∀ binder ∈ Stmt.bindersAll body, binder.text ≠ ξ.new)
    (hnodup : (body.flatMap Stmt.declared).Nodup) : Stmt.ExchangedAll ξ marks body body' := by
  obtain ⟨before, line, value, after⟩ := h
  rw [List.flatMap_append, List.flatMap_cons] at hnodup
  obtain ⟨-, hrest, hapart⟩ := List.nodup_append'.1 hnodup
  have holdBefore : ξ.old ∉ before.flatMap Stmt.declared := fun hx => hapart hx List.mem_cons_self
  have holdAfter : ξ.old ∉ after.flatMap Stmt.declared := (List.nodup_cons.1 hrest).1
  obtain ⟨hbefore, hvar, hafter⟩ := Stmt.fitsAll_append.1 hfits
  rw [Stmt.bindersAll_append] at hnew
  obtain ⟨hnewBefore, hnewRest⟩ := List.forall_mem_append.1 hnew
  have hmark : isMarked marks 0 = true := hmarks 0
  have hdeclared : Stmt.Exchanged ξ marks (.var ⟨ξ.old, line⟩ value) _ := .var
  rw [Ident.exchange, hmark, ξ.text_old, ← Expr.map_renameAt_eq hmarks hvar.2] at hdeclared
  exact (Stmt.renameAllAt_exchanged hmarks hbefore hnewBefore fun _ => holdBefore).append
    (.cons hdeclared (Stmt.renameAllAt_exchanged hmarks hafter (List.forall_mem_cons.1 hnewRest).2 fun _ =>
      holdAfter))

theorem Ident.map_exchange_of_ne {names : List Ident} (hold : ξ.old ∉ names.map Ident.text)
    (hnew : ∀ name ∈ names, name.text ≠ ξ.new) (mark : Bool) : names.map (Ident.exchange ξ mark) = names := by
  refine (List.map_congr_left fun name hn => ?_).trans (List.map_id names)
  exact congrArg (Ident.mk · _) (ξ.text_of_ne (fun heq => hold (heq ▸ List.mem_map_of_mem hn)) (hnew name hn) mark)

/-- Neither has another parameter, nor a declaration in the body. -/
theorem FunctionDecl.exchanged_param {name : Ident} {before after : List Ident} {line : Nat} {body : List Stmt}
    (hmarks : Unmarked marks)
    (hfits : FunctionDecl.Fits (fun _ => ξ.Finds distances) around ⟨name, before ++ ⟨ξ.old, line⟩ :: after, body⟩)
    (hnew : ∀ binder ∈ FunctionDecl.binders ⟨name, before ++ ⟨ξ.old, line⟩ :: after, body⟩, binder.text ≠ ξ.new)
    (hnodup : (FunctionDecl.locals ⟨name, before ++ ⟨ξ.old, line⟩ :: after, body⟩).Nodup) :
    FunctionDecl.Exchanged ξ marks ⟨name, before ++ ⟨ξ.old, line⟩ :: after, body⟩
      ⟨name, before ++ ⟨ξ.new, line⟩ :: after, Stmt.renameAllAt distances ξ.old ξ.new 0 body⟩ := by
  obtain ⟨hnewParams, hnewBody⟩ := List.forall_mem_append.1 (List.forall_mem_cons.1 hnew).2
  obtain ⟨hnewBefore, hnewRest⟩ := List.forall_mem_append.1 hnewParams
  obtain ⟨hparams, -, hapart⟩ := List.nodup_append'.1 hnodup
  rw [List.map_append, List.map_cons] at hparams hapart
  obtain ⟨-, hrest, hothers⟩ := List.nodup_append'.1 hparams
  have hbody : ξ.old ∉ body.flatMap Stmt.declared := hapart (List.mem_append_right _ List.mem_cons_self)
  have hsame : FunctionDecl.Exchanged ξ marks ⟨name, before ++ ⟨ξ.old, line⟩ :: after, body⟩ _ := .mk true
    (Stmt.renameAllAt_exchanged (.zero hmarks) hfits.2 hnewBody fun _ => hbody)
  rwa [List.map_append, List.map_cons, Ident.exchange, ξ.text_old,
    Ident.map_exchange_of_ne (fun hx => hothers hx List.mem_cons_self) hnewBefore,
    Ident.map_exchange_of_ne (List.nodup_cons.1 hrest).1 (List.forall_mem_cons.1 hnewRest).2] at hsame

mutual

/-- On the way to the declaration nothing is changed beside it. -/
theorem Stmt.Renames.exchanged {globals : List String} {layers : List Layer} {around : List Surrounding}
    {marks : List Bool} {s s' : Stmt} (h : Stmt.Renames distances ξ.old ξ.new s s') (hmarks : Unmarked marks)
    (hfits : s.Fits (fun _ => ξ.Finds distances) around) (hnew : ∀ binder ∈ s.binders, binder.text ≠ ξ.new)
    (hsound : Place.Sound globals ⟨layers, s⟩) : s.Exchanged ξ marks s' := by
  cases h with
  | var h => exact .block true (h.exchanged (.zero hmarks) hfits hnew (Place.sound_block.1 hsound).1)
  | block h => exact .block false (Stmt.RenamesAll.exchanged h hmarks.cons hfits hnew (Place.sound_block.1 hsound).2)
  | @yes condition yes yes' no h =>
    have hyes := (Place.sound_branch.1 hsound).2.1
    cases no with
    | none =>
      have hsame : Stmt.Exchanged ξ marks (.branch condition yes none) _ := .branch
        (Stmt.Renames.exchanged h hmarks hfits.2.1 hnew hyes)
      rwa [Expr.exchange_unmarked hmarks] at hsame
    | some no =>
      have hsame : Stmt.Exchanged ξ marks (.branch condition yes (some no)) _ := .branchElse
        (Stmt.Renames.exchanged h hmarks hfits.2.1.1 (List.forall_mem_append.1 hnew).1 hyes)
        (Stmt.Exchanged.refl hmarks no)
      rwa [Expr.exchange_unmarked hmarks] at hsame
  | @no condition yes no no' h =>
    obtain ⟨-, -, hsound⟩ := Place.sound_branch.1 hsound
    have hsame : Stmt.Exchanged ξ marks (.branch condition yes (some no)) _ :=
      .branchElse (Stmt.Exchanged.refl hmarks yes)
      (Stmt.Renames.exchanged h hmarks hfits.2.2.1 (List.forall_mem_append.1 hnew).2 (hsound no rfl))
    rwa [Expr.exchange_unmarked hmarks] at hsame
  | @loop condition body body' h =>
    have hsame : Stmt.Exchanged ξ marks (.loop condition body) _ := .loop
      (Stmt.Renames.exchanged h hmarks hfits.2.1 hnew (Place.sound_loop.1 hsound).2)
    rwa [Expr.exchange_unmarked hmarks] at hsame
  | @function decl decl' h =>
    obtain ⟨hnodup, hsound⟩ := Place.sound_function.1 hsound
    refine .function ?_ (FunctionDecl.Renames.exchanged h hmarks hfits.2 hnew hnodup hsound)
    rw [hmarks 0, Exchange.text_false]
  | @method name superclass before decl decl' after h =>
    have hname : ξ.text (isMarked marks 0) name.text = name.text := by rw [hmarks 0, Exchange.text_false]
    have hmem : decl ∈ before ++ decl :: after := List.mem_append_right _ List.mem_cons_self
    have hlt := List.sizeOf_lt_of_mem hmem
    obtain ⟨hnodup, hsound⟩ := (Place.sound_classDecl.1 hsound).2 decl hmem
    have hnewDecl : ∀ binder ∈ decl.binders, binder.text ≠ ξ.new := by
      have hnewMethods := (List.forall_mem_cons.1 hnew).2
      rw [FunctionDecl.bindersAll_append] at hnewMethods
      exact (List.forall_mem_append.1 (List.forall_mem_append.1 hnewMethods).2).1
    have hmethods : ∀ {marks : List Bool} {around : List Surrounding}, Unmarked marks →
        FunctionDecl.FitsAll (fun _ => ξ.Finds distances) around (before ++ decl :: after) →
        FunctionDecl.ExchangedAll ξ marks (before ++ decl :: after) (before ++ decl' :: after) :=
      fun hmarks hfits => (FunctionDecl.ExchangedAll.refl hmarks before).append
        (.cons (FunctionDecl.Renames.exchanged h hmarks (FunctionDecl.fitsAll_append.1 hfits).2.1 hnewDecl hnodup
          hsound) (FunctionDecl.ExchangedAll.refl hmarks after))
    cases superclass with
    | none => exact .base hname (hmethods hmarks.cons hfits.2)
    | some parent =>
      have hsame : Stmt.Exchanged ξ marks (.classDecl name (some parent) _) _ :=
        .derived hname (hmethods hmarks.cons.cons hfits.2.2)
      rwa [Reference.exchange_unmarked hmarks] at hsame
termination_by sizeOf s

theorem Stmt.RenamesAll.exchanged {globals : List String} {layers : List Layer} {around : List Surrounding}
    {marks : List Bool} {body body' : List Stmt} (h : Stmt.RenamesAll distances ξ.old ξ.new body body')
    (hmarks : Unmarked marks) (hfits : Stmt.FitsAll (fun _ => ξ.Finds distances) around body)
    (hnew : ∀ binder ∈ Stmt.bindersAll body, binder.text ≠ ξ.new)
    (hsound : SoundAll globals layers [] body) : Stmt.ExchangedAll ξ marks body body' := by
  cases h with
  | @mk before s s' after h =>
    rw [Stmt.bindersAll_append] at hnew
    have hnewFirst := (List.forall_mem_append.1 (List.forall_mem_append.1 hnew).2).1
    have hmem : s ∈ before ++ s :: after := List.mem_append_right _ List.mem_cons_self
    have hlt := List.sizeOf_lt_of_mem hmem
    have hs := Stmt.Renames.exchanged h hmarks (Stmt.fitsAll_append.1 hfits).2.1 hnewFirst
      (hsound before s after rfl)
    exact (Stmt.ExchangedAll.refl hmarks before).append (.cons hs (Stmt.ExchangedAll.refl hmarks after))
termination_by sizeOf body

theorem FunctionDecl.Renames.exchanged {globals : List String} {layers : List Layer} {around : List Surrounding}
    {marks : List Bool} {decl decl' : FunctionDecl}
    (h : FunctionDecl.Renames distances ξ.old ξ.new decl decl') (hmarks : Unmarked marks)
    (hfits : decl.Fits (fun _ => ξ.Finds distances) around) (hnew : ∀ binder ∈ decl.binders, binder.text ≠ ξ.new)
    (hnodup : decl.locals.Nodup) (hsound : SoundAll globals layers [] decl.body) :
    decl.Exchanged ξ marks decl' := by
  cases h with
  | param => exact FunctionDecl.exchanged_param hmarks hfits hnew hnodup
  | @var name params body body' h =>
    obtain ⟨hnewParams, hnewBody⟩ := List.forall_mem_append.1 (List.forall_mem_cons.1 hnew).2
    obtain ⟨-, hdeclared, hapart⟩ := List.nodup_append'.1 hnodup
    have hbody := h.exchanged (.zero hmarks) hfits.2 hnewBody hdeclared
    have hold : ξ.old ∉ params.map Ident.text := fun hx => by
      obtain ⟨before, line, value, after⟩ := h
      refine hapart hx ?_
      rw [List.flatMap_append]
      exact List.mem_append_right _ List.mem_cons_self
    have hsame : FunctionDecl.Exchanged ξ marks ⟨name, params, _⟩ _ := .mk true hbody
    rwa [Ident.map_exchange_of_ne hold hnewParams] at hsame
  | @inside name params body body' h =>
    have hnewBody := (List.forall_mem_append.1 (List.forall_mem_cons.1 hnew).2).2
    have hsame : FunctionDecl.Exchanged ξ marks ⟨name, params, body⟩ _ := .mk false
      (Stmt.RenamesAll.exchanged h hmarks.cons hfits.2 hnewBody hsound)
    rwa [Ident.map_exchange_false] at hsame
termination_by sizeOf decl

end

end Lox
