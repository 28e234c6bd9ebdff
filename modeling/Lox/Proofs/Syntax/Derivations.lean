import Lox.Proofs.Syntax.GivenExpressions

/-!
# Phrases and derivations

The kinds of a phrase derive from its symbol, and whatever derives from a symbol is a phrase, though
it may have been derived with another target or another `if` in mind.
-/
namespace Lox.Parser

open Grammar

/-- Derivable with no more parameters and arguments than there may be. -/
abbrev Derivable : Symbol → List Kind → Prop := Derives (· ≤ maxArity)

/-! ## Levels of operators -/

/-- The number the parser gives a level. -/
def levelIndex : Level → Nat
  | .logicOr => 0
  | .logicAnd => 1
  | .equality => 2
  | .comparison => 3
  | .term => 4
  | .factor => 5

/-- The symbol of a numbered level. -/
def rung : Nat → Symbol
  | 0 => .level .logicOr
  | 1 => .level .logicAnd
  | 2 => .level .equality
  | 3 => .level .comparison
  | 4 => .level .term
  | 5 => .level .factor
  | _ => .unary

theorem rung_levelIndex (l : Level) : rung (levelIndex l) = .level l := by
  cases l <;> rfl

theorem rung_succ (l : Level) : rung (levelIndex l + 1) = l.operand := by
  cases l <;> rfl

theorem levelIndex_lt (l : Level) : levelIndex l < Connective.levels := by
  cases l <;> decide

theorem exists_levelIndex {n : Nat} (h : n < Connective.levels) : ∃ l, levelIndex l = n := by
  match n, h with
  | 0, _ => exact ⟨.logicOr, rfl⟩
  | 1, _ => exact ⟨.logicAnd, rfl⟩
  | 2, _ => exact ⟨.equality, rfl⟩
  | 3, _ => exact ⟨.comparison, rfl⟩
  | 4, _ => exact ⟨.term, rfl⟩
  | 5, _ => exact ⟨.factor, rfl⟩

theorem ofKind?_isSome_iff (l : Level) (k : Kind) :
    (Connective.ofKind? (levelIndex l) k).isSome = true ↔ k ∈ l.operators := by
  cases l <;> cases k <;> simp [Connective.ofKind?, levelIndex, Level.operators]

theorem unaryOfKind?_isSome_iff (k : Kind) :
    (UnaryOp.ofKind? k).isSome = true ↔ k = .bang ∨ k = .minus := by
  cases k <;> simp [UnaryOp.ofKind?]

theorem literal?_isAtom {k : Kind} {value : Literal} (h : k.literal? = some value) :
    isAtom k = true := by
  unfold Kind.literal? at h
  split at h <;> first | rfl | cases h

/-! ## Phrases derive -/

theorem Derivable.many_append {s : Symbol} {u v : List Kind} (hu : Derivable (.many s) u)
    (hv : Derivable (.many s) v) : Derivable (.many s) (u ++ v) := by
  generalize hs : Symbol.many s = t at hu
  induction hu with
  | manyNil =>
    cases hs
    exact hv
  | manyCons h _ _ ih =>
    cases hs
    rw [List.append_assoc]
    exact .manyCons h (ih rfl)
  | _ => cases hs

theorem Derivable.one {s : Symbol} {w : List Kind} (h : Derivable s w) :
    Derivable (.many s) w := by
  rw [← List.append_nil w]
  exact .manyCons h .manyNil

/-- A call with one suffix more. -/
theorem Derivable.call_suffix {u v : List Kind} (hu : Derivable .call u)
    (hv : Derivable .suffix v) : Derivable .call (u ++ v) := by
  cases hu with
  | call hp hs =>
    rw [List.append_assoc]
    exact .call hp (Derivable.many_append hs (Derivable.one hv))

theorem Derivable.call_of_primary {u : List Kind} (hu : Derivable .primary u) :
    Derivable .call u := by
  rw [← List.append_nil u]
  exact .call hu .manyNil

theorem derivable_tighter {l : Nat} {w : List Kind} (hl : l < Connective.levels)
    (h : Derivable (rung (l + 1)) w) : Derivable (rung l) w := by
  obtain ⟨l, rfl⟩ := exists_levelIndex hl
  rw [rung_succ] at h
  rw [rung_levelIndex, ← List.append_nil w]
  exact .level h .manyNil

/-- One operator and operand more. -/
theorem derivable_joined {l : Nat} {u v : List Kind} {k : Kind} {op : Connective}
    (hu : Derivable (rung l) u) (hop : Connective.ofKind? l k = some op)
    (hv : Derivable (rung (l + 1)) v) : Derivable (rung l) (u ++ k :: v) := by
  obtain ⟨l, rfl⟩ := exists_levelIndex (lt_levels hop)
  rw [rung_succ] at hv
  rw [rung_levelIndex] at hu ⊢
  have hk := (ofKind?_isSome_iff l k).1 (by rw [hop]; rfl)
  cases hu with
  | level h hs =>
    rw [List.append_assoc]
    exact .level h (Derivable.many_append hs (Derivable.one (.joined hk hv)))

/-- What the kinds of a phrase derive from, where a repeated phrase may be any symbol that it
derives from. -/
def Derived : (p : Phrase) → List Kind → p.Tree → Prop
  | .ident, w, _ | .reference, w, _ => Derivable .ident w
  | .expression .assignment, w, _ => Derivable .expression w
  | .expression (.level l), w, _ => Derivable (rung l) w
  | .expression .unary, w, _ => Derivable .unary w
  | .expression .call, w, _ => Derivable .call w
  | .expression .primary, w, _ => Derivable .primary w
  | .expressionStatement, w, _ => Derivable .exprStmt w
  | .varDeclaration, w, _ => Derivable .varDecl (.kwVar :: w)
  | .forStart, w, _ => Derivable .forStart w
  | .statement _, w, _ => Derivable .statement w
  | .declaration, w, _ => Derivable .declaration w
  | .function, w, _ => Derivable .function w
  | .opt p, w, o => match o with
    | none => w = []
    | some t => Derived p w t
  | .many p, w, _ =>
    ∀ s, (∀ v t, Derived p v t → Derivable s v) → Derivable (.many s) w
  | .separated p, w, ts =>
    ∀ s, (∀ v t, Derived p v t → Derivable s v) → Derivable (.separated s ts.length) w
  | .after kind p, w, t => ∃ v, w = kind :: v ∧ Derived p v t

/-- An optional phrase derives from an optional symbol. -/
theorem derivable_opt {p : Phrase} {s : Symbol} {w : List Kind} {o : Option p.Tree}
    (h : Derived (.opt p) w o) (hs : ∀ t, o = some t → Derived p w t → Derivable s w) :
    Derivable (.opt s) w := by
  cases o with
  | none =>
    obtain rfl : w = [] := h
    exact .optNone
  | some t => exact .optSome (hs t rfl h)

theorem derivable_arguments {w : List Kind} {args : Option (List Expr)}
    (h : Derived (.opt (.separated (.expression .assignment))) w args)
    (hargs : (args.getD []).length ≤ maxArity) : Derivable (.opt .arguments) w :=
  derivable_opt h fun ts heq h => by
    subst heq
    exact .arguments hargs (h .expression fun _ _ h => h)

theorem derivable_parameters {w : List Kind} {params : Option (List Ident)}
    (h : Derived (.opt (.separated .ident)) w params)
    (hparams : (params.getD []).length ≤ maxArity) : Derivable (.opt .parameters) w :=
  derivable_opt h fun ts heq h => by
    subst heq
    exact .parameters hparams (h .ident fun _ _ h => h)

theorem derivable_behind {p : Phrase} {kind : Kind} {s : Symbol} {w : List Kind}
    {o : Option p.Tree} (h : Derived (.opt (.after kind p)) w o)
    (hs : ∀ v t, Derived p v t → Derivable s (kind :: v)) : Derivable (.opt s) w :=
  derivable_opt h fun t _ ⟨v, hw, hv⟩ => hw ▸ hs v t hv

theorem derivable_optExpression {w : List Kind} {o : Option Expr}
    (h : Derived (.opt (.expression .assignment)) w o) : Derivable (.opt .expression) w :=
  derivable_opt h fun _ _ h => h

/-- By induction on the reading, with one case for every way to read a phrase. -/
theorem derived_of_reading {p : Phrase} {n m : Nat} {w : List Token} {t : p.Tree}
    (h : Reading p n w t m) : Derived p (w.map Token.kind) t := by
  induction h with
  | optNone => exact rfl
  | optSome _ ih => exact ih
  | manyNil => exact fun _ _ => .manyNil
  | manyCons _ _ ih ihs =>
    intro s hs
    rw [List.map_append]
    exact .manyCons (hs _ _ ih) (ihs s hs)
  | separatedOne _ ih => exact fun s hs => .separatedOne (hs _ _ ih)
  | separatedMore _ hcomma _ ih ihs =>
    intro s hs
    rw [List.map_append, List.map_cons, hcomma]
    exact .separatedMore (hs _ _ ih) (ihs s hs)
  | after hmark _ ih => exact ⟨_, by rw [List.map_cons, hmark], ih⟩
  | ident hname | reference hname =>
    rw [List.map_singleton, hname]
    exact .ident
  | assignName hname hequals _ ih =>
    rw [List.map_cons, List.map_cons, hname, hequals]
    cases ih with
    | expression h => exact .expression (.assignName h)
  | assignField _ hdot hname hequals _ ihu ih =>
    rw [List.map_append, List.map_cons, List.map_cons, List.map_cons, hdot, hname, hequals]
    cases ih with
    | expression h => exact .expression (.assignField ihu h)
  | loosest _ ih => exact .expression (.assignNothing ih)
  | tighter hl _ ih => exact derivable_tighter hl ih
  | joined _ hop _ ihleft ihright =>
    rw [List.map_append, List.map_cons]
    exact derivable_joined ihleft hop ihright
  | tightest _ ih => exact ih
  | prefixed hop _ ih =>
    exact .prefixed ((unaryOfKind?_isSome_iff _).1 (by rw [hop]; rfl)) ih
  | unprefixed _ ih => exact .unary ih
  | callee _ ih => exact Derivable.call_of_primary ih
  | call _ hopening _ hargs hclosing ihcallee ih =>
    simp only [List.map_append, List.map_cons, List.map_nil, hopening, hclosing]
    exact ihcallee.call_suffix (.callSuffix (derivable_arguments ih hargs))
  | get _ hdot hname ih =>
    simp only [List.map_append, List.map_cons, List.map_nil, hdot, hname]
    exact ih.call_suffix .getSuffix
  | literal ht => exact .atom (literal?_isAtom ht)
  | this ht | «variable» ht =>
    rw [List.map_singleton, ht]
    exact .atom rfl
  | super ht hdot hmethod =>
    simp only [List.map_cons, List.map_nil, ht, hdot, hmethod]
    exact .super
  | grouping hopening _ hclosing ih =>
    simp only [List.map_append, List.map_cons, List.map_nil, hopening, hclosing]
    exact .grouping ih
  | expressionStatement _ hend ih =>
    simp only [List.map_append, List.map_cons, List.map_nil, hend]
    exact .exprStmt ih
  | varDeclaration hname _ hend ih =>
    simp only [List.map_append, List.map_cons, List.map_nil, hname, hend]
    exact .varDecl (derivable_behind ih fun _ _ h => .initializer h)
  | forNone hend =>
    rw [List.map_singleton, hend]
    exact .forNone
  | forVar hmark _ ih =>
    rw [List.map_cons, hmark]
    exact .forVar ih
  | forExpression _ ih => exact .forExpr ih
  | simple _ ih => exact .ofExpr ih
  | print hmark _ hend ih =>
    simp only [List.map_append, List.map_cons, List.map_nil, hmark, hend]
    exact .ofPrint (.printStmt ih)
  | ret hmark _ hend ih =>
    simp only [List.map_append, List.map_cons, List.map_nil, hmark, hend]
    exact .ofReturn (.returnStmt (derivable_optExpression ih))
  | block hopening _ hclosing ih =>
    simp only [List.map_append, List.map_cons, List.map_nil, hopening, hclosing]
    exact .ofBlock (.block (ih .declaration fun _ _ h => h))
  | ifThen hmark hopening _ hclosing _ ihcondition ih =>
    simp only [List.map_append, List.map_cons, hmark, hopening, hclosing]
    have h := Derives.ifStmt ihcondition ih (.optNone (s := .elseBranch))
    rw [List.append_nil] at h
    exact .ofIf h
  | ifElse hmark hopening _ hclosing _ _ ihcondition ihyes ihno =>
    simp only [List.map_append, List.map_cons, hmark, hopening, hclosing]
    obtain ⟨v, hv, hno⟩ := ihno
    rw [hv]
    exact .ofIf (.ifStmt ihcondition ihyes (.optSome (.elseBranch hno)))
  | loop hmark hopening _ hclosing _ ihcondition ih =>
    simp only [List.map_append, List.map_cons, hmark, hopening, hclosing]
    exact .ofWhile (.whileStmt ihcondition ih)
  | forLoop hmark hopening _ _ hsemicolon _ hclosing _ ihstart ihcondition ihincrement ih =>
    simp only [List.map_append, List.map_cons, hmark, hopening, hsemicolon, hclosing]
    exact .ofFor (.forStmt ihstart (derivable_optExpression ihcondition)
      (derivable_optExpression ihincrement) ih)
  | function hname hopening _ hlength hclosing hstart _ hstop ihparams ih =>
    simp only [List.map_append, List.map_cons, List.map_nil, hname, hopening, hclosing, hstart,
      hstop]
    exact .function (derivable_parameters ihparams hlength) (.block (ih .declaration fun _ _ h => h))
  | declareClass hmark hname _ hstart _ hstop ihparent ih =>
    simp only [List.map_append, List.map_cons, List.map_nil, hmark, hname, hstart, hstop]
    refine .declareClass (.classDecl (derivable_behind ihparent fun v t h => ?_)
      (ih .function fun _ _ h => h))
    cases h
    exact .superclass
  | declareFun hmark _ ih =>
    rw [List.map_cons, hmark]
    exact .declareFun (.funDecl ih)
  | declareVar hmark _ ih =>
    rw [List.map_cons, hmark]
    exact .declareVar ih
  | declareNothing _ ih => exact .declareNothing ih

/-! ## Derivations are read -/

/-- Any tokens of these kinds are a phrase, whatever the identities begin with. -/
def Reads (p : Phrase) (w : List Kind) : Prop :=
  ∀ tokens n, tokens.map Token.kind = w → ∃ t m, Reading p n tokens t m

/-- Words of one kind in a row. -/
inductive Repeating (P : List Kind → Prop) : List Kind → Prop where
  | nil : Repeating P []
  | cons {u v} (h : P u) (hs : Repeating P v) : Repeating P (u ++ v)

/-- So many words of one kind with commas between them. -/
inductive Listing (P : List Kind → Prop) : Nat → List Kind → Prop where
  | one {u} (h : P u) : Listing P 1 u
  | more {n u v} (h : P u) (hs : Listing P n v) : Listing P (n + 1) (u ++ .comma :: v)

/-- An open statement takes the `else` that follows it. -/
def Attaches : (p : Phrase) → Nat → List Token → p.Tree → Nat → Prop
  | .statement isOpen, n, u, _, k => isOpen = true → ∀ {isOpen' v s m},
      Reading (.after .kwElse (.statement isOpen')) k v s m →
      ∃ isOpen'' s', Reading (.statement isOpen'') n (u ++ v) s' m
  | .after kind (.statement isOpen), n, u, _, k => isOpen = true → ∀ {isOpen' v s m},
      Reading (.after .kwElse (.statement isOpen')) k v s m →
      ∃ isOpen'' s', Reading (.after kind (.statement isOpen'')) n (u ++ v) s' m
  | _, _, _, _, _ => True

theorem attaches {p : Phrase} {n m : Nat} {w : List Token} {t : p.Tree} (h : Reading p n w t m) :
    Attaches p n w t m := by
  induction h with
  | @after kind p n mark w t m hmark h ih =>
    cases p with
    | statement isOpen =>
      intro hopen isOpen' v s m helse
      obtain ⟨isOpen'', s', h⟩ := ih hopen helse
      exact ⟨isOpen'', s', .after hmark h⟩
    | _ => trivial
  | simple | print | ret | block => exact nofun
  | @ifThen n mark opening u condition k closing isOpen v yes m hmark hopening hcondition hclosing
      h _ ih =>
    intro _ isOpen' w s m' helse
    cases isOpen with
    | false =>
      exact ⟨isOpen', _, by
        simpa using Reading.ifElse hmark hopening hcondition hclosing h helse⟩
    | true =>
      obtain ⟨isOpen'', s', h⟩ := ih rfl helse
      exact ⟨true, _, by simpa using Reading.ifThen hmark hopening hcondition hclosing h⟩
  | ifElse hmark hopening hcondition hclosing hyes _ _ _ ih =>
    intro hopen isOpen' w s m' helse
    obtain ⟨isOpen'', s', h⟩ := ih hopen helse
    exact ⟨isOpen'', _, by simpa using Reading.ifElse hmark hopening hcondition hclosing hyes h⟩
  | loop hmark hopening hcondition hclosing _ _ ih =>
    intro hopen isOpen' w s m' helse
    obtain ⟨isOpen'', s', h⟩ := ih hopen helse
    exact ⟨isOpen'', _, by simpa using Reading.loop hmark hopening hcondition hclosing h⟩
  | forLoop hmark hopening hstart hcondition hsemicolon hincrement hclosing _ _ _ _ ih =>
    intro hopen isOpen' w s m' helse
    obtain ⟨isOpen'', s', h⟩ := ih hopen helse
    exact ⟨isOpen'', _, by
      simpa using Reading.forLoop hmark hopening hstart hcondition hsemicolon hincrement hclosing h⟩
  | _ => trivial

/-- What follows the words of a symbol goes on with a phrase. -/
def Extends (p : Phrase) (w : List Kind) : Prop :=
  ∀ tokens, tokens.map Token.kind = w → ∀ {n u t k}, Reading p n u t k →
    ∃ t' m, Reading p n (u ++ tokens) t' m

def ReadsAsStatement (w : List Kind) : Prop :=
  ∀ tokens n, tokens.map Token.kind = w → ∃ isOpen s m, Reading (.statement isOpen) n tokens s m

/-- A comma list that is not too long. -/
def ReadsListing (p : Phrase) (w : List Kind) : Prop :=
  ∀ tokens n, tokens.map Token.kind = w →
    ∃ ts m, Reading (.separated p) n tokens ts m ∧ ts.length ≤ maxArity

/-- What a word of a symbol is good for. -/
def Readable : Symbol → List Kind → Prop
  | .program, w => ∃ v, w = v ++ [.eof] ∧ Repeating (Reads .declaration) v
  | .declaration, w | .classDecl, w | .funDecl, w => Reads .declaration w
  | .superclass, w => Reads (.after .less .reference) w
  | .function, w => Reads .function w
  | .parameters, w => ReadsListing .ident w
  | .varDecl, w => ∃ v, w = .kwVar :: v ∧ Reads .varDeclaration v
  | .initializer, w => Reads (.after .equal (.expression .assignment)) w
  | .statement, w | .forStmt, w | .ifStmt, w | .printStmt, w | .returnStmt, w | .whileStmt, w =>
    ReadsAsStatement w
  | .exprStmt, w => Reads .expressionStatement w
  | .forStart, w => Reads .forStart w
  | .elseBranch, w => ∃ v, w = .kwElse :: v ∧ ReadsAsStatement v
  | .block, w => ∃ v, w = .leftBrace :: (v ++ [.rightBrace]) ∧ Repeating (Reads .declaration) v
  | .expression, w | .assignment, w => Reads (.expression .assignment) w
  | .level l, w => Reads (.expression (.level (levelIndex l))) w
  | .joined l, w => Extends (.expression (.level (levelIndex l))) w
  | .unary, w => Reads (.expression .unary) w
  | .call, w => Reads (.expression .call) w
  | .suffix, w => Extends (.expression .call) w
  | .arguments, w => ReadsListing (.expression .assignment) w
  | .primary, w => Reads (.expression .primary) w
  | .ident, w => Reads .ident w
  | .opt s, w => w = [] ∨ Readable s w
  | .many s, w => Repeating (Readable s) w
  | .separated s n, w => Listing (Readable s) n w

theorem Repeating.reads {p : Phrase} {w : List Kind} (h : Repeating (Reads p) w) :
    Reads (.many p) w := by
  induction h with
  | nil =>
    intro tokens n hw
    obtain rfl := List.map_eq_nil_iff.1 hw
    exact ⟨[], n, .manyNil⟩
  | cons h _ ih =>
    intro tokens n hw
    obtain ⟨u, v, rfl, hu, hv⟩ := List.map_eq_append_iff.1 hw
    obtain ⟨t, k, ht⟩ := h u n hu
    obtain ⟨ts, m, hts⟩ := ih v k hv
    exact ⟨t :: ts, m, .manyCons ht hts⟩

theorem Repeating.extends {p : Phrase} {w : List Kind} (h : Repeating (Extends p) w) :
    Extends p w := by
  induction h with
  | nil =>
    intro tokens hw n u t k ht
    obtain rfl := List.map_eq_nil_iff.1 hw
    exact ⟨t, k, by rwa [List.append_nil]⟩
  | cons h _ ih =>
    intro tokens hw n u t k ht
    obtain ⟨v, z, rfl, hv, hz⟩ := List.map_eq_append_iff.1 hw
    obtain ⟨t', k', ht'⟩ := h v hv ht
    rw [← List.append_assoc]
    exact ih z hz ht'

theorem Listing.reads {p : Phrase} {count : Nat} {w : List Kind} (h : Listing (Reads p) count w)
    (hcount : count ≤ maxArity) : ReadsListing p w := by
  suffices hexact : ∀ tokens n, tokens.map Token.kind = w →
      ∃ ts m, Reading (.separated p) n tokens ts m ∧ ts.length = count by
    intro tokens n hw
    obtain ⟨ts, m, hts, hlength⟩ := hexact tokens n hw
    exact ⟨ts, m, hts, hlength ▸ hcount⟩
  clear hcount
  induction h with
  | one h =>
    intro tokens n hw
    obtain ⟨t, m, ht⟩ := h tokens n hw
    exact ⟨[t], m, .separatedOne ht, rfl⟩
  | more h _ ih =>
    intro tokens n hw
    obtain ⟨u, z, rfl, hu, hz⟩ := List.map_eq_append_iff.1 hw
    obtain ⟨comma, v, rfl, hcomma, hv⟩ := List.map_eq_cons_iff.1 hz
    obtain ⟨t, k, ht⟩ := h u n hu
    obtain ⟨ts, m, hts, hlength⟩ := ih v k hv
    exact ⟨t :: ts, m, .separatedMore ht hcomma hts, congrArg (· + 1) hlength⟩

/-- An optional word, as an optional phrase. -/
theorem reads_opt {p : Phrase} {w : List Kind} (h : w = [] ∨ Reads p w) : Reads (.opt p) w := by
  intro tokens n hw
  obtain rfl | h := h
  · obtain rfl := List.map_eq_nil_iff.1 hw
    exact ⟨none, n, .optNone⟩
  · obtain ⟨t, m, ht⟩ := h tokens n hw
    exact ⟨some t, m, .optSome ht⟩

theorem reads_optListing {p : Phrase} {w : List Kind} (h : w = [] ∨ ReadsListing p w)
    (tokens : List Token) (n : Nat) (hw : tokens.map Token.kind = w) :
    ∃ ts m, Reading (.opt (.separated p)) n tokens ts m ∧ (ts.getD []).length ≤ maxArity := by
  obtain rfl | h := h
  · obtain rfl := List.map_eq_nil_iff.1 hw
    exact ⟨none, n, .optNone, Nat.zero_le _⟩
  · obtain ⟨ts, m, hts, hlength⟩ := h tokens n hw
    exact ⟨some ts, m, .optSome hts, hlength⟩

theorem reads_operand {l : Level} {w : List Kind} (h : Readable l.operand w) :
    Reads (.expression (.level (levelIndex l + 1))) w := by
  cases l with
  | factor =>
    intro tokens n hw
    obtain ⟨e, m, he⟩ := h tokens n hw
    exact ⟨e, m, .tightest he⟩
  | _ => exact h

theorem literal?_of_isAtom {k : Kind} (h : isAtom k = true) :
    k = .kwThis ∨ k = .identifier ∨ ∃ value, k.literal? = some value := by
  cases k with
  | kwThis => exact .inl rfl
  | identifier => exact .inr (.inl rfl)
  | kwFalse | kwTrue | kwNil | number | string => exact .inr (.inr ⟨_, rfl⟩)
  | _ => cases h

/-- By induction on the derivation, with one case for every rule of the grammar. -/
theorem readable_of_derivable {s : Symbol} {w : List Kind} (h : Derivable s w) :
    Readable s w := by
  induction h with
  | optNone => exact .inl rfl
  | optSome _ ih => exact .inr ih
  | manyNil => exact .nil
  | manyCons _ _ ih iht => exact .cons ih iht
  | separatedOne _ ih => exact .one ih
  | separatedMore _ _ ih iht => exact .more ih iht
  | ident =>
    intro tokens n hw
    obtain ⟨t, rfl, ht⟩ := List.map_eq_singleton_iff.1 hw
    exact ⟨_, n, .ident ht⟩
  | program _ ih => exact ⟨_, rfl, ih⟩
  | declareClass _ ih | declareFun _ ih => exact ih
  | declareVar _ ih =>
    obtain ⟨v, rfl, hv⟩ := ih
    intro tokens n hw
    obtain ⟨mark, z, rfl, hmark, hz⟩ := List.map_eq_cons_iff.1 hw
    obtain ⟨s, m, hs⟩ := hv z n hz
    exact ⟨s, m, .declareVar hmark hs⟩
  | declareNothing _ ih =>
    intro tokens n hw
    obtain ⟨isOpen, s, m, hs⟩ := ih tokens n hw
    exact ⟨s, m, .declareNothing hs⟩
  | classDecl _ _ ihp ihm =>
    intro tokens n hw
    simp only [List.map_eq_cons_iff, List.map_eq_append_iff, List.map_eq_nil_iff] at hw
    obtain ⟨mark, _, rfl, hmark, name, _, rfl, hname, p, _, rfl, hp, start, _, rfl, hstart, ms, _,
      rfl, hms, stop, _, rfl, hstop, rfl⟩ := hw
    obtain ⟨parent, k, hparent⟩ := reads_opt ihp p n hp
    obtain ⟨trees, m, htrees⟩ := Repeating.reads ihm ms k hms
    exact ⟨_, m, .declareClass hmark hname hparent hstart htrees hstop⟩
  | superclass =>
    intro tokens n hw
    simp only [List.map_eq_cons_iff, List.map_eq_nil_iff] at hw
    obtain ⟨less, _, rfl, hless, name, _, rfl, hname, rfl⟩ := hw
    exact ⟨_, n + 1, .after hless (.reference hname)⟩
  | funDecl _ ih =>
    intro tokens n hw
    obtain ⟨mark, z, rfl, hmark, hz⟩ := List.map_eq_cons_iff.1 hw
    obtain ⟨decl, m, hdecl⟩ := ih z n hz
    exact ⟨_, m, .declareFun hmark hdecl⟩
  | function _ _ ihp ihb =>
    obtain ⟨v, rfl, hv⟩ := ihb
    intro tokens n hw
    simp only [List.map_eq_cons_iff, List.map_eq_append_iff, List.map_eq_nil_iff] at hw
    obtain ⟨name, _, rfl, hname, opening, _, rfl, hopening, ps, _, rfl, hps, closing, _, rfl,
      hclosing, start, _, rfl, hstart, b, _, rfl, hb, stop, _, rfl, hstop, rfl⟩ := hw
    obtain ⟨params, k, hparams, hlength⟩ := reads_optListing ihp ps n hps
    obtain ⟨body, m, hbody⟩ := hv.reads b k hb
    exact ⟨_, m, .function hname hopening hparams hlength hclosing hstart hbody hstop⟩
  | parameters hn _ ih => exact Listing.reads ih hn
  | varDecl _ ih =>
    refine ⟨_, rfl, fun tokens n hw => ?_⟩
    simp only [List.map_eq_cons_iff, List.map_eq_append_iff, List.map_eq_nil_iff] at hw
    obtain ⟨name, _, rfl, hname, i, _, rfl, hi, semicolon, _, rfl, hend, rfl⟩ := hw
    obtain ⟨initializer, m, hinitializer⟩ := reads_opt ih i n hi
    exact ⟨_, m, .varDeclaration hname hinitializer hend⟩
  | initializer _ ih =>
    intro tokens n hw
    obtain ⟨equals, z, rfl, hequals, hz⟩ := List.map_eq_cons_iff.1 hw
    obtain ⟨e, m, he⟩ := ih z n hz
    exact ⟨e, m, .after hequals he⟩
  | ofExpr _ ih =>
    intro tokens n hw
    obtain ⟨s, m, hs⟩ := ih tokens n hw
    exact ⟨false, s, m, .simple hs⟩
  | ofFor _ ih | ofIf _ ih | ofPrint _ ih | ofReturn _ ih | ofWhile _ ih => exact ih
  | ofBlock _ ih =>
    obtain ⟨v, rfl, hv⟩ := ih
    intro tokens n hw
    simp only [List.map_eq_cons_iff, List.map_eq_append_iff, List.map_eq_nil_iff] at hw
    obtain ⟨start, _, rfl, hstart, b, _, rfl, hb, stop, _, rfl, hstop, rfl⟩ := hw
    obtain ⟨body, m, hbody⟩ := hv.reads b n hb
    exact ⟨false, _, m, .block hstart hbody hstop⟩
  | exprStmt _ ih =>
    intro tokens n hw
    simp only [List.map_eq_cons_iff, List.map_eq_append_iff, List.map_eq_nil_iff] at hw
    obtain ⟨e, _, rfl, he, semicolon, _, rfl, hend, rfl⟩ := hw
    obtain ⟨tree, m, htree⟩ := ih e n he
    exact ⟨_, m, .expressionStatement htree hend⟩
  | forStmt _ _ _ _ ihi ihc ihu ihb =>
    intro tokens n hw
    simp only [List.map_eq_cons_iff, List.map_eq_append_iff] at hw
    obtain ⟨mark, _, rfl, hmark, opening, _, rfl, hopening, i, _, rfl, hi, c, _, rfl, hc,
      semicolon, _, rfl, hsemicolon, u, _, rfl, hu, closing, b, rfl, hclosing, hb⟩ := hw
    obtain ⟨start, k₁, hstart⟩ := ihi i n hi
    obtain ⟨condition, k₂, hcondition⟩ := reads_opt ihc c k₁ hc
    obtain ⟨increment, k₃, hincrement⟩ := reads_opt ihu u k₂ hu
    obtain ⟨isOpen, body, m, hbody⟩ := ihb b k₃ hb
    exact ⟨isOpen, _, m, .forLoop hmark hopening hstart hcondition hsemicolon hincrement hclosing
      hbody⟩
  | forVar _ ih =>
    obtain ⟨v, rfl, hv⟩ := ih
    intro tokens n hw
    obtain ⟨mark, z, rfl, hmark, hz⟩ := List.map_eq_cons_iff.1 hw
    obtain ⟨s, m, hs⟩ := hv z n hz
    exact ⟨some s, m, .forVar hmark hs⟩
  | forExpr _ ih =>
    intro tokens n hw
    obtain ⟨s, m, hs⟩ := ih tokens n hw
    exact ⟨some s, m, .forExpression hs⟩
  | forNone =>
    intro tokens n hw
    obtain ⟨t, rfl, ht⟩ := List.map_eq_singleton_iff.1 hw
    exact ⟨none, n, .forNone ht⟩
  | ifStmt _ _ _ ihc ihb ihe =>
    intro tokens n hw
    simp only [List.map_eq_cons_iff, List.map_eq_append_iff] at hw
    obtain ⟨mark, _, rfl, hmark, opening, _, rfl, hopening, c, _, rfl, hc, closing, _, rfl,
      hclosing, b, e, rfl, hb, he⟩ := hw
    obtain ⟨condition, k₁, hcondition⟩ := ihc c n hc
    obtain ⟨isOpen, yes, k₂, hyes⟩ := ihb b k₁ hb
    have hthen := Reading.ifThen hmark hopening hcondition hclosing hyes
    obtain rfl | ⟨v, rfl, hno⟩ := ihe
    · obtain rfl := List.map_eq_nil_iff.1 he
      rw [List.append_nil]
      exact ⟨true, _, k₂, hthen⟩
    · obtain ⟨mid, z, rfl, hmid, hz⟩ := List.map_eq_cons_iff.1 he
      obtain ⟨isOpen', no, m, hno⟩ := hno z k₂ hz
      obtain ⟨isOpen'', s, hs⟩ := attaches hthen rfl (.after hmid hno)
      exact ⟨isOpen'', s, m, by simpa using hs⟩
  | elseBranch _ ih => exact ⟨_, rfl, ih⟩
  | printStmt _ ih =>
    intro tokens n hw
    simp only [List.map_eq_cons_iff, List.map_eq_append_iff, List.map_eq_nil_iff] at hw
    obtain ⟨mark, _, rfl, hmark, e, _, rfl, he, semicolon, _, rfl, hend, rfl⟩ := hw
    obtain ⟨tree, m, htree⟩ := ih e n he
    exact ⟨false, _, m, .print hmark htree hend⟩
  | returnStmt _ ih =>
    intro tokens n hw
    simp only [List.map_eq_cons_iff, List.map_eq_append_iff, List.map_eq_nil_iff] at hw
    obtain ⟨mark, _, rfl, hmark, e, _, rfl, he, semicolon, _, rfl, hend, rfl⟩ := hw
    obtain ⟨value, m, hvalue⟩ := reads_opt ih e n he
    exact ⟨false, _, m, .ret hmark hvalue hend⟩
  | whileStmt _ _ ihc ihb =>
    intro tokens n hw
    simp only [List.map_eq_cons_iff, List.map_eq_append_iff] at hw
    obtain ⟨mark, _, rfl, hmark, opening, _, rfl, hopening, c, _, rfl, hc, closing, b, rfl,
      hclosing, hb⟩ := hw
    obtain ⟨condition, k, hcondition⟩ := ihc c n hc
    obtain ⟨isOpen, body, m, hbody⟩ := ihb b k hb
    exact ⟨isOpen, _, m, .loop hmark hopening hcondition hclosing hbody⟩
  | block _ ih => exact ⟨_, rfl, ih⟩
  | expression _ ih => exact ih
  | assignName _ ih =>
    intro tokens n hw
    simp only [List.map_eq_cons_iff] at hw
    obtain ⟨name, _, rfl, hname, equals, w, rfl, hequals, hw⟩ := hw
    obtain ⟨value, m, hvalue⟩ := ih w (n + 1) hw
    exact ⟨_, m + 1, .assignName hname hequals hvalue⟩
  | assignField _ _ ihu ih =>
    intro tokens n hw
    simp only [List.map_eq_cons_iff, List.map_eq_append_iff] at hw
    obtain ⟨u, _, rfl, hu, dot, _, rfl, hdot, name, _, rfl, hname, equals, w, rfl, hequals, hw⟩ :=
      hw
    obtain ⟨object, k, hobject⟩ := ihu u n hu
    obtain ⟨value, m, hvalue⟩ := ih w k hw
    exact ⟨_, m, .assignField hobject hdot hname hequals hvalue⟩
  | assignNothing _ ih =>
    intro tokens n hw
    obtain ⟨e, m, he⟩ := ih tokens n hw
    exact ⟨e, m, .loosest he⟩
  | @level l u v _ _ ih iht =>
    intro tokens n hw
    obtain ⟨x, y, rfl, hx, hy⟩ := List.map_eq_append_iff.1 hw
    obtain ⟨first, k, hfirst⟩ := reads_operand ih x n hx
    exact Repeating.extends iht y hy (.tighter (levelIndex_lt l) hfirst)
  | @joined l k w hk _ ih =>
    intro tokens hw n u left k' hleft
    obtain ⟨sign, v, rfl, hsign, hv⟩ := List.map_eq_cons_iff.1 hw
    obtain ⟨right, m, hright⟩ := reads_operand ih v k' hv
    obtain ⟨op, hop⟩ := Option.isSome_iff_exists.1 ((ofKind?_isSome_iff l k).2 hk)
    exact ⟨_, m, .joined hleft (hsign ▸ hop) hright⟩
  | prefixed hk _ ih =>
    intro tokens n hw
    obtain ⟨sign, v, rfl, hsign, hv⟩ := List.map_eq_cons_iff.1 hw
    obtain ⟨e, m, he⟩ := ih v n hv
    obtain ⟨op, hop⟩ := Option.isSome_iff_exists.1 ((unaryOfKind?_isSome_iff _).2 hk)
    exact ⟨_, m, .prefixed (hsign ▸ hop) he⟩
  | unary _ ih =>
    intro tokens n hw
    obtain ⟨e, m, he⟩ := ih tokens n hw
    exact ⟨e, m, .unprefixed he⟩
  | call _ _ ih iht =>
    intro tokens n hw
    obtain ⟨x, y, rfl, hx, hy⟩ := List.map_eq_append_iff.1 hw
    obtain ⟨e, k, he⟩ := ih x n hx
    exact Repeating.extends iht y hy (.callee he)
  | callSuffix _ ih =>
    intro tokens hw n u callee k hcallee
    simp only [List.map_eq_cons_iff, List.map_eq_append_iff, List.map_eq_nil_iff] at hw
    obtain ⟨opening, _, rfl, hopening, a, _, rfl, ha, closing, _, rfl, hclosing, rfl⟩ := hw
    obtain ⟨args, m, hargs, hlength⟩ := reads_optListing ih a k ha
    exact ⟨_, m, .call hcallee hopening hargs hlength hclosing⟩
  | getSuffix =>
    intro tokens hw n u object k hobject
    simp only [List.map_eq_cons_iff, List.map_eq_nil_iff] at hw
    obtain ⟨dot, _, rfl, hdot, name, _, rfl, hname, rfl⟩ := hw
    exact ⟨_, k, .get hobject hdot hname⟩
  | arguments hn _ ih => exact Listing.reads ih hn
  | atom hk =>
    intro tokens n hw
    obtain ⟨t, rfl, ht⟩ := List.map_eq_singleton_iff.1 hw
    obtain rfl | rfl | ⟨value, hvalue⟩ := literal?_of_isAtom hk
    · exact ⟨_, n + 1, .this ht⟩
    · exact ⟨_, n + 1, .variable ht⟩
    · exact ⟨_, n, .literal (ht ▸ hvalue)⟩
  | grouping _ ih =>
    intro tokens n hw
    simp only [List.map_eq_cons_iff, List.map_eq_append_iff, List.map_eq_nil_iff] at hw
    obtain ⟨opening, _, rfl, hopening, e, _, rfl, he, closing, _, rfl, hclosing, rfl⟩ := hw
    obtain ⟨inner, m, hinner⟩ := ih e n he
    exact ⟨_, m, .grouping hopening hinner hclosing⟩
  | super =>
    intro tokens n hw
    simp only [List.map_eq_cons_iff, List.map_eq_nil_iff] at hw
    obtain ⟨t, _, rfl, ht, dot, _, rfl, hdot, method, _, rfl, hmethod, rfl⟩ := hw
    exact ⟨_, n + 1, .super ht hdot hmethod⟩

end Lox.Parser
