import Lox.Proofs.Syntax.GivenStatements

/-!
# Declarations without their semicolon

A declaration that ends in a semicolon, and in place of this a token that begins another declaration. No expression
goes on with such a token, so the declaration is read as it would be up to there, and given up at that token. Where it
ends in statements inside of each other, as branches and loops do, the last of them is given up, and all with it.
-/
namespace Lox.Parser

open Grammar

variable {α β : Type}

/-! ## Runs that are given up -/

/-- From identity `n` and the tokens `input` the parser fails at the token `t`, with nothing recorded. -/
def Stops (p : Parser α) (n : Nat) (input : List Token) (t : Token) (rest : List Token) : Prop :=
  ∃ cause m, ∀ endLine faults,
    p ⟨input, endLine, faults, n⟩ = .error ⟨t.line, .at t.lexeme, cause⟩ ⟨t :: rest, endLine, faults, m⟩

section Stops

variable {n k : Nat} {input middle rest : List Token} {t : Token} {kind : Kind} {p : Parser α} {a : α}
  {f : α → Parser β}

theorem Stops.bind (hp : Stops p n input t rest) : Stops (p >>= f) n input t rest := by
  obtain ⟨cause, m, hp⟩ := hp
  refine ⟨cause, m, fun endLine faults => ?_⟩
  rw [bind_eq, hp]

theorem Gives.then_stops (hp : Gives p n input a k middle) (hf : Stops (f a) k middle t rest) :
    Stops (p >>= f) n input t rest := by
  obtain ⟨cause, m, hf⟩ := hf
  refine ⟨cause, m, fun endLine faults => ?_⟩
  rw [bind_eq, hp]
  exact hf endLine faults

theorem Stops.fail (cause : SyntaxError) : Stops (Parser.fail cause : Parser α) n (t :: rest) t rest :=
  ⟨cause, n, fun _ _ => rfl⟩

theorem Stops.expect {cause : SyntaxError} (ht : t.kind ≠ kind) :
    Stops (Parser.expect kind cause) n (t :: rest) t rest :=
  (Gives.accept_miss (by simpa using ht)).then_stops (Stops.fail cause)

theorem Stops.unlessNext (h : ahead input ≠ some kind) (hp : Stops p n input t rest) :
    Stops (Parser.unlessNext kind p) n input t rest := by
  refine Gives.check.then_stops ?_
  rw [decide_eq_false h]
  exact hp.bind

theorem Stops.behind (ht : t.kind = kind) {after : List Token} {u : Token} (hp : Stops p n input u after) :
    Stops (Parser.behind kind p) n (t :: input) u after :=
  (Gives.accept_hit ht).then_stops hp.bind

end Stops

/-! ## At a token that begins a declaration -/

theorem ends_of_starts {k : Kind} (hk : k.startsDeclaration = true) : endsExpression k = true := by
  rw [endsExpression, hk, Bool.or_true]

theorem ne_of_starts {k kind : Kind} (hk : k.startsDeclaration = true)
    (hkind : kind.startsDeclaration = false) : k ≠ kind := by
  rintro rfl
  rw [hk] at hkind
  cases hkind

section Starts

variable {n : Nat} {t : Token} {rest : List Token}

/-- No expression begins with such a token. -/
theorem stops_primary (ht : t.kind.startsDeclaration = true) (depth : Nat) :
    Stops (primary depth) n (t :: rest) t rest := by
  cases depth with
  | zero => exact Stops.fail _
  | succ depth =>
    have hnext : Gives next? n (t :: rest) (some t) n (t :: rest) := fun _ _ => rfl
    unfold primary
    refine hnext.then_stops ?_
    dsimp only
    cases hk : t.kind with
    | kwClass | kwFun | kwVar | kwFor | kwIf | kwWhile | kwPrint | kwReturn => exact Stops.fail _
    | _ =>
      rw [hk] at ht
      cases ht

theorem stops_unary (ht : t.kind.startsDeclaration = true) (depth : Nat) :
    Stops (unary depth) n (t :: rest) t rest := by
  cases depth with
  | zero => exact Stops.fail _
  | succ depth =>
    unfold unary
    refine (Gives.take?_miss (fun k => (UnaryOp.ofKind? k).isSome) fun k hk => ?_).then_stops
      (stops_primary ht depth).bind
    cases hk
    cases hk : t.kind <;> first | rfl | (rw [hk] at ht; cases ht)

theorem stops_operators (ht : t.kind.startsDeclaration = true) (depth level : Nat) :
    Stops (operators depth level) n (t :: rest) t rest := by
  induction depth generalizing level with
  | zero => exact Stops.fail _
  | succ depth ih =>
    unfold operators
    split
    · exact (ih (level + 1)).bind
    · exact stops_unary ht depth

theorem stops_expression (ht : t.kind.startsDeclaration = true) (depth : Nat) :
    Stops (expression depth) n (t :: rest) t rest := by
  cases depth with
  | zero => exact Stops.fail _
  | succ depth =>
    unfold expression
    cases depth with
    | zero => exact Stops.fail _
    | succ depth =>
      unfold assignment
      exact (stops_operators ht depth 0).bind

/-- An expression and, in place of the semicolon behind it, such a token. -/
theorem ExpressionGiven.stops_end {w : List Token} {e : Expr} {m depth : Nat} {f : Expr → Stmt} {cause : SyntaxError}
    (h : ExpressionGiven n w e m) (hdepth : 16 * w.length + 11 ≤ depth) (ht : t.kind.startsDeclaration = true) :
    Stops (do let e ← expression depth; expect .semicolon cause; return f e) n (w ++ t :: rest) t rest :=
  (h.gives depth _ hdepth (Ends.cons rfl (ends_of_starts ht))).then_stops (Stops.expect (ne_of_starts ht rfl)).bind

end Starts

/-! ## Simple statements cut short -/

/-- The last token is of this kind. -/
def LastIs (kind : Kind) (w : List Token) : Prop := ∃ t, w.getLast? = some t ∧ t.kind = kind

theorem LastIs.of_append {kind : Kind} {u v : List Token} (h : LastIs kind (u ++ v)) (hv : v ≠ []) :
    LastIs kind v := by
  obtain ⟨t, ht, hkind⟩ := h
  rw [List.getLast?_append_of_ne_nil _ hv] at ht
  exact ⟨t, ht, hkind⟩

theorem not_lastIs {kind : Kind} {w : List Token} {t : Token} (ht : t.kind ≠ kind) (hw : w.getLast? = some t) :
    ¬ LastIs kind w := by
  rintro ⟨t', ht', hkind⟩
  rw [hw] at ht'
  cases ht'
  exact ht hkind

/-- What does not begin with a token of the kind goes on behind its first token. -/
theorem Begins.dropLast {starts : Kind → Bool} {w : List Token} {kind : Kind} (h : Begins starts w)
    (hlast : LastIs kind w) (hkind : starts kind = false) : Begins starts w.dropLast := by
  obtain ⟨t, _ | ⟨t', v⟩, rfl, ht⟩ := h
  · obtain ⟨t', ht', hkind'⟩ := hlast
    obtain rfl : t = t' := Option.some.inj ht'
    rw [hkind', hkind] at ht
    cases ht
  · exact ⟨t, (t' :: v).dropLast, rfl, ht⟩

/-- If the phrase ends in a semicolon, and if in place of it there is a token that begins a declaration, then `p` is
given up at that token. -/
def CutShort (height : Nat) (p : Nat → Parser α) (n : Nat) (w : List Token) : Prop :=
  LastIs .semicolon w → ∀ depth t rest, 16 * w.length + height ≤ depth → t.kind.startsDeclaration = true →
    Stops (p depth) n (w.dropLast ++ t :: rest) t rest

variable {n k l m : Nat} {u v w : List Token} {e : Expr} {mark opening closing semicolon : Token}

theorem CutShort.of_not {height : Nat} {p : Nat → Parser α} (h : ¬ LastIs .semicolon w) : CutShort height p n w :=
  fun hlast => absurd hlast h

theorem cutShort_var {name : Token} {initializer : Option Expr} (hname : name.kind = .identifier)
    (h : Optional (Behind .equal ExpressionGiven) n w m initializer) :
    CutShort 0 varDeclaration n (name :: (w ++ [semicolon])) := by
  intro hlast depth t rest hdepth ht
  simp only [List.length_append, List.length_cons] at hdepth
  rw [← List.cons_append, List.dropLast_concat]
  have hinitializer : Gives (behind .equal (expression depth)) n (w ++ t :: rest) initializer m (t :: rest) := by
    cases initializer with
    | none =>
      obtain ⟨rfl, rfl⟩ := h
      exact Gives.behind_miss (by simpa using ne_of_starts ht rfl)
    | some e =>
      obtain ⟨equals, v, rfl, hequals, hv⟩ := h
      rw [List.length_cons] at hdepth
      exact Gives.behind_hit hequals (hv.gives depth _ (by omega) (Ends.cons rfl (ends_of_starts ht)))
  exact (Gives.ident hname).then_stops (hinitializer.then_stops (Stops.expect (ne_of_starts ht rfl)).bind)

/-- A statement that begins with none of the keywords that are tried first. -/
theorem stops_statement_past {depth : Nat} {input rest : List Token} {t : Token}
    (h : ∀ k ∈ [Kind.kwFor, .kwIf, .kwWhile, .kwReturn], ahead input ≠ some k)
    (hs : Stops (do
      if ← accept .leftBrace then return .block (← block depth)
      else if ← accept .kwPrint then printStatement depth
      else expressionStatement depth) n input t rest) :
    Stops (statement (depth + 1)) n input t rest := by
  unfold statement
  refine (Gives.accept_miss (h _ (by simp))).then_stops ((Gives.accept_miss (h _ (by simp))).then_stops
    ((Gives.accept_miss (h _ (by simp))).then_stops
      ((Gives.take?_miss (fun k => decide (k = .kwReturn)) fun k hk => decide_eq_false ?_).then_stops hs)))
  rintro rfl
  exact h _ (by simp) hk

theorem cutShort_simple (h : ExpressionGiven n w e m) : CutShort 1 statement n (w ++ [semicolon]) := by
  intro hlast depth t rest hdepth ht
  rw [List.length_append, List.length_singleton] at hdepth
  obtain ⟨depth, rfl⟩ := Nat.exists_eq_add_of_le' (show 1 ≤ depth by omega)
  rw [List.dropLast_concat]
  have hbegins := h.begins.append (t :: rest)
  refine stops_statement_past (fun k hk => hbegins.ahead_ne ?_)
    ((Gives.accept_miss (hbegins.ahead_ne rfl)).then_stops ((Gives.accept_miss (hbegins.ahead_ne rfl)).then_stops
      (h.stops_end (by omega) ht)))
  simp only [List.mem_cons, List.not_mem_nil, or_false] at hk
  obtain rfl | rfl | rfl | rfl := hk <;> rfl

theorem cutShort_print (hmark : mark.kind = .kwPrint) (h : ExpressionGiven n w e m) :
    CutShort 1 statement n (mark :: (w ++ [semicolon])) := by
  intro hlast depth t rest hdepth ht
  simp only [List.length_append, List.length_cons] at hdepth
  obtain ⟨depth, rfl⟩ := Nat.exists_eq_add_of_le' (show 1 ≤ depth by omega)
  rw [← List.cons_append, List.dropLast_concat]
  exact stops_statement_past (by simp [hmark]) ((Gives.accept_miss (by simp [hmark])).then_stops
    ((Gives.accept_hit hmark).then_stops (h.stops_end (by omega) ht)))

theorem cutShort_ret {value : Option Expr} (hmark : mark.kind = .kwReturn)
    (h : Optional ExpressionGiven n w m value) : CutShort 1 statement n (mark :: (w ++ [semicolon])) := by
  intro hlast depth t rest hdepth ht
  simp only [List.length_append, List.length_cons] at hdepth
  obtain ⟨depth, rfl⟩ := Nat.exists_eq_add_of_le' (show 1 ≤ depth by omega)
  rw [← List.cons_append, List.dropLast_concat, List.cons_append]
  unfold statement
  refine (Gives.accept_miss (by simp [hmark])).then_stops ((Gives.accept_miss (by simp [hmark])).then_stops
    ((Gives.accept_miss (by simp [hmark])).then_stops ((Gives.take?_hit (decide_eq_true hmark)).then_stops ?_)))
  cases value with
  | none =>
    obtain ⟨rfl, rfl⟩ := h
    exact (Stops.unlessNext (by simpa using ne_of_starts ht rfl) (stops_expression ht depth)).bind
  | some e =>
    have hvalue := Gives.unlessNext_miss ((h.begins.append (t :: rest)).ahead_ne (k := .semicolon) rfl)
      (h.gives depth (t :: rest) (by omega) (Ends.cons rfl (ends_of_starts ht)))
    exact hvalue.then_stops (Stops.expect (ne_of_starts ht rfl)).bind

/-! ## Branches and loops cut short -/

/-- A phrase that ends another ends in the same token. -/
theorem dropLast_behind (hv : v ≠ []) (rest : List Token) :
    (mark :: opening :: (u ++ closing :: v)).dropLast ++ rest =
      mark :: opening :: (u ++ closing :: (v.dropLast ++ rest)) := by
  rw [show mark :: opening :: (u ++ closing :: v) = (mark :: opening :: (u ++ [closing])) ++ v by simp,
    List.dropLast_append_of_ne_nil hv]
  simp

theorem LastIs.behind {kind : Kind} (hv : v ≠ []) (h : LastIs kind (mark :: opening :: (u ++ closing :: v))) :
    LastIs kind v := by
  rw [show mark :: opening :: (u ++ closing :: v) = (mark :: opening :: (u ++ [closing])) ++ v by simp] at h
  exact h.of_append hv

variable {condition : Expr}

/-- What stands behind a condition in its parentheses. -/
theorem ExpressionGiven.then_stops {depth : Nat} {opens closes : SyntaxError} {f : Expr → Parser Stmt}
    {input rest : List Token} {t : Token} (h : ExpressionGiven n u condition k) (hopening : opening.kind = .leftParen)
    (hclosing : closing.kind = .rightParen) (hdepth : 16 * u.length + 11 ≤ depth)
    (hf : Stops (f condition) k input t rest) :
    Stops (do expect .leftParen opens; let c ← expression depth; expect .rightParen closes; f c) n
      (opening :: (u ++ closing :: input)) t rest :=
  (Gives.expect_hit hopening).then_stops
    ((h.gives depth _ hdepth (Ends.cons hclosing (by decide))).then_stops
    ((Gives.expect_hit hclosing).then_stops hf))

theorem cutShort_ifThen (hmark : mark.kind = .kwIf) (hopening : opening.kind = .leftParen)
    (hcondition : ExpressionGiven n u condition k) (hclosing : closing.kind = .rightParen) (hv : v ≠ [])
    (h : CutShort 1 statement k v) : CutShort 1 statement n (mark :: opening :: (u ++ closing :: v)) := by
  intro hlast depth t rest hdepth ht
  simp only [List.length_cons, List.length_append] at hdepth
  obtain ⟨depth, rfl⟩ := Nat.exists_eq_add_of_le' (show 2 ≤ depth by omega)
  rw [dropLast_behind hv]
  unfold statement
  refine (Gives.accept_miss (by simp [hmark])).then_stops ((Gives.accept_hit hmark).then_stops ?_)
  unfold ifStatement
  exact hcondition.then_stops hopening hclosing (by omega) (h (hlast.behind hv) depth t rest (by omega) ht).bind

theorem cutShort_ifElse {mid : Token} {z : List Token} {yes : Stmt} (hmark : mark.kind = .kwIf)
    (hopening : opening.kind = .leftParen) (hcondition : ExpressionGiven n u condition k)
    (hclosing : closing.kind = .rightParen) (hyes : StatementGiven false k v yes l) (hmid : mid.kind = .kwElse)
    (hz : z ≠ []) (h : CutShort 1 statement l z) :
    CutShort 1 statement n (mark :: opening :: (u ++ closing :: (v ++ mid :: z))) := by
  intro hlast depth t rest hdepth ht
  simp only [List.length_cons, List.length_append] at hdepth
  obtain ⟨depth, rfl⟩ := Nat.exists_eq_add_of_le' (show 2 ≤ depth by omega)
  have hend : v ++ mid :: z = (v ++ [mid]) ++ z := by simp
  have hne : v ++ mid :: z ≠ [] := by simp
  have hlastz : LastIs .semicolon z := (hend ▸ hlast.behind hne).of_append hz
  rw [dropLast_behind hne, hend, List.dropLast_append_of_ne_nil hz, List.append_assoc, List.append_assoc]
  unfold statement
  refine (Gives.accept_miss (by simp [hmark])).then_stops ((Gives.accept_hit hmark).then_stops ?_)
  unfold ifStatement
  exact hcondition.then_stops hopening hclosing (by omega)
    ((hyes.gives depth _ (by omega) fun h => absurd h Bool.false_ne_true).then_stops
      (Stops.behind hmid (h hlastz depth t rest (by omega) ht)).bind)

theorem cutShort_loop (hmark : mark.kind = .kwWhile) (hopening : opening.kind = .leftParen)
    (hcondition : ExpressionGiven n u condition k) (hclosing : closing.kind = .rightParen) (hv : v ≠ [])
    (h : CutShort 1 statement k v) : CutShort 1 statement n (mark :: opening :: (u ++ closing :: v)) := by
  intro hlast depth t rest hdepth ht
  simp only [List.length_cons, List.length_append] at hdepth
  obtain ⟨depth, rfl⟩ := Nat.exists_eq_add_of_le' (show 2 ≤ depth by omega)
  rw [dropLast_behind hv]
  unfold statement
  refine (Gives.accept_miss (by simp [hmark])).then_stops ((Gives.accept_miss (by simp [hmark])).then_stops
    ((Gives.accept_hit hmark).then_stops ?_))
  unfold whileStatement
  exact hcondition.then_stops hopening hclosing (by omega) (h (hlast.behind hv) depth t rest (by omega) ht).bind

theorem cutShort_forLoop {i c : List Token} {start : Option Stmt} {condition increment : Option Expr} {k' k'' : Nat}
    (hmark : mark.kind = .kwFor) (hopening : opening.kind = .leftParen) (hstart : ForStartGiven n i start k)
    (hcondition : Optional ExpressionGiven k c k' condition) (hsemicolon : semicolon.kind = .semicolon)
    (hincrement : Optional ExpressionGiven k' u k'' increment) (hclosing : closing.kind = .rightParen) (hv : v ≠ [])
    (h : CutShort 1 statement k'' v) :
    CutShort 1 statement n (mark :: opening :: (i ++ (c ++ semicolon :: (u ++ closing :: v)))) := by
  intro hlast depth t rest hdepth ht
  simp only [List.length_cons, List.length_append] at hdepth
  obtain ⟨depth, rfl⟩ := Nat.exists_eq_add_of_le' (show 2 ≤ depth by omega)
  have hflat : i ++ (c ++ semicolon :: (u ++ closing :: v)) = (i ++ (c ++ semicolon :: u)) ++ closing :: v := by simp
  rw [hflat] at hlast ⊢
  rw [dropLast_behind hv]
  simp only [List.append_assoc, List.cons_append]
  unfold statement
  refine (Gives.accept_hit hmark).then_stops ?_
  unfold forStatement
  exact (Gives.expect_hit hopening).then_stops ((hstart depth _ (by omega)).then_stops
    ((gives_unlessNext hcondition hsemicolon rfl (by omega) (Ends.cons hsemicolon (by decide))).then_stops
    ((Gives.expect_hit hsemicolon).then_stops
    ((gives_unlessNext hincrement hclosing rfl (by omega) (Ends.cons hclosing (by decide))).then_stops
    ((Gives.expect_hit hclosing).then_stops (h (hlast.behind hv) depth t rest (by omega) ht).bind)))))

/-! ## Declarations cut short -/

theorem Begins.ne_nil {starts : Kind → Bool} (h : Begins starts w) : w ≠ [] := by
  obtain ⟨t, v, rfl, -⟩ := h
  exact List.cons_ne_nil t v

theorem cutShort_declareVar (hmark : mark.kind = .kwVar) {name : Token} {initializer : Option Expr}
    (hname : name.kind = .identifier) (h : Optional (Behind .equal ExpressionGiven) n w m initializer) :
    CutShort 2 declared n (mark :: name :: (w ++ [semicolon])) := by
  intro hlast depth t rest hdepth ht
  rw [List.length_cons] at hdepth
  obtain ⟨depth, rfl⟩ := Nat.exists_eq_add_of_le' (show 1 ≤ depth by omega)
  have hvar := cutShort_var hname h (hlast.of_append (u := [mark]) (List.cons_ne_nil _ _)) depth t rest (by omega) ht
  unfold declared
  exact (Gives.accept_miss (by simp [hmark])).then_stops ((Gives.accept_miss (by simp [hmark])).then_stops
    ((Gives.accept_hit hmark).then_stops hvar))

theorem cutShort_declareNothing (hbegins : Begins startsStatement w) (h : CutShort 1 statement n w) :
    CutShort 2 declared n w := by
  intro hlast depth t rest hdepth ht
  obtain ⟨depth, rfl⟩ := Nat.exists_eq_add_of_le' (show 1 ≤ depth by omega)
  have hahead := (hbegins.dropLast hlast rfl).append (t :: rest)
  unfold declared
  exact (Gives.accept_miss (hahead.ahead_ne rfl)).then_stops ((Gives.accept_miss (hahead.ahead_ne rfl)).then_stops
    ((Gives.accept_miss (hahead.ahead_ne rfl)).then_stops (h hlast depth t rest (by omega) ht)))

/-- What is given as a whole declaration, and is given up where its semicolon is missing. -/
def Severable (n : Nat) (w : List Token) (s : Stmt) (m : Nat) : Prop :=
  DeclarationGiven n w s m ∧ CutShort 2 declared n w

/-- Statements at the end of others are cut short with them. -/
def EndsCutShort : (p : Phrase) → Nat → List Token → p.Tree → Nat → Prop
  | .statement _, n, w, _, _ => CutShort 1 statement n w
  | .after _ (.statement _), n, w, _, _ => ∃ mark v, w = mark :: v ∧ CutShort 1 statement n v
  | .declaration, n, w, _, _ => CutShort 2 declared n w
  | .many .declaration, n, w, trees, m => Repeated Severable n w trees m
  | _, _, _, _, _ => True

theorem endsCutShort_of_reading {p : Phrase} {tree : p.Tree} (h : Reading p n w tree m) :
    EndsCutShort p n w tree m := by
  induction h with
  | @manyNil p n =>
    cases p with
    | declaration => exact .nil
    | _ => exact True.intro
  | @manyCons p n u tree k v trees m h hs ih ihs =>
    cases p with
    | declaration => exact .cons ⟨given_of_reading h, ih⟩ ihs
    | _ => exact True.intro
  | @after kind p n mark w tree m hmark h ih =>
    cases p with
    | statement isOpen => exact ⟨mark, w, rfl, ih⟩
    | _ => exact True.intro
  | simple h =>
    cases h with
    | expressionStatement h hend => exact cutShort_simple (given_of_reading h)
  | print hmark h => exact cutShort_print hmark (given_of_reading h)
  | ret hmark h => exact cutShort_ret hmark (given_of_reading h)
  | @block n opening w body closing m hopening h hclosing =>
    exact .of_not (not_lastIs (t := closing) (by rw [hclosing]; nofun) (by simp [List.getLast?_cons]))
  | ifThen hmark hopening hcondition hclosing h _ ih =>
    exact cutShort_ifThen hmark hopening (given_of_reading hcondition) hclosing (given_of_reading h).begins.ne_nil ih
  | ifElse hmark hopening hcondition hclosing hyes hno _ _ ihno =>
    obtain ⟨mid, z, rfl, ihno⟩ := ihno
    cases hno with
    | after hmid hno =>
      exact cutShort_ifElse hmark hopening (given_of_reading hcondition) hclosing (given_of_reading hyes) hmid
        (given_of_reading hno).begins.ne_nil ihno
  | loop hmark hopening hcondition hclosing h _ ih =>
    exact cutShort_loop hmark hopening (given_of_reading hcondition) hclosing (given_of_reading h).begins.ne_nil ih
  | forLoop hmark hopening hstart hcondition hsemicolon hincrement hclosing h _ _ _ ih =>
    exact cutShort_forLoop hmark hopening (given_of_reading hstart) (given_of_reading hcondition) hsemicolon
      (given_of_reading hincrement) hclosing (given_of_reading h).begins.ne_nil ih
  | @declareClass _ _ _ _ _ _ _ _ _ stop _ hmark hname hparent hstart h hstop =>
    exact .of_not (not_lastIs (t := stop) (by rw [hstop]; nofun) (by simp [List.getLast?_cons, List.getLast?_append]))
  | declareFun hmark h =>
    cases h with
    | @function _ _ _ _ _ _ _ _ _ _ stop _ hname hopening hparams hlength hclosing hstart h hstop =>
      exact .of_not (not_lastIs (t := stop) (by rw [hstop]; nofun)
        (by simp [List.getLast?_cons, List.getLast?_append]))
  | declareVar hmark h =>
    cases h with
    | varDeclaration hname h hend => exact cutShort_declareVar hmark hname (given_of_reading h)
  | declareNothing h ih => exact cutShort_declareNothing (given_of_reading h).begins ih
  | _ => exact True.intro

end Lox.Parser
