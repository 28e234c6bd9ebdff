import Lox.Proofs.Splicing.Tokens
import Lox.Proofs.Syntax.Labels
import Lox.Proofs.Syntax.Parsing

/-!
# Trees of texts on top of each other

The declarations of two texts follow each other. The references of the second text get the identities
that they get when it is parsed after the first.
-/
namespace Lox

def Token.relabel (φ : Labels) (t : Token) : Token := { t with line := φ.line t.line }

/-- Identities from `n` on and below `m` stay as they are. -/
def Labels.Fixes (φ : Labels) (n m : Nat) : Prop := ∀ id, n ≤ id → id < m → φ.id id = id

theorem Labels.Fixes.part {φ : Labels} {n m k l : Nat} (hid : φ.Fixes n m) (hk : n ≤ k) (hl : l ≤ m) :
    φ.Fixes k l :=
  fun id h₁ h₂ => hid id (hk.trans h₁) (h₂.trans_le hl)

theorem Labels.Fixes.next {φ : Labels} {n : Nat} (hid : φ.Fixes n (n + 1)) : φ.id n = n :=
  hid n le_rfl n.lt_succ_self

namespace Reading

variable {p : Phrase} {n m : Nat} {w : List Token} {t : p.Tree}

theorem le (h : Reading p n w t m) : n ≤ m := by
  induction h <;> omega

/-- Lines play no part in parsing. -/
theorem relabel {φ : Labels} (h : Reading p n w t m) (hid : φ.Fixes n m) :
    Reading p n (w.map (Token.relabel φ)) (p.relabel φ t) m := by
  induction h with
  | optNone => exact .optNone
  | optSome h ih => exact .optSome (ih hid)
  | manyNil => exact .manyNil
  | manyCons h hs ih ihs =>
    rw [List.map_append]
    exact .manyCons (ih (hid.part le_rfl hs.le)) (ihs (hid.part h.le le_rfl))
  | separatedOne h ih => exact .separatedOne (ih hid)
  | separatedMore h hcomma hs ih ihs =>
    rw [List.map_append]
    exact .separatedMore (ih (hid.part le_rfl hs.le)) hcomma (ihs (hid.part h.le le_rfl))
  | after hmark h ih => exact .after hmark (ih hid)
  | ident hname => exact .ident hname
  | @reference n name hname =>
    change Reading .reference n _ ⟨φ.id n, _⟩ (n + 1)
    rw [hid.next]
    exact .reference hname
  | @assignName n name equals w value m hname hequals h ih =>
    change Reading (.expression .assignment) n _ (.assign ⟨φ.id m, _⟩ (value.relabel φ)) (m + 1)
    rw [(hid.part (n.le_succ.trans h.le) le_rfl).next]
    exact .assignName hname hequals (ih (hid.part n.le_succ m.le_succ))
  | assignField hobject hdot hname hequals h ihobject ih =>
    rw [List.map_append]
    exact .assignField (ihobject (hid.part le_rfl h.le)) hdot hname hequals
      (ih (hid.part hobject.le le_rfl))
  | loosest h ih => exact .loosest (ih hid)
  | tighter hl h ih => exact .tighter hl (ih hid)
  | @joined l n u left k sign op v right m hleft hop hright ihleft ihright =>
    change Reading (.expression (.level l)) n _ ((op.join sign.line left right).relabel φ) m
    rw [List.map_append, Connective.relabel_join]
    exact .joined (ihleft (hid.part le_rfl hright.le)) hop (ihright (hid.part hleft.le le_rfl))
  | tightest h ih => exact .tightest (ih hid)
  | prefixed hop h ih => exact .prefixed hop (ih hid)
  | unprefixed h ih => exact .unprefixed (ih hid)
  | callee h ih => exact .callee (ih hid)
  | @call n u callee k opening v args closing m hcallee hopening h hargs hclosing ihcallee ih =>
    have hrelabel : Expr.relabelAll φ (args.getD []) = (args.map (List.map (Expr.relabel φ))).getD [] := by
      rw [Expr.relabelAll_eq_map]
      cases args <;> rfl
    change Reading (.expression .call) n _
      (.call (callee.relabel φ) (φ.line closing.line) (Expr.relabelAll φ (args.getD []))) m
    rw [hrelabel, List.map_append, List.map_cons, List.map_append]
    refine .call (ihcallee (hid.part le_rfl h.le)) hopening (ih (hid.part hcallee.le le_rfl)) ?_ hclosing
    rw [← hrelabel, Expr.relabelAll_eq_map, List.length_map]
    exact hargs
  | get h hdot hname ih =>
    rw [List.map_append]
    exact .get (ih hid) hdot hname
  | literal ht => exact .literal ht
  | @this n t ht =>
    change Reading (.expression .primary) n _ (.this ⟨φ.id n, _⟩) (n + 1)
    rw [hid.next]
    exact .this ht
  | @«variable» n t ht =>
    change Reading (.expression .primary) n _ (.variable ⟨φ.id n, _⟩) (n + 1)
    rw [hid.next]
    exact .variable ht
  | @super n t dot method ht hdot hmethod =>
    change Reading (.expression .primary) n _ (.super ⟨φ.id n, _⟩ _) (n + 1)
    rw [hid.next]
    exact .super ht hdot hmethod
  | grouping hopening h hclosing ih =>
    rw [List.map_cons, List.map_append]
    exact .grouping hopening (ih hid) hclosing
  | expressionStatement h hend ih =>
    rw [List.map_append]
    exact .expressionStatement (ih hid) hend
  | varDeclaration hname h hend ih =>
    rw [List.map_cons, List.map_append]
    exact .varDeclaration hname (ih hid) hend
  | forNone hend => exact .forNone hend
  | forVar hmark h ih => exact .forVar hmark (ih hid)
  | forExpression h ih => exact .forExpression (ih hid)
  | simple h ih => exact .simple (ih hid)
  | print hmark h hend ih =>
    rw [List.map_cons, List.map_append]
    exact .print hmark (ih hid) hend
  | ret hmark h hend ih =>
    rw [List.map_cons, List.map_append]
    exact .ret hmark (ih hid) hend
  | @block n opening w body closing m hopening h hclosing ih =>
    change Reading (.statement false) n _ (.block (Stmt.relabelAll φ body)) m
    rw [List.map_cons, List.map_append, Stmt.relabelAll_eq_map]
    exact .block hopening (ih hid) hclosing
  | ifThen hmark hopening hcondition hclosing h ihcondition ih =>
    rw [List.map_cons, List.map_cons, List.map_append]
    exact .ifThen hmark hopening (ihcondition (hid.part le_rfl h.le)) hclosing
      (ih (hid.part hcondition.le le_rfl))
  | ifElse hmark hopening hcondition hclosing hyes hno ihcondition ihyes ihno =>
    rw [List.map_cons, List.map_cons, List.map_append, List.map_cons, List.map_append]
    exact .ifElse hmark hopening (ihcondition (hid.part le_rfl (hyes.le.trans hno.le))) hclosing
      (ihyes (hid.part hcondition.le hno.le)) (ihno (hid.part (hcondition.le.trans hyes.le) le_rfl))
  | loop hmark hopening hcondition hclosing h ihcondition ih =>
    rw [List.map_cons, List.map_cons, List.map_append]
    exact .loop hmark hopening (ihcondition (hid.part le_rfl h.le)) hclosing
      (ih (hid.part hcondition.le le_rfl))
  | @forLoop n mark opening i start k c condition semicolon k' u increment closing k'' isOpen v body m
      hmark hopening hstart hcondition hsemicolon hincrement hclosing h ihstart ihcondition ihincrement
      ih =>
    change Reading (.statement isOpen) n _ ((Stmt.forLoop start condition increment body).relabel φ) m
    rw [Stmt.relabel_forLoop, List.map_cons, List.map_cons, List.map_append, List.map_append,
      List.map_cons, List.map_append]
    have h₁ := hstart.le
    have h₂ := hcondition.le
    have h₃ := hincrement.le
    have h₄ := h.le
    exact .forLoop hmark hopening (ihstart (hid.part le_rfl (by omega)))
      (ihcondition (hid.part h₁ (by omega))) hsemicolon
      (ihincrement (hid.part (by omega) h₄)) hclosing (ih (hid.part (by omega) le_rfl))
  | @function n name opening w params k closing start v body stop m hname hopening hparams hlength
      hclosing hstart h hstop ihparams ih =>
    have hrelabel : (params.getD []).map (Ident.relabel φ) =
        (params.map (List.map (Ident.relabel φ))).getD [] := by
      cases params <;> rfl
    change Reading .function n _
      ⟨name.ident.relabel φ, (params.getD []).map (Ident.relabel φ), Stmt.relabelAll φ body⟩ m
    rw [hrelabel, Stmt.relabelAll_eq_map, List.map_cons, List.map_cons, List.map_append, List.map_cons,
      List.map_cons, List.map_append]
    refine .function hname hopening (ihparams (hid.part le_rfl h.le)) ?_ hclosing hstart
      (ih (hid.part hparams.le le_rfl)) hstop
    rw [← hrelabel, List.length_map]
    exact hlength
  | @declareClass n mark name w parent k start v methods stop m hmark hname hparent hstart h hstop
      ihparent ih =>
    change Reading .declaration n _
      (.classDecl _ (parent.map (Reference.relabel φ)) (FunctionDecl.relabelAll φ methods)) m
    rw [FunctionDecl.relabelAll_eq_map, List.map_cons, List.map_cons, List.map_append, List.map_cons,
      List.map_append]
    exact .declareClass hmark hname (ihparent (hid.part le_rfl h.le)) hstart
      (ih (hid.part hparent.le le_rfl)) hstop
  | declareFun hmark h ih => exact .declareFun hmark (ih hid)
  | declareVar hmark h ih => exact .declareVar hmark (ih hid)
  | declareNothing h ih => exact .declareNothing (ih hid)

theorem append {ts : List p.Tree} {k : Nat} {v : List Token} {us : List p.Tree}
    (h : Reading (.many p) n w ts k) (h' : Reading (.many p) k v us m) :
    Reading (.many p) n (w ++ v) (ts ++ us) m := by
  induction ts generalizing n w with
  | nil =>
    cases h
    exact h'
  | cons t ts ih =>
    cases h with
    | manyCons ht hts =>
      rw [List.append_assoc, List.cons_append]
      exact .manyCons ht (ih hts)

end Reading

/-! ## Programs -/

variable {n m k : Nat} {above below source : String} {tree tree' : List Stmt}

/-- The tree of a text without lexical or syntax errors, and the next identity. -/
def Parses (n : Nat) (source : String) (tree : List Stmt) (m : Nat) : Prop :=
  (tokenize source).2 = [] ∧ parseProgram n (tokenize source).1 = ⟨tree, [], m⟩

theorem parses_iff : Parses n source tree m ↔
    (tokenize source).2 = [] ∧ Reading (.many .declaration) n (words source) tree m := by
  unfold Parses
  rw [Parser.parseProgram_eq_iff, rest_tokenize]

theorem map_relabel_words {φ : Labels} (hline : φ.line = id) :
    (words source).map (Token.relabel φ) = words source := by
  refine (List.map_congr_left fun t _ => ?_).trans (List.map_id _)
  unfold Token.relabel
  rw [hline]
  rfl

theorem Token.map_lower (k : Nat) (w : List Token) :
    w.map (Token.lower k) = w.map (Token.relabel ⟨(· + k), id⟩) := rfl

namespace Parses

theorem le (h : Parses n source tree m) : n ≤ m := (parses_iff.1 h).2.le

/-- Below `k` empty lines everything is `k` lines further down. -/
theorem pushed (h : Parses n source tree m) (k : Nat) :
    Parses n (pushed k source) (tree.map (·.relabel ⟨(· + k), id⟩)) m := by
  obtain ⟨hlexical, hread⟩ := parses_iff.1 h
  refine parses_iff.2 ⟨lexical_pushed k hlexical, ?_⟩
  rw [words_pushed, Token.map_lower]
  exact hread.relabel fun _ _ _ => rfl

theorem append (h : Parses n above tree k) (h' : Parses k below tree' m) :
    Parses n (above ++ "\n" ++ below)
      (tree ++ tree'.map (·.relabel ⟨(· + (1 + Item.newlines above.toList)), id⟩)) m := by
  obtain ⟨hlexical, hread⟩ := parses_iff.1 h
  obtain ⟨-, hread'⟩ := parses_iff.1 (h'.pushed (1 + Item.newlines above.toList))
  refine parses_iff.2 ⟨lexical_below hlexical h'.1, ?_⟩
  rw [words_below hlexical]
  exact hread.append hread'

/-- The references of a tree have the identities that parsing has given out for it. -/
theorem relabel {φ : Labels} (h : Parses n source tree m) (hline : φ.line = id) (hid : φ.Fixes n m) :
    tree.map (·.relabel φ) = tree := by
  have hread := (parses_iff.1 h).2.relabel hid
  rw [map_relabel_words hline] at hread
  have heq := (parses_iff.2 ⟨h.1, hread⟩).2
  rw [h.2] at heq
  exact (congrArg Parsed.tree heq).symm

end Parses

theorem relabel_of_parseExpression {φ : Labels} {e : Expr}
    (h : parseExpression n (tokenize source).1 = ⟨some e, [], m⟩) (hline : φ.line = id)
    (hid : φ.Fixes n m) : e.relabel φ = e := by
  have hread := (Parser.parseExpression_eq_iff.1 h).relabel hid
  rw [rest_tokenize, map_relabel_words hline, ← rest_tokenize (n := n)] at hread
  have heq := Parser.parseExpression_eq_iff.2 hread
  rw [h] at heq
  exact (Option.some.inj (congrArg Parsed.tree heq)).symm

end Lox
