import Lox.Proofs.Scoping.Surroundings
import Lox.Proofs.Splicing.Trees
import Mathlib.Data.List.Nodup

/-!
# The trees of texts

What is around a reference says nothing of which reference it is. Where the grammar asks for a statement
nothing is declared, and what is declared has a plain name.
-/
namespace Lox

open Surrounding (declare)

/-! ## References do not depend on what is around -/

theorem Expr.occurrences_fst (around : List Surrounding) (e : Expr) :
    (e.occurrences around).map Prod.fst = e.references := by
  unfold occurrences
  rw [List.map_map]
  exact List.map_id _

theorem Expr.occurrencesOption_fst (around : List Surrounding) (e : Option Expr) :
    (Expr.occurrencesOption around e).map Prod.fst = e.elim [] Expr.references := by
  cases e with
  | none => rfl
  | some e => exact e.occurrences_fst around

mutual

theorem Stmt.occurrences_fst (around : List Surrounding) (s : Stmt) :
    (s.occurrences around).map Prod.fst = s.references := by
  cases s with
  | expression e | print e => exact e.occurrences_fst around
  | var name value | ret line value => exact Expr.occurrencesOption_fst around value
  | block body => exact Stmt.occurrencesAll_fst _ body
  | branch condition yes no =>
    cases no with
    | none =>
      rw [Stmt.occurrences, List.map_append, Expr.occurrences_fst, Stmt.occurrences_fst around yes]
      rfl
    | some no =>
      rw [Stmt.occurrences, List.map_append, List.map_append, Expr.occurrences_fst,
        Stmt.occurrences_fst around yes, Stmt.occurrences_fst around no]
      rfl
  | loop condition body =>
    rw [Stmt.occurrences, List.map_append, Expr.occurrences_fst, Stmt.occurrences_fst around body]
    rfl
  | function decl => exact FunctionDecl.occurrences_fst _ decl
  | classDecl name superclass methods =>
    cases superclass with
    | none => exact FunctionDecl.occurrencesAll_fst _ methods
    | some parent => exact congrArg (parent :: ·) (FunctionDecl.occurrencesAll_fst _ methods)

theorem Stmt.occurrencesAll_fst (around : List Surrounding) (body : List Stmt) :
    (Stmt.occurrencesAll around body).map Prod.fst = Stmt.referencesAll body := by
  cases body with
  | nil => rfl
  | cons s rest =>
    rw [Stmt.occurrencesAll, List.map_append, Stmt.occurrences_fst around s,
      Stmt.occurrencesAll_fst _ rest]
    rfl

theorem FunctionDecl.occurrences_fst (around : List Surrounding) (decl : FunctionDecl) :
    (decl.occurrences around).map Prod.fst = decl.references := by
  obtain ⟨name, params, body⟩ := decl
  exact Stmt.occurrencesAll_fst _ body

theorem FunctionDecl.occurrencesAll_fst (around : List Surrounding) (methods : List FunctionDecl) :
    (FunctionDecl.occurrencesAll around methods).map Prod.fst = FunctionDecl.referencesAll methods := by
  cases methods with
  | nil => rfl
  | cons method rest =>
    rw [FunctionDecl.occurrencesAll, List.map_append, FunctionDecl.occurrences_fst _ method,
      FunctionDecl.occurrencesAll_fst _ rest]
    rfl

end

/-! ## Trees as the grammar has them -/

/-- Nothing is asked of references. -/
abbrev Anywhere : List Surrounding → Reference → Prop := fun _ _ => True

/-- The trees of a phrase fit, wherever they stand. -/
def Phrase.Fits : (p : Phrase) → p.Tree → Prop
  | .ident => Ident.Plain
  | .reference => fun ref => ref.name.Plain
  | .expression _ => Expr.Fits fun _ => True
  | .expressionStatement | .statement _ => fun s => (∀ around, s.Fits Anywhere around) ∧ s.declared = []
  | .varDeclaration | .declaration => fun s => ∀ around, s.Fits Anywhere around
  | .forStart => fun s => ∀ s' ∈ s, ∀ around, s'.Fits Anywhere around
  | .function => fun decl => decl.name.Plain ∧ ∀ around, decl.Fits Anywhere around
  | .opt p => fun t => ∀ t' ∈ t, p.Fits t'
  | .many p | .separated p => fun ts => ∀ t ∈ ts, p.Fits t
  | .after _ p => p.Fits

theorem Expr.fitsAll_of_mem {P : Reference → Prop} {es : List Expr} (h : ∀ e ∈ es, e.Fits P) :
    Expr.FitsAll P es := by
  induction es with
  | nil => trivial
  | cons e rest ih => exact ⟨h e List.mem_cons_self, ih fun e he => h e (List.mem_cons_of_mem _ he)⟩

theorem Stmt.fitsAll_of_mem {P : List Surrounding → Reference → Prop} {around : List Surrounding}
    {body : List Stmt} (h : ∀ s ∈ body, ∀ around, s.Fits P around) : Stmt.FitsAll P around body := by
  induction body generalizing around with
  | nil => trivial
  | cons s rest ih =>
    exact ⟨h s List.mem_cons_self around, ih fun s hs => h s (List.mem_cons_of_mem _ hs)⟩

theorem FunctionDecl.fitsAll_of_mem {P : List Surrounding → Reference → Prop}
    {around : List Surrounding} {methods : List FunctionDecl}
    (h : ∀ decl ∈ methods, ∀ around, decl.Fits P around) : FunctionDecl.FitsAll P around methods := by
  induction methods with
  | nil => trivial
  | cons method rest ih =>
    exact ⟨h method List.mem_cons_self _, ih fun decl hd => h decl (List.mem_cons_of_mem _ hd)⟩

theorem Connective.fits_join {P : Reference → Prop} {left right : Expr} (hleft : left.Fits P)
    (hright : right.Fits P) (op : Connective) (line : Nat) : (op.join line left right).Fits P := by
  cases op <;> exact ⟨hleft, hright⟩

theorem Stmt.fits_forLoop {start : Option Stmt} {condition increment : Option Expr} {body : Stmt}
    (hstart : ∀ s ∈ start, ∀ around, s.Fits Anywhere around)
    (hcondition : ∀ e ∈ condition, e.Fits fun _ => True)
    (hincrement : ∀ e ∈ increment, e.Fits fun _ => True)
    (hbody : (∀ around, body.Fits Anywhere around) ∧ body.declared = []) :
    (∀ around, (Stmt.forLoop start condition increment body).Fits Anywhere around) ∧
      (Stmt.forLoop start condition increment body).declared = [] := by
  have htest : (condition.getD (.literal (.boolean true))).Fits fun _ => True := by
    cases condition with
    | none => trivial
    | some e => exact hcondition e rfl
  -- What is done in one round.
  have hround : ∀ round : Stmt, (∀ around, round.Fits Anywhere around) ∧ round.declared = [] →
      (∀ around, (Stmt.forLoop start condition none round).Fits Anywhere around) ∧
        (Stmt.forLoop start condition none round).declared = [] := by
    rintro round ⟨hfits, hnone⟩
    cases start with
    | none => exact ⟨fun around => ⟨htest, hfits around, hnone⟩, hnone⟩
    | some s => exact ⟨fun around => ⟨hstart s rfl _, ⟨htest, hfits _, hnone⟩, trivial⟩, rfl⟩
  cases increment with
  | none => exact hround body hbody
  | some e =>
    exact hround _ ⟨fun around => ⟨hbody.1 _, hincrement e rfl, trivial⟩, rfl⟩

theorem Token.Spelled.ofWord {t : Token} {kind : Kind} (h : t.Spelled) (hkind : t.kind = kind)
    (hreferring : kind ∈ Kind.referring) : Kind.ofWord t.lexeme = kind := by
  subst hkind
  exact h hreferring

theorem Token.Spelled.this {t : Token} (h : t.Spelled) (hkind : t.kind = .kwThis) : t.lexeme = "this" := by
  have hreserved : ∀ entry ∈ Kind.reserved, entry.2 = .kwThis → entry.1 = "this" := by decide
  exact hreserved _ (Piece.mem_reserved_of_ofWord (h.ofWord hkind (by decide)) nofun) rfl

theorem Token.Spelled.super {t : Token} (h : t.Spelled) (hkind : t.kind = .kwSuper) : t.lexeme = "super" := by
  have hreserved : ∀ entry ∈ Kind.reserved, entry.2 = .kwSuper → entry.1 = "super" := by decide
  exact hreserved _ (Piece.mem_reserved_of_ofWord (h.ofWord hkind (by decide)) nofun) rfl

theorem Token.Spelled.plain {t : Token} (h : t.Spelled) (hkind : t.kind = .identifier) : t.ident.Plain := by
  have hword : Kind.ofWord t.lexeme = .identifier := h.ofWord hkind (by decide)
  constructor
  · intro hthis
    rw [show t.lexeme = "this" from hthis] at hword
    cases hword
  · intro hsuper
    rw [show t.lexeme = "super" from hsuper] at hword
    cases hword

theorem Reading.fits {p : Phrase} {n m : Nat} {w : List Token} {t : p.Tree} (h : Reading p n w t m)
    (hwords : ∀ t ∈ w, t.Spelled) : p.Fits t := by
  induction h with
  | optNone | manyNil | forNone => nofun
  | ident hname => exact (hwords _ List.mem_cons_self).plain hname
  | reference hname => exact (hwords _ List.mem_cons_self).plain hname
  | literal => trivial
  | «variable» hname => exact ⟨(hwords _ List.mem_cons_self).plain hname, trivial⟩
  | this ht => exact ⟨(hwords _ List.mem_cons_self).this ht, trivial⟩
  | optSome h ih =>
    rintro t' ht'
    cases Option.mem_def.1 ht'
    exact ih hwords
  | manyCons h hs ih ihs =>
    exact List.forall_mem_cons.2 ⟨ih fun t ht => hwords t (List.mem_append_left _ ht),
      ihs fun t ht => hwords t (List.mem_append_right _ ht)⟩
  | separatedOne h ih => exact List.forall_mem_singleton.2 (ih hwords)
  | separatedMore h hcomma hs ih ihs =>
    exact List.forall_mem_cons.2 ⟨ih fun t ht => hwords t (by simp [ht]),
      ihs fun t ht => hwords t (by simp [ht])⟩
  | after hmark h ih => exact ih fun t ht => hwords t (by simp [ht])
  | assignName hname hequals h ih =>
    exact ⟨ih fun t ht => hwords t (by simp [ht]), (hwords _ List.mem_cons_self).plain hname, trivial⟩
  | assignField hobject hdot hname hequals h ihobject ih =>
    exact ⟨ih fun t ht => hwords t (by simp [ht]), ihobject fun t ht => hwords t (by simp [ht])⟩
  | loosest h ih | tighter hl h ih | tightest h ih | unprefixed h ih | callee h ih => exact ih hwords
  | joined hleft hop hright ihleft ihright =>
    exact Connective.fits_join (ihleft fun t ht => hwords t (by simp [ht]))
      (ihright fun t ht => hwords t (by simp [ht])) _ _
  | prefixed hop h ih | get h hdot hname ih | grouping hopening h hclosing ih =>
    exact ih fun t ht => hwords t (by simp [ht])
  | @call n u callee k opening v args closing m hcallee hopening h hargs hclosing ihcallee ih =>
    have hall := ih fun t ht => hwords t (by simp [ht])
    refine ⟨ihcallee fun t ht => hwords t (by simp [ht]), Expr.fitsAll_of_mem fun e he => ?_⟩
    cases args with
    | none => cases he
    | some args => exact hall args rfl e he
  | super ht hdot hmethod => exact ⟨(hwords _ List.mem_cons_self).super ht, trivial⟩
  | expressionStatement h hend ih =>
    exact ⟨fun _ => ih fun t ht => hwords t (by simp [ht]), rfl⟩
  | varDeclaration hname h hend ih =>
    exact fun _ => ⟨(hwords _ List.mem_cons_self).plain hname, ih fun t ht => hwords t (by simp [ht])⟩
  | forVar hmark h ih =>
    rintro s hs
    cases Option.mem_def.1 hs
    exact ih fun t ht => hwords t (by simp [ht])
  | forExpression h ih =>
    rintro s hs
    cases Option.mem_def.1 hs
    exact (ih hwords).1
  | simple h ih => exact ih hwords
  | print hmark h hend ih => exact ⟨fun _ => ih fun t ht => hwords t (by simp [ht]), rfl⟩
  | ret hmark h hend ih => exact ⟨fun _ => ih fun t ht => hwords t (by simp [ht]), rfl⟩
  | block hopening h hclosing ih =>
    exact ⟨fun _ => Stmt.fitsAll_of_mem (ih fun t ht => hwords t (by simp [ht])), rfl⟩
  | ifThen hmark hopening hcondition hclosing h ihcondition ih =>
    obtain ⟨hyes, hnone⟩ := ih fun t ht => hwords t (by simp [ht])
    exact ⟨fun around => ⟨ihcondition fun t ht => hwords t (by simp [ht]), hyes around, hnone⟩, hnone⟩
  | ifElse hmark hopening hcondition hclosing hyes hno ihcondition ihyes ihno =>
    obtain ⟨hyes, hyesNone⟩ := ihyes fun t ht => hwords t (by simp [ht])
    obtain ⟨hno, hnoNone⟩ := ihno fun t ht => hwords t (by simp [ht])
    refine ⟨fun around => ⟨ihcondition fun t ht => hwords t (by simp [ht]),
      ⟨hyes around, hyesNone⟩, hno around, hnoNone⟩, ?_⟩
    rw [Stmt.declared, hyesNone, hnoNone]
    rfl
  | loop hmark hopening hcondition hclosing h ihcondition ih =>
    obtain ⟨hbody, hnone⟩ := ih fun t ht => hwords t (by simp [ht])
    exact ⟨fun around => ⟨ihcondition fun t ht => hwords t (by simp [ht]), hbody around, hnone⟩, hnone⟩
  | forLoop hmark hopening hstart hcondition hsemicolon hincrement hclosing h ihstart ihcondition
      ihincrement ih =>
    exact Stmt.fits_forLoop (ihstart fun t ht => hwords t (by simp [ht]))
      (ihcondition fun t ht => hwords t (by simp [ht]))
      (ihincrement fun t ht => hwords t (by simp [ht])) (ih fun t ht => hwords t (by simp [ht]))
  | @function n name opening w params k closing start v body stop m hname hopening hparams hlength
      hclosing hstart h hstop ihparams ih =>
    have hplain := ihparams fun t ht => hwords t (by simp [ht])
    have hbody := ih fun t ht => hwords t (by simp [ht])
    refine ⟨(hwords _ List.mem_cons_self).plain hname, fun _ => ⟨fun param hparam => ?_,
      Stmt.fitsAll_of_mem hbody⟩⟩
    cases params with
    | none => cases hparam
    | some params => exact hplain params rfl param hparam
  | @declareClass n mark name w parent k start v methods stop m hmark hname hparent hstart h hstop
      ihparent ih =>
    have hplain : name.ident.Plain := (hwords _ (by simp)).plain hname
    have hmethods : ∀ decl ∈ methods, ∀ around, decl.Fits Anywhere around := fun decl hd =>
      (ih (fun t ht => hwords t (by simp [ht])) decl hd).2
    intro around
    cases parent with
    | none => exact ⟨hplain, FunctionDecl.fitsAll_of_mem hmethods⟩
    | some parent =>
      have hname : parent.name.Plain := ihparent (fun t ht => hwords t (by simp [ht])) parent rfl
      exact ⟨hplain, ⟨hname, trivial⟩, FunctionDecl.fitsAll_of_mem hmethods⟩
  | declareFun hmark h ih =>
    obtain ⟨hplain, hfits⟩ := ih fun t ht => hwords t (by simp [ht])
    exact fun _ => ⟨hplain, hfits _⟩
  | declareVar hmark h ih => exact ih fun t ht => hwords t (by simp [ht])
  | declareNothing h ih => exact (ih hwords).1

/-! ## Texts -/

variable {n m : Nat} {source : String} {tree : List Stmt} {e : Expr}

theorem Parses.fits (h : Parses n source tree m) : Stmt.FitsAll Anywhere [] tree :=
  Stmt.fitsAll_of_mem ((parses_iff.1 h).2.fits spelled_words)

theorem reading_of_parseExpression (h : parseExpression n (tokenize source).1 = ⟨some e, [], m⟩) :
    Reading (.expression .assignment) n (words source) e m := by
  have hread := Parser.parseExpression_eq_iff.1 h
  rwa [rest_tokenize] at hread

end Lox
