import Lox.Proofs.Numbers.Texts
import Lox.Proofs.Printing.Forms
import Lox.Proofs.Scanning.LongestMatch
import Lox.Proofs.Scoping.Trees

/-!
# A printed tree determines the tree

The text of a tree is that of a form, and the form says which tree it is, but for lines and identities. Names,
numbers and the words that are reserved are told apart by how they are spelled.
-/
namespace Lox

open Character (isInner isWordChar isLetter)

/-! ## Trees as forms -/

mutual

def Expr.form : Expr → Form
  | .literal value => .atom value.render
  | .unary op _ e => .list (.unary op) [e.form]
  | .binary op _ l r => .list (.binary op) [l.form, r.form]
  | .logical op _ l r => .list (.logical op) [l.form, r.form]
  | .grouping e => .list .grouping [e.form]
  | .variable ref => .atom ref.name.text
  | .assign ref value => .list .assign [.atom ref.name.text, value.form]
  | .call callee _ arguments => .list .call (callee.form :: Expr.forms arguments)
  | .get object name => .list .get [object.form, .atom name.text]
  | .set object name value => .list .assign [.list .get [object.form, .atom name.text], value.form]
  | .this _ => .atom "this"
  | .super _ method => .list .super [.atom method.text]

def Expr.forms : List Expr → List Form
  | [] => []
  | e :: rest => e.form :: Expr.forms rest

end

mutual

theorem Expr.toList_render (e : Expr) : e.render.toList = e.form.text := by
  cases e with
  | literal value | «variable» ref | this ref => rfl
  | unary op line e | grouping e =>
    simp [Expr.render, Expr.form, Form.text, Form.texts, Sign.text, Expr.toList_render e]
  | binary op line l r | logical op line l r =>
    simp [Expr.render, Expr.form, Form.text, Form.texts, Sign.text, Expr.toList_render l, Expr.toList_render r]
  | assign ref value =>
    simp [Expr.render, Expr.form, Form.text, Form.texts, Sign.text, Expr.toList_render value]
  | call callee line arguments =>
    simp [Expr.render, Expr.form, Form.text, Form.texts, Sign.text, Expr.toList_render callee,
      Expr.toList_renderArguments arguments]
  | get object name =>
    simp [Expr.render, Expr.form, Form.text, Form.texts, Sign.text, Expr.toList_render object]
  | set object name value =>
    simp [Expr.render, Expr.form, Form.text, Form.texts, Sign.text, Expr.toList_render object,
      Expr.toList_render value]
  | super ref method => simp [Expr.render, Expr.form, Form.text, Form.texts, Sign.text]

theorem Expr.toList_renderArguments (es : List Expr) :
    (Expr.renderArguments es).toList = Form.texts (Expr.forms es) := by
  cases es with
  | nil => rfl
  | cons e rest =>
    simp [Expr.renderArguments, Expr.forms, Form.texts, Expr.toList_render e, Expr.toList_renderArguments rest]

end

/-! ## Literals -/

mutual

/-- The literals of an expression. -/
def Expr.literals : Expr → List Literal
  | .literal value => [value]
  | .variable _ | .this _ | .super _ _ => []
  | .unary _ _ e | .grouping e | .assign _ e | .get e _ => e.literals
  | .binary _ _ l r | .logical _ _ l r | .set l _ r => l.literals ++ r.literals
  | .call callee _ arguments => callee.literals ++ Expr.literalsAll arguments

def Expr.literalsAll : List Expr → List Literal
  | [] => []
  | e :: rest => e.literals ++ Expr.literalsAll rest

end

/-! ## Words and numbers -/

theorem inner_of_isWordChar {c : Char} (h : isWordChar c = true) : isInner c = true := by
  simp only [isInner, Bool.and_eq_true, bne_iff_ne, ne_eq]
  refine ⟨⟨?_, ?_⟩, ?_⟩ <;> rintro rfl <;> revert h <;> decide

theorem inner_of_isWord {text : List Char} (h : IsWord text) : ∀ c ∈ text, isInner c = true := by
  obtain ⟨letter, rest, rfl, hletter, hrest⟩ := h
  intro c hc
  rcases List.mem_cons.1 hc with rfl | hc
  · exact inner_of_isWordChar (Bool.or_eq_true_iff.2 (.inl hletter))
  · exact inner_of_isWordChar (hrest c hc)

/-- The words that stand for themselves in a printed tree are words, but no names. -/
theorem isWord_of_reserved {text : String} (h : text ∈ ["this", "true", "false", "nil"]) :
    IsWord text.toList ∧ ¬ Lexeme .identifier text.toList := by
  have hword : ∀ text ∈ ["this", "true", "false", "nil"], text ∈ Kind.reserved.map Prod.fst ∧
      (text.toList.head?.any isLetter && text.toList.tail.all isWordChar) = true := by decide
  obtain ⟨hreserved, hword⟩ := hword text h
  obtain ⟨hhead, htail⟩ := Bool.and_eq_true_iff.1 hword
  constructor
  · obtain ⟨letter, hletter, hfirst⟩ := (Option.any_eq_true _ _).1 hhead
    obtain ⟨rest, htext⟩ := List.head?_eq_some_iff.1 hletter
    rw [htext] at htail ⊢
    exact ⟨letter, rest, rfl, hfirst, List.all_eq_true.1 htail⟩
  · intro hname
    obtain ⟨entry, hentry, rfl⟩ := List.mem_map.1 hreserved
    exact (hname.identifier_iff.1 rfl).2 entry hentry String.ofList_toList

theorem ne_this {text : String} (h : Lexeme .identifier text.toList) : text ≠ "this" := by
  rintro rfl
  exact (isWord_of_reserved (by decide)).2 h

theorem chars_number {x : Float} (hx : x.isFinite = true) :
    ∃ c rest, (NumberFormat.tree.write x).toList = c :: rest ∧
      ∀ d ∈ c :: rest, d.isDigit = true ∨ d = '.' ∨ d = '-' := by
  obtain ⟨e, he⟩ := Exact.exists_ofFloat?_iff.2 hx
  obtain ⟨c, rest, htext, hc, hrest⟩ := NumberFormat.isMagnitude_tree e
  rw [NumberFormat.toList_write he, htext]
  cases e.negative with
  | false =>
    refine ⟨c, rest, rfl, List.forall_mem_cons.2 ⟨.inl hc, fun d hd => ?_⟩⟩
    exact (hrest d hd).imp_right .inl
  | true =>
    refine ⟨'-', c :: rest, rfl, List.forall_mem_cons.2 ⟨.inr (.inr rfl), ?_⟩⟩
    exact List.forall_mem_cons.2 ⟨.inl hc, fun d hd => (hrest d hd).imp_right .inl⟩

/-- A number does not begin like a word. -/
theorem not_isWord_number {x : Float} (hx : x.isFinite = true) : ¬ IsWord (NumberFormat.tree.write x).toList := by
  rintro ⟨letter, rest, h, hletter, -⟩
  obtain ⟨c, rest', htext, hchars⟩ := chars_number hx
  rw [htext] at h
  cases h
  rcases hchars _ List.mem_cons_self with hdigit | rfl | rfl
  · rw [Piece.isLetter_of_isDigit hdigit] at hletter
    cases hletter
  · cases hletter
  · cases hletter

namespace Literal

variable {v w : Literal} {x : Float}

/-- The literal is no string, and a number only if it is finite. -/
def Plain : Literal → Prop
  | number x => x.isFinite = true
  | string _ => False
  | boolean _ | nil => True

instance decidablePlain : DecidablePred Plain
  | number x => inferInstanceAs (Decidable (x.isFinite = true))
  | string _ => inferInstanceAs (Decidable False)
  | boolean _ | nil => inferInstanceAs (Decidable True)

/-- The literals that are words. -/
def words : List Literal := [boolean true, boolean false, nil]

theorem Plain.cases (hv : v.Plain) : (∃ x, v = number x ∧ x.isFinite = true) ∨ v ∈ words := by
  cases v with
  | number x => exact .inl ⟨x, rfl, hv⟩
  | string text => exact hv.elim
  | boolean b => cases b <;> simp [words]
  | nil => simp [words]

theorem isWord_words (hv : v ∈ words) : v.render ≠ "this" ∧ IsWord v.render.toList ∧
    ¬ Lexeme .identifier v.render.toList := by
  have hall : ∀ v ∈ words, v.render ≠ "this" ∧ v.render ∈ ["this", "true", "false", "nil"] := by decide
  obtain ⟨hthis, hmem⟩ := hall v hv
  exact ⟨hthis, isWord_of_reserved hmem⟩

theorem words_injective (hv : v ∈ words) (hw : w ∈ words) (h : v.render = w.render) : v = w := by
  simp only [words, List.mem_cons, List.not_mem_nil, or_false] at hv hw
  rcases hv with rfl | rfl | rfl <;> rcases hw with rfl | rfl | rfl <;>
    first | rfl | exact absurd h (by decide)

theorem number_ne_word (hx : x.isFinite = true) {text : String} (htext : IsWord text.toList) :
    (number x).render ≠ text := by
  rintro rfl
  exact not_isWord_number hx htext

/-- No literal is written like a name or like `this`. -/
theorem Plain.render_ne (hv : v.Plain) : v.render ≠ "this" ∧ ¬ Lexeme .identifier v.render.toList := by
  rcases hv.cases with ⟨x, rfl, hx⟩ | hv
  · exact ⟨number_ne_word hx (isWord_of_reserved (by decide)).1,
      fun hname => not_isWord_number hx (hname.isWord (.inl rfl))⟩
  · exact ⟨(isWord_words hv).1, (isWord_words hv).2.2⟩

/-- Different literals are written differently. -/
theorem Plain.render_injective (hv : v.Plain) (hw : w.Plain) (h : v.render = w.render) : v = w := by
  rcases hv.cases with ⟨x, rfl, hx⟩ | hv
  · rcases hw.cases with ⟨y, rfl, hy⟩ | hw
    · exact congrArg number (NumberFormat.tree_injective hx hy h)
    · exact absurd h (number_ne_word hx (isWord_words hw).2.1)
  · rcases hw.cases with ⟨y, rfl, hy⟩ | hw
    · exact absurd h.symm (number_ne_word hy (isWord_words hv).2.1)
    · exact words_injective hv hw h

theorem Plain.inner_render (hv : v.Plain) : ∀ c ∈ v.render.toList, isInner c = true := by
  rcases hv.cases with ⟨x, rfl, hx⟩ | hv
  · obtain ⟨c, rest, htext, hchars⟩ := chars_number hx
    change ∀ c ∈ (NumberFormat.tree.write x).toList, _
    rw [htext]
    intro d hd
    rcases hchars d hd with hdigit | rfl | rfl
    · exact inner_of_isWordChar (Bool.or_eq_true_iff.2 (.inr hdigit))
    · rfl
    · rfl
  · exact inner_of_isWord (isWord_words hv).2.1

end Literal

/-! ## Names -/

mutual

/-- Names are spelled like names, and `this` and `super` as themselves. -/
def Expr.Spelled : Expr → Prop
  | .literal _ => True
  | .unary _ _ e | .grouping e => e.Spelled
  | .binary _ _ l r | .logical _ _ l r => l.Spelled ∧ r.Spelled
  | .variable ref => Lexeme .identifier ref.name.text.toList
  | .assign ref value => Lexeme .identifier ref.name.text.toList ∧ value.Spelled
  | .call callee _ arguments => callee.Spelled ∧ Expr.SpelledAll arguments
  | .get object name => object.Spelled ∧ Lexeme .identifier name.text.toList
  | .set object name value => object.Spelled ∧ Lexeme .identifier name.text.toList ∧ value.Spelled
  | .this ref => ref.name.text = "this"
  | .super ref method => ref.name.text = "super" ∧ Lexeme .identifier method.text.toList

def Expr.SpelledAll : List Expr → Prop
  | [] => True
  | e :: rest => e.Spelled ∧ Expr.SpelledAll rest

end

theorem Expr.spelledAll_of_mem {es : List Expr} (h : ∀ e ∈ es, e.Spelled) : Expr.SpelledAll es := by
  induction es with
  | nil => trivial
  | cons e rest ih => exact ⟨h e List.mem_cons_self, ih fun e he => h e (List.mem_cons_of_mem _ he)⟩

/-- What is read of expressions. -/
def Phrase.Spelled : (p : Phrase) → p.Tree → Prop
  | .expression _ => Expr.Spelled
  | .opt p => fun t => ∀ t' ∈ t, p.Spelled t'
  | .many p | .separated p => fun ts => ∀ t ∈ ts, p.Spelled t
  | .after _ p => p.Spelled
  | _ => fun _ => True

theorem Token.text_of_reserved {t : Token} (h : Lexeme t.kind t.lexeme.toList) {entry : String × Kind}
    (hentry : entry ∈ Kind.reserved) (hkind : t.kind = entry.2) : t.ident.text = entry.1 := by
  have htext := (h.reserved_iff hentry).1 hkind
  rwa [String.ofList_toList] at htext

theorem Token.identifier_of_kind {t : Token} (h : Lexeme t.kind t.lexeme.toList) (hkind : t.kind = .identifier) :
    Lexeme .identifier t.ident.text.toList := by
  rwa [hkind] at h

theorem Connective.spelled_join {left right : Expr} (hleft : left.Spelled) (hright : right.Spelled)
    (op : Connective) (line : Nat) : (op.join line left right).Spelled := by
  cases op <;> exact ⟨hleft, hright⟩

theorem Reading.spelled {p : Phrase} {n m : Nat} {w : List Token} {t : p.Tree} (h : Reading p n w t m)
    (hwords : ∀ t ∈ w, Lexeme t.kind t.lexeme.toList) : p.Spelled t := by
  induction h with
  | optNone | manyNil => nofun
  | optSome h ih =>
    rintro t' ht'
    cases Option.mem_def.1 ht'
    exact ih hwords
  | manyCons h hs ih ihs =>
    exact List.forall_mem_cons.2 ⟨ih fun t ht => hwords t (List.mem_append_left _ ht),
      ihs fun t ht => hwords t (List.mem_append_right _ ht)⟩
  | separatedOne h ih => exact List.forall_mem_singleton.2 (ih hwords)
  | separatedMore h hcomma hs ih ihs =>
    exact List.forall_mem_cons.2 ⟨ih fun t ht => hwords t (by simp [ht]),
      ihs fun t ht => hwords t (by simp [ht])⟩
  | after hmark h ih => exact ih fun t ht => hwords t (by simp [ht])
  | assignName hname hequals h ih =>
    exact ⟨Token.identifier_of_kind (hwords _ List.mem_cons_self) hname, ih fun t ht => hwords t (by simp [ht])⟩
  | assignField hobject hdot hname hequals h ihobject ih =>
    exact ⟨ihobject fun t ht => hwords t (by simp [ht]),
      Token.identifier_of_kind (hwords _ (by simp)) hname, ih fun t ht => hwords t (by simp [ht])⟩
  | loosest h ih | tighter hl h ih | tightest h ih | unprefixed h ih | callee h ih => exact ih hwords
  | joined hleft hop hright ihleft ihright =>
    exact Connective.spelled_join (ihleft fun t ht => hwords t (by simp [ht]))
      (ihright fun t ht => hwords t (by simp [ht])) _ _
  | prefixed hop h ih | grouping hopening h hclosing ih => exact ih fun t ht => hwords t (by simp [ht])
  | @call n u callee k opening v args closing m hcallee hopening h hargs hclosing ihcallee ih =>
    have hall := ih fun t ht => hwords t (by simp [ht])
    refine ⟨ihcallee fun t ht => hwords t (by simp [ht]), Expr.spelledAll_of_mem fun e he => ?_⟩
    cases args with
    | none => cases he
    | some args => exact hall args rfl e he
  | get h hdot hname ih =>
    exact ⟨ih fun t ht => hwords t (by simp [ht]), Token.identifier_of_kind (hwords _ (by simp)) hname⟩
  | «variable» ht => exact Token.identifier_of_kind (hwords _ List.mem_cons_self) ht
  | this ht =>
    have hentry : ("this", Kind.kwThis) ∈ Kind.reserved := by decide
    exact Token.text_of_reserved (hwords _ List.mem_cons_self) hentry ht
  | super ht hdot hmethod =>
    have hentry : ("super", Kind.kwSuper) ∈ Kind.reserved := by decide
    exact ⟨Token.text_of_reserved (hwords _ List.mem_cons_self) hentry ht,
      Token.identifier_of_kind (hwords _ (by simp)) hmethod⟩
  | _ => trivial

/-! ## Trees -/

mutual

theorem Expr.proper_form {e : Expr} (he : e.Spelled) (hplain : ∀ v ∈ e.literals, v.Plain) : e.form.Proper := by
  cases e with
  | literal value => exact (hplain value List.mem_cons_self).inner_render
  | unary op line e | grouping e => exact ⟨by simp [Sign.count?], Expr.proper_form he hplain, trivial⟩
  | binary op line l r | logical op line l r =>
    obtain ⟨hl, hr⟩ := List.forall_mem_append.1 hplain
    exact ⟨by simp [Sign.count?], Expr.proper_form he.1 hl, Expr.proper_form he.2 hr, trivial⟩
  | «variable» ref => exact inner_of_isWord (he.isWord (.inl rfl))
  | assign ref value =>
    exact ⟨by simp [Sign.count?], inner_of_isWord (he.1.isWord (.inl rfl)), Expr.proper_form he.2 hplain, trivial⟩
  | call callee line arguments =>
    obtain ⟨hcallee, harguments⟩ := List.forall_mem_append.1 hplain
    exact ⟨nofun, Expr.proper_form he.1 hcallee, Expr.proper_forms he.2 harguments⟩
  | get object name =>
    exact ⟨by simp [Sign.count?], Expr.proper_form he.1 hplain, inner_of_isWord (he.2.isWord (.inl rfl)), trivial⟩
  | set object name value =>
    obtain ⟨hobject, hvalue⟩ := List.forall_mem_append.1 hplain
    have hname := inner_of_isWord (he.2.1.isWord (.inl rfl))
    exact ⟨by simp [Sign.count?], ⟨by simp [Sign.count?], Expr.proper_form he.1 hobject, hname, trivial⟩,
      Expr.proper_form he.2.2 hvalue, trivial⟩
  | this ref => exact inner_of_isWord (isWord_of_reserved (by decide)).1
  | super ref method => exact ⟨by simp [Sign.count?], inner_of_isWord (he.2.isWord (.inl rfl)), trivial⟩

theorem Expr.proper_forms {es : List Expr} (hes : SpelledAll es) (hplain : ∀ v ∈ literalsAll es, v.Plain) :
    Form.ProperAll (forms es) := by
  cases es with
  | nil => trivial
  | cons e rest =>
    obtain ⟨he, hrest⟩ := List.forall_mem_append.1 hplain
    exact ⟨Expr.proper_form hes.1 he, Expr.proper_forms hes.2 hrest⟩

end

theorem Ident.erase_eq {name name' : Ident} (h : name.text = name'.text) :
    name.relabel .erasing = name'.relabel .erasing :=
  congrArg (Ident.mk · 0) h

theorem Reference.erase_eq {ref ref' : Reference} (h : ref.name.text = ref'.name.text) :
    ref.relabel .erasing = ref'.relabel .erasing :=
  congrArg (Reference.mk 0) (Ident.erase_eq h)

mutual

/-- The form of a tree says which tree it is. -/
theorem Expr.form_injective {e e' : Expr} (he : e.Spelled) (he' : e'.Spelled) (hplain : ∀ v ∈ e.literals, v.Plain)
    (hplain' : ∀ v ∈ e'.literals, v.Plain) (h : e.form = e'.form) : e.relabel .erasing = e'.relabel .erasing := by
  -- The sign leaves one constructor for the other tree. Only words have to be told apart by their spelling.
  cases e with
  | literal value =>
    have hvalue : value.Plain := hplain value List.mem_cons_self
    cases e' <;> simp only [form, Form.atom.injEq, reduceCtorEq] at h
    case literal value' =>
      exact congrArg literal (hvalue.render_injective (hplain' value' List.mem_cons_self) h)
    case «variable» ref => exact absurd (h ▸ he') hvalue.render_ne.2
    case this ref => exact absurd h hvalue.render_ne.1
  | unary op line e =>
    cases e' <;> simp [form] at h
    case unary op' line' e' =>
      obtain ⟨rfl, h⟩ := h
      exact congrArg (unary op 0) (Expr.form_injective he he' hplain hplain' h)
  | binary op line l r =>
    cases e' <;> simp [form] at h
    case binary op' line' l' r' =>
      obtain ⟨rfl, hl, hr⟩ := h
      simp only [literals, List.forall_mem_append] at hplain hplain'
      exact congrArg₂ (binary op 0) (Expr.form_injective he.1 he'.1 hplain.1 hplain'.1 hl)
        (Expr.form_injective he.2 he'.2 hplain.2 hplain'.2 hr)
  | logical op line l r =>
    cases e' <;> simp [form] at h
    case logical op' line' l' r' =>
      obtain ⟨rfl, hl, hr⟩ := h
      simp only [literals, List.forall_mem_append] at hplain hplain'
      exact congrArg₂ (logical op 0) (Expr.form_injective he.1 he'.1 hplain.1 hplain'.1 hl)
        (Expr.form_injective he.2 he'.2 hplain.2 hplain'.2 hr)
  | grouping e =>
    cases e' <;> simp [form] at h
    case grouping e' => exact congrArg grouping (Expr.form_injective he he' hplain hplain' h)
  | «variable» ref =>
    cases e' <;> simp only [form, Form.atom.injEq, reduceCtorEq] at h
    case literal value =>
      have hvalue : value.Plain := hplain' value List.mem_cons_self
      exact absurd (h ▸ he) hvalue.render_ne.2
    case «variable» ref' => exact congrArg Expr.variable (Reference.erase_eq h)
    case this ref' => exact absurd h (ne_this he)
  | assign ref value =>
    cases e' <;> simp [form] at h
    case assign ref' value' =>
      obtain ⟨hname, h⟩ := h
      exact congrArg₂ assign (Reference.erase_eq hname) (Expr.form_injective he.2 he'.2 hplain hplain' h)
  | call callee line arguments =>
    cases e' <;> simp [form] at h
    case call callee' line' arguments' =>
      obtain ⟨hcallee, harguments⟩ := h
      simp only [literals, List.forall_mem_append] at hplain hplain'
      exact congrArg₂ (call · 0 ·) (Expr.form_injective he.1 he'.1 hplain.1 hplain'.1 hcallee)
        (Expr.forms_injective he.2 he'.2 hplain.2 hplain'.2 harguments)
  | get object name =>
    cases e' <;> simp [form] at h
    case get object' name' =>
      obtain ⟨h, hname⟩ := h
      exact congrArg₂ get (Expr.form_injective he.1 he'.1 hplain hplain' h) (Ident.erase_eq hname)
  | set object name value =>
    cases e' <;> simp [form] at h
    case set object' name' value' =>
      obtain ⟨⟨hobject, hname⟩, hvalue⟩ := h
      simp only [literals, List.forall_mem_append] at hplain hplain'
      have hobject := Expr.form_injective he.1 he'.1 hplain.1 hplain'.1 hobject
      have hvalue := Expr.form_injective he.2.2 he'.2.2 hplain.2 hplain'.2 hvalue
      simp only [relabel, hobject, hvalue, Ident.erase_eq hname]
  | this ref =>
    cases e' <;> simp only [form, Form.atom.injEq, reduceCtorEq] at h
    case literal value =>
      have hvalue : value.Plain := hplain' value List.mem_cons_self
      exact absurd h.symm hvalue.render_ne.1
    case «variable» ref' => exact absurd h.symm (ne_this he')
    case this ref' => exact congrArg Expr.this (Reference.erase_eq (he.trans he'.symm))
  | super ref method =>
    cases e' <;> simp [form] at h
    case super ref' method' =>
      exact congrArg₂ Expr.super (Reference.erase_eq (he.1.trans he'.1.symm)) (Ident.erase_eq h)

theorem Expr.forms_injective {es es' : List Expr} (hes : SpelledAll es) (hes' : SpelledAll es')
    (hplain : ∀ v ∈ literalsAll es, v.Plain) (hplain' : ∀ v ∈ literalsAll es', v.Plain)
    (h : forms es = forms es') : relabelAll .erasing es = relabelAll .erasing es' := by
  cases es with
  | nil =>
    cases es' with
    | nil => rfl
    | cons e' rest' => cases h
  | cons e rest =>
    cases es' with
    | nil => cases h
    | cons e' rest' =>
      simp only [forms, List.cons.injEq] at h
      simp only [literalsAll, List.forall_mem_append] at hplain hplain'
      exact congrArg₂ List.cons (Expr.form_injective hes.1 hes'.1 hplain.1 hplain'.1 h.1)
        (Expr.forms_injective hes.2 hes'.2 hplain.2 hplain'.2 h.2)

end

variable {source source' : String} {n n' m m' : Nat} {e e' : Expr}

theorem spelled_of_parseExpression (h : parseExpression n (tokenize source).1 = ⟨some e, [], m⟩) : e.Spelled :=
  (reading_of_parseExpression h).spelled lexeme_of_mem_words

/-- What is read from two texts and printed alike is the same tree, but for lines and identities. -/
theorem Expr.render_determines (h : parseExpression n (tokenize source).1 = ⟨some e, [], m⟩)
    (h' : parseExpression n' (tokenize source').1 = ⟨some e', [], m'⟩) (hplain : ∀ v ∈ e.literals, v.Plain)
    (hplain' : ∀ v ∈ e'.literals, v.Plain) (hrender : e.render = e'.render) :
    e.relabel .erasing = e'.relabel .erasing := by
  have he := spelled_of_parseExpression h
  have he' := spelled_of_parseExpression h'
  have htext : e.form.text = e'.form.text := by rw [← Expr.toList_render, ← Expr.toList_render, hrender]
  exact Expr.form_injective he he' hplain hplain'
    (Form.text_injective (Expr.proper_form he hplain) (Expr.proper_form he' hplain') htext)

/-- The same number can be written in several ways. -/
theorem Expr.render_determines_layout :
    let parsed := parseExpression 0 (tokenize "a.b = -1.5 - (c(2, this) or nil)").1
    let parsed' := parseExpression 7 (tokenize "a . b = -01.50 - ( c(2.0,\n this ) or\n nil )").1
    ∃ e e', parsed = ⟨some e, [], parsed.nextId⟩ ∧ parsed' = ⟨some e', [], parsed'.nextId⟩ ∧
      (∀ v ∈ e.literals, v.Plain) ∧ (∀ v ∈ e'.literals, v.Plain) ∧ e.render = e'.render ∧
      e.relabel .erasing = e'.relabel .erasing := by
  intro parsed parsed'
  have hfaults : parsed.faults = [] ∧ parsed'.faults = [] := by decide +kernel
  have htrees : (parsed.tree.any fun e => parsed'.tree.any fun e' =>
      decide ((∀ v ∈ e.literals, v.Plain) ∧ (∀ v ∈ e'.literals, v.Plain) ∧ e.render = e'.render)) = true := by
    decide +kernel
  obtain ⟨e, he, htrees⟩ := (Option.any_eq_true _ _).1 htrees
  obtain ⟨e', he', htrees⟩ := (Option.any_eq_true _ _).1 htrees
  obtain ⟨hplain, hplain', hrender⟩ := decide_eq_true_iff.1 htrees
  have h : parsed = ⟨some e, [], parsed.nextId⟩ := by rw [← he, ← hfaults.1]
  have h' : parsed' = ⟨some e', [], parsed'.nextId⟩ := by rw [← he', ← hfaults.2]
  exact ⟨e, e', h, h', hplain, hplain', hrender, Expr.render_determines h h' hplain hplain' hrender⟩

end Lox
