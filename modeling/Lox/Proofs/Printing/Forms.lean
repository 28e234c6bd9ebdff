import Lox.Program.Render
import Lox.Proofs.Splicing.Tokens

/-!
# Reading a printed tree

A printed tree is made up of words and of parenthesized forms, which begin with a sign. Blanks and parentheses
say where a word ends and where a form does, and so the text of a form is read in one way only.
-/
namespace Lox

/-- What a parenthesized form begins with. -/
inductive Sign where
  | unary (op : UnaryOp) | binary (op : BinaryOp) | logical (op : LogicalOp)
  | grouping | assign | call | get | super
  deriving DecidableEq

namespace Sign

def text : Sign → String
  | unary op => op.symbol
  | binary op => op.symbol
  | logical op => op.symbol
  | grouping => "group"
  | assign => "="
  | call => "call"
  | get => "."
  | super => "super"

/-- How many forms stand behind the sign. Calls have as many as they like. -/
def count? : Sign → Option Nat
  | unary _ | grouping | super => some 1
  | binary _ | logical _ | assign | get => some 2
  | call => none

def all : List Sign := [
  unary .negate, unary .not, binary .add, binary .subtract, binary .multiply, binary .divide, binary .modulo,
  binary .greater, binary .greaterEqual, binary .less, binary .lessEqual, binary .equal, binary .notEqual,
  logical .and, logical .or, grouping, assign, call, get, super]

theorem mem_all (s : Sign) : s ∈ all := by
  cases s with
  | unary op | binary op | logical op => cases op <;> decide
  | _ => decide

/-- The minus of one operand and that of two have the same text. No other signs do. -/
theorem eq_of_text {s t : Sign} {n : Nat} (h : s.text = t.text) (hs : ∀ k ∈ s.count?, k = n)
    (ht : ∀ k ∈ t.count?, k = n) : s = t := by
  have hall : ∀ s ∈ all, ∀ t ∈ all, s.text = t.text →
      s = t ∨ s.count? = some 1 ∧ t.count? = some 2 ∨ s.count? = some 2 ∧ t.count? = some 1 := by
    decide +kernel
  rcases hall s s.mem_all t t.mem_all h with heq | ⟨hone, htwo⟩ | ⟨htwo, hone⟩
  · exact heq
  · cases (hs 1 hone).trans (ht 2 htwo).symm
  · cases (hs 2 htwo).trans (ht 1 hone).symm

end Sign

inductive Form where
  | atom (text : String)
  | list (sign : Sign) (items : List Form)

/-- The character neither ends a word nor begins or ends a form. -/
def Character.isInner (c : Char) : Bool := c != ' ' && c != '(' && c != ')'

open Character (isInner)

theorem Sign.inner_text (s : Sign) : ∀ c ∈ s.text.toList, isInner c = true := by
  have hall : (all.all fun s => s.text.toList.all isInner) = true := by decide +kernel
  exact List.all_eq_true.1 (List.all_eq_true.1 hall s s.mem_all)

mutual

def Form.text : Form → List Char
  | .atom text => text.toList
  | .list sign items => '(' :: sign.text.toList ++ Form.texts items ++ [')']

/-- Each behind a blank. -/
def Form.texts : List Form → List Char
  | [] => []
  | f :: rest => ' ' :: f.text ++ Form.texts rest

end

mutual

/-- Words go on to the next blank or parenthesis, and behind each sign stand as many forms as it has. -/
def Form.Proper : Form → Prop
  | .atom text => ∀ c ∈ text.toList, isInner c = true
  | .list sign items => (∀ k ∈ sign.count?, k = items.length) ∧ Form.ProperAll items

def Form.ProperAll : List Form → Prop
  | [] => True
  | f :: rest => f.Proper ∧ Form.ProperAll rest

end

namespace Form

variable {word word' rest rest' : List Char}

/-- A word and a form end in front of this. -/
def Ends (rest : List Char) : Prop := ∀ c ∈ rest.head?, c = ' ' ∨ c = ')'

theorem Ends.stops (h : Ends rest) : ∀ c ∈ rest.head?, isInner c = false := by
  intro c hc
  rcases h c hc with rfl | rfl
  · rfl
  · rfl

/-- A word is as long as its characters go on. -/
theorem word_unique (hword : ∀ c ∈ word, isInner c = true) (hword' : ∀ c ∈ word', isInner c = true)
    (hrest : Ends rest) (hrest' : Ends rest') (h : word ++ rest = word' ++ rest') :
    word = word' ∧ rest = rest' := by
  obtain ⟨htake, hdrop⟩ := takeWhile_append_rest hword hrest.stops
  obtain ⟨htake', hdrop'⟩ := takeWhile_append_rest hword' hrest'.stops
  rw [← h] at htake' hdrop'
  exact ⟨htake.symm.trans htake', hdrop.symm.trans hdrop'⟩

theorem ends_texts (items : List Form) (rest : List Char) : Ends (texts items ++ ')' :: rest) := by
  cases items with
  | nil => simp [Ends, texts]
  | cons f items => simp [Ends, texts]

/-- A word does not begin like a form. -/
theorem ne_opening (hword : ∀ c ∈ word, isInner c = true) (hrest : Ends rest) (more : List Char) :
    word ++ rest ≠ '(' :: more := by
  intro h
  cases word with
  | nil =>
    subst h
    simp [Ends] at hrest
  | cons c word =>
    cases h
    exact absurd (hword '(' List.mem_cons_self) (by decide)

mutual

/-- In front of a blank, of a parenthesis that is closed, and of nothing, a form is read in one way only. -/
theorem text_unique {f g : Form} (hf : f.Proper) (hg : g.Proper) {rest rest' : List Char} (hrest : Ends rest)
    (hrest' : Ends rest') (h : f.text ++ rest = g.text ++ rest') : f = g ∧ rest = rest' := by
  cases f with
  | atom word =>
    cases g with
    | atom word' =>
      obtain ⟨hword, hrest⟩ := word_unique hf hg hrest hrest' h
      exact ⟨congrArg atom (String.toList_inj.1 hword), hrest⟩
    | list sign' items' =>
      simp only [text, List.cons_append] at h
      exact absurd h (ne_opening hf hrest _)
  | list sign items =>
    cases g with
    | atom word' =>
      simp only [text, List.cons_append] at h
      exact absurd h.symm (ne_opening hg hrest' _)
    | list sign' items' =>
      simp only [text, List.cons_append, List.append_assoc, List.cons.injEq, true_and] at h
      obtain ⟨hsign, hitems⟩ := word_unique sign.inner_text sign'.inner_text (ends_texts items _)
        (ends_texts items' _) h
      obtain ⟨rfl, hrest⟩ := texts_unique hf.2 hg.2 hitems
      -- The signs have the same text. Which minus it is shows only now that the items are known to be the same.
      exact ⟨by rw [Sign.eq_of_text (String.toList_inj.1 hsign) hf.1 hg.1], hrest⟩

theorem texts_unique {fs gs : List Form} (hfs : ProperAll fs) (hgs : ProperAll gs) {rest rest' : List Char}
    (h : texts fs ++ ')' :: rest = texts gs ++ ')' :: rest') : fs = gs ∧ rest = rest' := by
  cases fs with
  | nil =>
    cases gs with
    | nil => exact ⟨rfl, List.tail_eq_of_cons_eq h⟩
    | cons g gs => simp [texts] at h
  | cons f fs =>
    cases gs with
    | nil => simp [texts] at h
    | cons g gs =>
      simp only [texts, List.cons_append, List.append_assoc, List.cons.injEq, true_and] at h
      obtain ⟨rfl, hmore⟩ := text_unique hfs.1 hgs.1 (ends_texts fs rest) (ends_texts gs rest') h
      obtain ⟨rfl, hrest⟩ := texts_unique hfs.2 hgs.2 hmore
      exact ⟨rfl, hrest⟩

end

/-- Different forms have different texts. -/
theorem text_injective {f g : Form} (hf : f.Proper) (hg : g.Proper) (h : f.text = g.text) : f = g := by
  have hend : Ends [] := nofun
  have happend : f.text ++ [] = g.text ++ [] := by rw [h]
  exact (text_unique hf hg hend hend happend).1

end Form
end Lox
