import Mathlib.Data.List.Nodup
import Mathlib.Data.List.Perm.Subperm
import Mathlib.Logic.Relation
import Lox.Proofs.Store.Intact

/-!
# Chains of superclasses

A class is made after its superclass, and identities are given in this order. So the chain of superclasses
comes to an end, however the classes are named, and who follows it from one identity to the next meets each
class once at most. A method is found in the first class that declares one of its name, and there it is the
last one so named.
-/
namespace Lox

/-- A class that has been declared, and the methods of the declaration. -/
structure Declared where
  made : Class
  methods : List FunctionDecl

/-- The declaration is the last one with this name. -/
def LastNamed (name : String) (methods : List FunctionDecl) (decl : FunctionDecl) : Prop :=
  ∃ before after, methods = before ++ decl :: after ∧ decl.name.text = name ∧
    ∀ d ∈ after, d.name.text ≠ name

/-- The method that a class has by a name, as the declarations tell it: the last one so named in the first
class along the chain that declares one. -/
inductive Nearest (made : List Declared) (name : String) : Class → Option Function → Prop
  | own {c : Class} {methods : List FunctionDecl} {f : Function} (hc : ⟨c, methods⟩ ∈ made)
      (hf : f ∈ c.methods.values) (hlast : LastNamed name methods f.decl) : Nearest made name c (some f)
  | inherited {c parent : Class} {methods : List FunctionDecl} {result : Option Function}
      (hc : ⟨c, methods⟩ ∈ made) (hnone : ∀ d ∈ methods, d.name.text ≠ name)
      (hsuper : c.superclass = some parent) (h : Nearest made name parent result) : Nearest made name c result
  | missing {c : Class} {methods : List FunctionDecl} (hc : ⟨c, methods⟩ ∈ made)
      (hnone : ∀ d ∈ methods, d.name.text ≠ name) (hsuper : c.superclass = none) : Nearest made name c none

/-- The class with the one identity has that with the other as its superclass. -/
def Extends (made : List Declared) (derived base : Nat) : Prop :=
  ∃ d ∈ made, d.made.stamp = derived ∧ ∃ parent, d.made.superclass = some parent ∧ parent.stamp = base

/-- Goes from the class with one identity to that with the next, but looks at no more classes than `fuel`.
There is no answer if these are not enough. -/
def searchMethod (made : List Declared) (name : String) : (fuel stamp : Nat) → Option (Option Function)
  | 0, _ => none
  | fuel + 1, stamp =>
    match made.find? fun d => d.made.stamp = stamp with
    | none => none
    | some d =>
      match d.made.methods.find? name, d.made.superclass with
      | some f, _ => some (some f)
      | none, none => some none
      | none, some parent => searchMethod made name fuel parent.stamp

namespace Class

/-- The class, its superclass, and so on. -/
def chain (c : Class) : List Class :=
  match c with
  | ⟨stamp, name, none, methods⟩ => [⟨stamp, name, none, methods⟩]
  | ⟨stamp, name, some parent, methods⟩ => ⟨stamp, name, some parent, methods⟩ :: parent.chain

variable {c parent : Class} {name : String}

theorem chain_of_none (h : c.superclass = none) : c.chain = [c] := by
  obtain ⟨stamp, name, superclass, methods⟩ := c
  cases h
  rfl

theorem chain_of_some (h : c.superclass = some parent) : c.chain = c :: parent.chain := by
  obtain ⟨stamp, name, superclass, methods⟩ := c
  cases h
  rfl

theorem findMethod?_of_none (h : c.superclass = none) : c.findMethod? name = c.methods.find? name := by
  obtain ⟨stamp, name, superclass, methods⟩ := c
  cases h
  rfl

theorem findMethod?_of_some (h : c.superclass = some parent) :
    c.findMethod? name = (c.methods.find? name).or (parent.findMethod? name) := by
  obtain ⟨stamp, own, superclass, methods⟩ := c
  cases h
  rw [findMethod?]
  cases methods.find? name <;> rfl

theorem findMethod?_of_own {f : Function} (h : c.methods.find? name = some f) :
    c.findMethod? name = some f := by
  cases hsuper : c.superclass with
  | none => rw [findMethod?_of_none hsuper, h]
  | some parent =>
    rw [findMethod?_of_some hsuper, h]
    rfl

/-- What is to be shown of a class is shown of its superclass before. -/
@[elab_as_elim]
theorem chain_induction {motive : Class → Prop} (base : ∀ c, c.superclass = none → motive c)
    (derived : ∀ c parent, c.superclass = some parent → motive parent → motive c) (c : Class) : motive c :=
  match c with
  | ⟨_, _, none, _⟩ => base _ rfl
  | ⟨_, _, some parent, _⟩ => derived _ parent rfl (chain_induction base derived parent)

end Class

/-! ## Tables of methods -/

namespace Bindings

variable {α : Type} {b : Bindings α} {name : String} {a : α}

theorem mem_entries_insert {entry : String × α} (h : entry ∈ (b.insert name a).entries) :
    entry = (name, a) ∨ entry ∈ b.entries := by
  obtain ⟨entries⟩ := b
  unfold insert at h
  dsimp only at h ⊢
  induction entries with
  | nil => exact .inl (List.mem_singleton.1 h)
  | cons first rest ih =>
    obtain ⟨key, old⟩ := first
    rw [place] at h
    split at h
    · next hkey =>
      obtain rfl | h := List.mem_cons.1 h
      · exact .inl (hkey ▸ rfl)
      · exact .inr (List.mem_cons_of_mem _ h)
    · obtain rfl | h := List.mem_cons.1 h
      · exact .inr List.mem_cons_self
      · exact (ih h).imp_right (List.mem_cons_of_mem _)

theorem nodup_insert (h : b.names.Nodup) (name : String) (a : α) : (b.insert name a).names.Nodup := by
  obtain ⟨entries⟩ := b
  unfold names at h ⊢
  unfold insert
  dsimp only at h ⊢
  induction entries with
  | nil => exact List.nodup_singleton name
  | cons first rest ih =>
    obtain ⟨key, old⟩ := first
    obtain ⟨hkey, hrest⟩ := List.nodup_cons.1 h
    rw [place]
    split
    · exact h
    · next hne =>
      refine List.nodup_cons.2 ⟨fun hmem => ?_, ih hrest⟩
      obtain ⟨entry, hentry, heq⟩ := List.mem_map.1 hmem
      obtain rfl | hentry := mem_entries_insert (b := ⟨rest⟩) hentry
      · exact hne heq.symm
      · exact hkey (heq ▸ List.mem_map_of_mem hentry)

theorem find?_of_mem_entries (h : b.names.Nodup) (hmem : (name, a) ∈ b.entries) : b.find? name = some a := by
  obtain ⟨entries⟩ := b
  unfold names at h
  unfold find?
  dsimp only at h hmem ⊢
  induction entries with
  | nil => cases hmem
  | cons first rest ih =>
    obtain ⟨key, old⟩ := first
    obtain ⟨hkey, hrest⟩ := List.nodup_cons.1 h
    rw [lookup]
    obtain heq | hmem := List.mem_cons.1 hmem
    · cases heq
      exact if_pos rfl
    · rw [if_neg, ih hrest hmem]
      rintro rfl
      exact hkey (List.mem_map.2 ⟨_, hmem, rfl⟩)

end Bindings

/-- The table has the last method of each name, and no others. -/
structure Tabulates (table : Bindings Function) (methods : List FunctionDecl) : Prop where
  nodup : table.names.Nodup
  keyed : ∀ entry ∈ table.entries, entry.2.decl.name.text = entry.1
  last : ∀ name f, table.find? name = some f → LastNamed name methods f.decl
  complete : ∀ name, table.find? name = none → ∀ d ∈ methods, d.name.text ≠ name

namespace Tabulates

variable {table : Bindings Function} {methods : List FunctionDecl} {name : String} {f : Function}

theorem empty : Tabulates Bindings.empty [] := ⟨List.nodup_nil, nofun, nofun, nofun⟩

theorem insert (h : Tabulates table methods) (f : Function) :
    Tabulates (table.insert f.decl.name.text f) (methods ++ [f.decl]) := by
  refine ⟨Bindings.nodup_insert h.nodup _ _, fun entry hentry => ?_, fun name g hg => ?_, fun name hnone => ?_⟩
  · obtain rfl | hentry := Bindings.mem_entries_insert hentry
    · rfl
    · exact h.keyed entry hentry
  · rw [Bindings.find?_insert] at hg
    split at hg
    · next hname =>
      cases hg
      exact ⟨methods, [], rfl, hname, nofun⟩
    · next hname =>
      obtain ⟨before, after, rfl, hdecl, hafter⟩ := h.last name g hg
      refine ⟨before, after ++ [f.decl], by simp, hdecl, ?_⟩
      exact List.forall_mem_append.2 ⟨hafter, List.forall_mem_singleton.2 hname⟩
  · rw [Bindings.find?_insert] at hnone
    split at hnone
    · cases hnone
    · next hname =>
      exact List.forall_mem_append.2 ⟨h.complete name hnone, List.forall_mem_singleton.2 hname⟩

theorem find?_of_mem (h : Tabulates table methods) (hf : f ∈ table.values) :
    table.find? f.decl.name.text = some f := by
  obtain ⟨⟨key, g⟩, hentry, rfl⟩ := List.mem_map.1 hf
  have hkey := h.keyed _ hentry
  dsimp only at hkey ⊢
  rw [hkey]
  exact Bindings.find?_of_mem_entries h.nodup hentry

theorem find?_eq_some_iff (h : Tabulates table methods) :
    table.find? name = some f ↔ f ∈ table.values ∧ LastNamed name methods f.decl := by
  constructor
  · intro hf
    exact ⟨mem_values_of_find? hf, h.last name f hf⟩
  · rintro ⟨hf, -, -, -, hname, -⟩
    exact hname ▸ h.find?_of_mem hf

theorem find?_eq_none_iff (h : Tabulates table methods) :
    table.find? name = none ↔ ∀ d ∈ methods, d.name.text ≠ name := by
  refine ⟨h.complete name, fun hnone => ?_⟩
  cases hf : table.find? name with
  | none => rfl
  | some f =>
    obtain ⟨before, after, rfl, hname, -⟩ := h.last name f hf
    exact absurd hname (hnone f.decl (List.mem_append_right _ List.mem_cons_self))

end Tabulates

/-! ## Classes that were made one after the other -/

/-- Every class is younger than those before it, its superclass is among these, and it has the methods
that it has been declared with. -/
structure Lineage (made : List Declared) : Prop where
  ordered : (made.map fun d => d.made.stamp).Pairwise (· < ·)
  parents : ∀ d ∈ made, ∀ parent, d.made.superclass = some parent →
    parent.stamp < d.made.stamp ∧ ∃ methods, ⟨parent, methods⟩ ∈ made
  tables : ∀ d ∈ made, Tabulates d.made.methods d.methods

namespace Lineage

variable {made : List Declared} {c : Class} {methods : List FunctionDecl} {d e : Declared}

theorem nil : Lineage [] := ⟨List.Pairwise.nil, nofun, nofun⟩

/-- A class is declared after all others, and its superclass is one of them. -/
theorem snoc (h : Lineage made) (hstamp : ∀ e ∈ made, e.made.stamp < d.made.stamp)
    (hparent : ∀ parent, d.made.superclass = some parent → ∃ methods, ⟨parent, methods⟩ ∈ made)
    (htable : Tabulates d.made.methods d.methods) : Lineage (made ++ [d]) where
  ordered := by
    rw [List.map_append, List.pairwise_append]
    refine ⟨h.ordered, List.pairwise_singleton _ _, fun stamp hmem => List.forall_mem_singleton.2 ?_⟩
    obtain ⟨e, he, rfl⟩ := List.mem_map.1 hmem
    exact hstamp e he
  parents := by
    refine List.forall_mem_append.2 ⟨fun e he parent hsuper => ?_,
      List.forall_mem_singleton.2 fun parent hsuper => ?_⟩
    · obtain ⟨hless, methods, hmem⟩ := h.parents e he parent hsuper
      exact ⟨hless, methods, List.mem_append_left _ hmem⟩
    · obtain ⟨methods, hmem⟩ := hparent parent hsuper
      exact ⟨hstamp _ hmem, methods, List.mem_append_left _ hmem⟩
  tables := List.forall_mem_append.2 ⟨h.tables, List.forall_mem_singleton.2 htable⟩

/-- Nothing but the class itself has its identity. -/
theorem unique (h : Lineage made) (hd : d ∈ made) (he : e ∈ made) (hstamp : d.made.stamp = e.made.stamp) :
    d = e :=
  List.inj_on_of_nodup_map (h.ordered.imp Nat.ne_of_lt) hd he hstamp

theorem find?_eq (h : Lineage made) (hd : d ∈ made) :
    (made.find? fun e => e.made.stamp = d.made.stamp) = some d := by
  cases hfind : made.find? fun e => e.made.stamp = d.made.stamp with
  | none =>
    have hne := List.find?_eq_none.1 hfind d hd
    exact absurd (decide_eq_true rfl) hne
  | some e =>
    have hstamp : e.made.stamp = d.made.stamp := by simpa using List.find?_some hfind
    exact congrArg some (h.unique (List.mem_of_find?_eq_some hfind) hd hstamp)

theorem acyclic (h : Lineage made) (stamp : Nat) : ¬ Relation.TransGen (Extends made) stamp stamp := by
  have hless : ∀ {a b}, Relation.TransGen (Extends made) a b → b < a := by
    intro a b hab
    have hstep : ∀ {a b}, Extends made a b → b < a := by
      rintro _ _ ⟨d, hd, rfl, parent, hsuper, rfl⟩
      exact (h.parents d hd parent hsuper).1
    induction hab with
    | single hab => exact hstep hab
    | tail _ hbc ih => exact (hstep hbc).trans ih
  exact fun hcycle => Nat.lt_irrefl _ (hless hcycle)

/-- The chain consists of classes that have been declared, each older than the one before it. -/
theorem chain (h : Lineage made) (hc : ⟨c, methods⟩ ∈ made) :
    (∀ e ∈ c.chain, ∃ methods, ⟨e, methods⟩ ∈ made) ∧ (∀ e ∈ c.chain, e.stamp ≤ c.stamp) ∧
      (c.chain.map Class.stamp).Pairwise (· > ·) := by
  induction c using Class.chain_induction generalizing methods with
  | base c hnone =>
    rw [Class.chain_of_none hnone]
    exact ⟨List.forall_mem_singleton.2 ⟨methods, hc⟩, List.forall_mem_singleton.2 le_rfl,
      List.pairwise_singleton _ _⟩
  | derived c parent hsome ih =>
    obtain ⟨hless, methods', hparent⟩ := h.parents _ hc parent hsome
    obtain ⟨hmade, holder, hordered⟩ := ih hparent
    have hbelow : ∀ e ∈ parent.chain, e.stamp < c.stamp := fun e he => (holder e he).trans_lt hless
    rw [Class.chain_of_some hsome]
    refine ⟨List.forall_mem_cons.2 ⟨⟨methods, hc⟩, hmade⟩,
      List.forall_mem_cons.2 ⟨le_rfl, fun e he => (hbelow e he).le⟩, List.pairwise_cons.2 ⟨?_, hordered⟩⟩
    intro stamp hstamp
    obtain ⟨e, he, rfl⟩ := List.mem_map.1 hstamp
    exact hbelow e he

theorem length_chain_le (h : Lineage made) (hc : ⟨c, methods⟩ ∈ made) : c.chain.length ≤ made.length := by
  obtain ⟨hmade, -, hordered⟩ := h.chain hc
  have hnodup : (c.chain.map Class.stamp).Nodup := hordered.imp fun hlt => Nat.ne_of_gt hlt
  have hsubset : c.chain.map Class.stamp ⊆ made.map fun d => d.made.stamp := by
    intro stamp hstamp
    obtain ⟨e, he, rfl⟩ := List.mem_map.1 hstamp
    obtain ⟨methods, he⟩ := hmade e he
    exact List.mem_map_of_mem (f := fun d : Declared => d.made.stamp) he
  have hlength := (List.subperm_of_subset hnodup hsubset).length_le
  rwa [List.length_map, List.length_map] at hlength

/-- As many classes as the chain is long are enough. -/
theorem searchMethod_eq (h : Lineage made) (hc : ⟨c, methods⟩ ∈ made) (name : String) {fuel : Nat}
    (hfuel : c.chain.length ≤ fuel) : searchMethod made name fuel c.stamp = some (c.findMethod? name) := by
  induction c using Class.chain_induction generalizing methods fuel with
  | base c hnone =>
    rw [Class.chain_of_none hnone] at hfuel
    cases fuel with
    | zero => cases hfuel
    | succ fuel =>
      rw [searchMethod, h.find?_eq hc, Class.findMethod?_of_none hnone]
      dsimp only
      rw [hnone]
      cases c.methods.find? name <;> rfl
  | derived c parent hsome ih =>
    obtain ⟨-, methods', hparent⟩ := h.parents _ hc parent hsome
    rw [Class.chain_of_some hsome] at hfuel
    cases fuel with
    | zero => cases hfuel
    | succ fuel =>
      have ih := ih hparent (Nat.le_of_succ_le_succ hfuel)
      rw [searchMethod, h.find?_eq hc, Class.findMethod?_of_some hsome]
      dsimp only
      rw [hsome]
      cases c.methods.find? name with
      | none => exact ih
      | some f => rfl

theorem nearest_own (h : Lineage made) (hc : ⟨c, methods⟩ ∈ made) {name : String} {f : Function}
    (hf : c.methods.find? name = some f) : Nearest made name c (c.findMethod? name) := by
  obtain ⟨hmem, hlast⟩ := (h.tables _ hc).find?_eq_some_iff.1 hf
  rw [Class.findMethod?_of_own hf]
  exact .own hc hmem hlast

theorem nearest_findMethod? (h : Lineage made) (hc : ⟨c, methods⟩ ∈ made) (name : String) :
    Nearest made name c (c.findMethod? name) := by
  induction c using Class.chain_induction generalizing methods with
  | base c hnone =>
    cases hf : c.methods.find? name with
    | none =>
      rw [Class.findMethod?_of_none hnone, hf]
      exact .missing hc ((h.tables _ hc).find?_eq_none_iff.1 hf) hnone
    | some f => exact h.nearest_own hc hf
  | derived c parent hsome ih =>
    cases hf : c.methods.find? name with
    | none =>
      obtain ⟨-, methods', hparent⟩ := h.parents _ hc parent hsome
      rw [Class.findMethod?_of_some hsome, hf]
      exact .inherited hc ((h.tables _ hc).find?_eq_none_iff.1 hf) hsome (ih hparent)
    | some f => exact h.nearest_own hc hf

theorem findMethod?_of_nearest (h : Lineage made) {name : String} {result : Option Function}
    (hnearest : Nearest made name c result) : c.findMethod? name = result := by
  induction hnearest with
  | own hc hf hlast => exact Class.findMethod?_of_own ((h.tables _ hc).find?_eq_some_iff.2 ⟨hf, hlast⟩)
  | @inherited c parent methods result hc hnone hsuper _ ih =>
    have hmissing := (h.tables _ hc).find?_eq_none_iff.2 hnone
    dsimp only at hmissing
    rw [Class.findMethod?_of_some hsuper, hmissing, ih]
    rfl
  | @missing c methods hc hnone hsuper =>
    rw [Class.findMethod?_of_none hsuper]
    exact (h.tables _ hc).find?_eq_none_iff.2 hnone

/-- Methods are looked up as the declarations tell it. -/
theorem findMethod?_eq_iff (h : Lineage made) (hc : ⟨c, methods⟩ ∈ made) {name : String}
    {result : Option Function} : c.findMethod? name = result ↔ Nearest made name c result := by
  refine ⟨?_, h.findMethod?_of_nearest⟩
  rintro rfl
  exact h.nearest_findMethod? hc name

end Lineage
end Lox
