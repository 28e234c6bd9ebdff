import Lox.Proofs.Splicing.Sessions

/-!
# What is learned stays

The trees of one process have no identity in common, however many texts are parsed and whatever is wrong
with them. An interpreter that learns the distances for one of them learns nothing about the others.
-/
namespace Lox

/-- A tree that parsing returns. -/
inductive SyntaxTree where
  | program (body : List Stmt)
  | expression (e : Expr)

namespace SyntaxTree

def references : SyntaxTree → List Reference
  | program body => Stmt.referencesAll body
  | expression e => e.references

abbrev ids (tree : SyntaxTree) : List Nat := tree.references.map Reference.id

def resolve (globals : List String) : SyntaxTree → Except (List ResolutionFault) (List (Nat × Nat))
  | program body => resolveProgram globals body
  | expression e => resolveExpression globals e

theorem mem_ids_of_resolve {globals : List String} {tree : SyntaxTree} {d : List (Nat × Nat)}
    (h : tree.resolve globals = .ok d) : ∀ entry ∈ d, entry.1 ∈ tree.ids := by
  cases tree with
  | program body => exact mem_ids_of_resolveProgram h
  | expression e => exact mem_ids_of_resolveExpression h

end SyntaxTree

/-- The trees of some texts that are parsed one after the other, of all that have one. What has errors may
have a tree too. -/
def parseEach (n : Nat) : List (Mode × List Token) → List SyntaxTree
  | [] => []
  | (.program, tokens) :: rest =>
    let parsed := parseProgram n tokens
    .program parsed.tree :: parseEach parsed.nextId rest
  | (.expression, tokens) :: rest =>
    let parsed := parseExpression n tokens
    (parsed.tree.map SyntaxTree.expression).toList ++ parseEach parsed.nextId rest

/-- Texts have references of their own. -/
theorem distinct_parseEach (n : Nat) (texts : List (Mode × List Token)) :
    ∃ m, n ≤ m ∧ Distinct n m ((parseEach n texts).flatMap SyntaxTree.references) := by
  induction texts generalizing n with
  | nil => exact ⟨n, le_rfl, .nil⟩
  | cons text rest ih =>
    obtain ⟨mode, tokens⟩ := text
    cases mode with
    | program =>
      obtain ⟨hle, htree⟩ := distinct_parseProgram n tokens
      obtain ⟨m, hm, hrest⟩ := ih (parseProgram n tokens).nextId
      exact ⟨m, hle.trans hm, htree.append hrest hle hm⟩
    | expression =>
      obtain ⟨hle, htree⟩ := distinct_parseExpression n tokens
      obtain ⟨m, hm, hrest⟩ := ih (parseExpression n tokens).nextId
      refine ⟨m, hle.trans hm, ?_⟩
      have hboth := htree.append hrest hle hm
      rw [parseEach, List.flatMap_append]
      cases hparsed : (parseExpression n tokens).tree with
      | none =>
        rw [hparsed] at hboth
        exact hboth
      | some e =>
        rw [hparsed] at hboth
        simpa [SyntaxTree.references] using hboth

/-- Trees have no identity in common. -/
theorem not_mem_ids_of_nodup {before after : List SyntaxTree} {tree other : SyntaxTree}
    (h : (((before ++ tree :: after).flatMap SyntaxTree.references).map Reference.id).Nodup)
    (hother : other ∈ before ++ after) {x : Nat} (hx : x ∈ other.ids) : x ∉ tree.ids := by
  have hall : ((before ++ tree :: after).flatMap SyntaxTree.ids).Nodup := by
    rwa [List.map_flatMap] at h
  rw [← List.perm_middle.symm.flatMap_right SyntaxTree.ids |>.nodup_iff, List.flatMap_cons] at hall
  have hapart := (List.nodup_append.1 hall).2.2
  intro hmem
  exact hapart x hmem x (List.mem_flatMap.2 ⟨other, hother, hx⟩) rfl

namespace Interpreter

theorem getElem?_learnAll_of_not_mem {tables : List (List (Nat × Nat))} {i : Interpreter} {x : Nat}
    (h : ∀ d ∈ tables, ∀ entry ∈ d, entry.1 ≠ x) :
    (tables.foldl learn i).distances[x]? = i.distances[x]? := by
  induction tables generalizing i with
  | nil => rfl
  | cons d rest ih =>
    have hfirst := getElem?_learn_of_not_mem (i := i) (h d List.mem_cons_self)
    exact (ih fun d' hd' => h d' (List.mem_cons_of_mem _ hd')).trans hfirst

end Interpreter

/-- What is known of the references of earlier runs is not changed by a run. -/
theorem Session.distances_run (s : Session) (fuel : Nat) (mode : Mode) (source : String) {x : Nat}
    (hx : x < s.nextId) :
    (s.run fuel mode source).2.interpreter.distances[x]? = s.interpreter.distances[x]? := by
  rw [run_eq]
  cases mode with
  | program =>
    rcases analyze_program_cases s source with ⟨diagnostics, h⟩ | ⟨tree, d, hparses, hresolved, h⟩
    · rw [h]
      rfl
    · rw [h]
      refine (congrArg (·[x]?) (Interpreter.distances_interpret _ fuel tree)).trans ?_
      apply Interpreter.getElem?_learn_of_not_mem
      have := hparses.distances hresolved
      grind
  | expression =>
    rcases analyze_expression_cases s source with ⟨diagnostics, h⟩ | ⟨e, d, -, hparses, hresolved, h⟩
    · rw [h]
      rfl
    · rw [h]
      refine (congrArg (·[x]?) (Session.distances_runExpression _ fuel e)).trans ?_
      apply Interpreter.getElem?_learn_of_not_mem
      have := distances_of_parseExpression hparses hresolved
      grind

/-- Texts that are parsed one after the other never share an identity. When an interpreter learns the
distances for the tree of one of them, having learned any for the others, all entries are new and about that
tree, and what it knows of the others stays as it is. -/
theorem ids_parseEach (n : Nat) (texts : List (Mode × List Token)) :
    (((parseEach n texts).flatMap SyntaxTree.references).map Reference.id).Nodup ∧
      ∀ before tree after, parseEach n texts = before ++ tree :: after →
        ∀ (i : Interpreter) (tables : List (List (Nat × Nat))),
          (∀ id, n ≤ id → i.distances[id]? = none) →
          (∀ d ∈ tables, ∃ other ∈ before ++ after, ∃ globals, other.resolve globals = .ok d) →
          ∀ globals distances, tree.resolve globals = .ok distances →
            let known := tables.foldl Interpreter.learn i
            (∀ entry ∈ distances, entry.1 ∈ tree.ids ∧ known.distances[entry.1]? = none) ∧
              ∀ other ∈ before ++ after, ∀ ref ∈ other.references,
                (known.learn distances).distances[ref.id]? = known.distances[ref.id]? := by
  obtain ⟨m, -, hdistinct⟩ := distinct_parseEach n texts
  refine ⟨hdistinct.nodup, ?_⟩
  intro before tree after hsplit i tables hnone htables globals distances hresolved known
  have hnodup := hdistinct.nodup
  rw [hsplit] at hnodup hdistinct
  have hown := SyntaxTree.mem_ids_of_resolve hresolved
  constructor
  · intro entry hentry
    refine ⟨hown entry hentry, ?_⟩
    have hid : entry.1 ∈ ((before ++ tree :: after).flatMap SyntaxTree.references).map Reference.id := by
      rw [List.map_flatMap]
      exact List.mem_flatMap.2 ⟨tree, by simp, hown entry hentry⟩
    rw [Interpreter.getElem?_learnAll_of_not_mem, hnone _ (hdistinct.of_mem_ids hid).1]
    rintro d hd entry' hentry' hsame
    obtain ⟨other, hother, globals', hresolved'⟩ := htables d hd
    have hmem := SyntaxTree.mem_ids_of_resolve hresolved' entry' hentry'
    exact not_mem_ids_of_nodup hnodup hother hmem (hsame ▸ hown entry hentry)
  · intro other hother ref href
    apply Interpreter.getElem?_learn_of_not_mem
    intro entry hentry hsame
    exact not_mem_ids_of_nodup hnodup hother (List.mem_map_of_mem href) (hsame ▸ hown entry hentry)

/-- A declaration is dropped, and what is read after it has identities of its own. -/
theorem ids_parseEach_recovered :
    let texts := [(Mode.program, (tokenize "var a = b c; fun f(n) { n = n; }").1),
      (Mode.expression, (tokenize "a = b").1)]
    ∃ first second, parseEach 0 texts = [first, second] ∧ first.ids = [2, 3] ∧ second.ids = [5, 6] ∧
      ∃ distances, first.resolve [] = .ok distances ∧ distances = [(3, 0), (2, 0)] ∧
        let known := (Session.new {} ⟨fun _ => 0, 0, 0⟩).interpreter
        (∀ entry ∈ distances, entry.1 ∈ first.ids ∧ known.distances[entry.1]? = none) ∧
          ∀ ref ∈ second.references, (known.learn distances).distances[ref.id]? = known.distances[ref.id]? := by
  intro texts
  have hids : (parseEach 0 texts).map SyntaxTree.ids = [[2, 3], [5, 6]] := by decide +kernel
  have htables : (parseEach 0 texts).map (fun tree => (tree.resolve []).toOption) =
      [some [(3, 0), (2, 0)], some []] := by decide +kernel
  obtain ⟨first, second, htrees⟩ := List.length_eq_two.1 (by simpa using congrArg List.length hids)
  rw [htrees] at hids htables
  obtain ⟨hfirst, hsecond⟩ : first.ids = [2, 3] ∧ second.ids = [5, 6] := by simpa using hids
  obtain ⟨distances, hresolved, hd⟩ : ∃ d, first.resolve [] = .ok d ∧ d = [(3, 0), (2, 0)] := by
    cases h : first.resolve [] with
    | error faults => simp [h, Except.toOption] at htables
    | ok d => exact ⟨d, rfl, by simpa [h, Except.toOption] using (List.cons.inj htables).1⟩
  have hnone : ∀ id, 0 ≤ id → (Session.new {} ⟨fun _ => 0, 0, 0⟩).interpreter.distances[id]? = none :=
    fun _ _ => Std.TreeMap.getElem?_emptyc
  obtain ⟨hnew, hothers⟩ := (ids_parseEach 0 texts).2 [] first [second] htrees _ [] hnone (by simp) []
    distances hresolved
  exact ⟨first, second, htrees, hfirst, hsecond, distances, hresolved, hd, hnew,
    hothers second List.mem_cons_self⟩

end Lox
