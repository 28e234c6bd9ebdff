import Lox.Proofs.Resolution.Rules
import Lox.Proofs.Scoping.Resolution

/-!
# The verdict of resolution

Resolution accepts a program if and only if no place of it breaks the rules. On the way the tables of
resolution have to be compared with the layers around a place: the same names can be used, and the
innermost table holds what its scope has declared so far.
-/
namespace Lox

namespace Resolver

/-- Nothing is meant by the name but a variable whose initializer is being resolved. -/
def Blocked (r : Resolver) (name : String) : Prop := r.Holds name ∧ ¬ r.Reads name

/-- The names can be declared in the innermost scope. -/
def Fresh (r : Resolver) (names : List String) : Prop :=
  r.scopes ≠ [] → names.Nodup ∧ ∀ name ∈ names, ¬ r.table.contains name

variable {r q t : Resolver} {names : List String}

theorem Clear.not_blocked (h : r.Clear) (name : String) : ¬ r.Blocked name :=
  fun hname => hname.2 (h.reads_iff_holds.2 hname.1)

theorem distance?_eq_none {name : String} {scopes : List Scope} {depth : Nat} :
    distance? name depth scopes = none ↔ ¬ ∃ t ∈ scopes, t.find? name = some true := by
  induction scopes generalizing depth with
  | nil => exact iff_of_true rfl fun h => h.elim fun _ ht => absurd ht.1 List.not_mem_nil
  | cons scope outer ih =>
    rw [distance?, List.exists_mem_cons_iff, not_or]
    split
    · next hready => exact iff_of_false (Option.some_ne_none _) fun h => h.1 hready
    · next hnot => exact ih.trans (and_iff_right hnot).symm

theorem blocked_iff {name : String} :
    r.Blocked name ↔ (r.globals.contains name ∨ ∃ t ∈ r.scopes, t.contains name) ∧
      distance? name 0 r.scopes = none ∧ r.globals.find? name ≠ some true := by
  unfold Blocked Holds Reads tables
  simp only [distance?_eq_none, List.mem_append, List.mem_singleton, or_and_right, exists_or,
    exists_eq_left, not_or]
  rw [or_comm]

theorem blocked_congr (hq : q.scopes = r.scopes ∧ q.globals = r.globals) (name : String) :
    q.Blocked name ↔ r.Blocked name := by
  unfold Blocked Holds Reads tables
  rw [hq.1, hq.2]

/-- A reference is reported if it means the variable whose initializer it stands in. -/
theorem faults_refer (r : Resolver) (ref : Reference) :
    (r.refer ref).faults = [] ↔ r.faults = [] ∧ ¬ r.Blocked ref.name.text := by
  have hreported : (r.report ref.name .ownInitializer).faults = [] ↔ False :=
    iff_of_false (faults_report r _ _) id
  rw [blocked_iff]
  unfold refer Bindings.contains
  dsimp only
  cases hd : distance? ref.name.text 0 r.scopes with
  | some d => simp
  | none =>
    cases hg : r.globals.find? ref.name.text with
    | some ready => cases ready <;> simp [hreported]
    | none =>
      dsimp only
      split
      · next hany =>
        obtain ⟨t, ht, hname⟩ := List.any_eq_true.1 hany
        simp only [hreported, false_iff]
        exact fun h => h.2 ⟨.inr ⟨t, ht, hname⟩, trivial, nofun⟩
      · next hnone =>
        refine (and_iff_left ?_).symm
        rintro ⟨hglobal | ⟨t, ht, hname⟩, -⟩
        · cases hglobal
        · exact hnone (List.any_eq_true.2 ⟨t, ht, hname⟩)

/-! ## Declarations -/

theorem fresh_nil : r.Fresh [] := fun _ => ⟨List.nodup_nil, nofun⟩

theorem faults_declare (r : Resolver) (name : Ident) :
    (r.declare name).faults = [] ↔ r.faults = [] ∧ r.Fresh [name.text] := by
  obtain ⟨scopes, globals, distances, faults⟩ := r
  cases scopes with
  | nil =>
    have hfresh : (⟨[], globals, distances, faults⟩ : Resolver).Fresh [name.text] := fun h => absurd rfl h
    rw [and_iff_left hfresh]
    unfold declare
    dsimp only
    split
    · rfl
    · rw [faults_mark]
  | cons scope outer =>
    have hfresh : (⟨scope :: outer, globals, distances, faults⟩ : Resolver).Fresh [name.text] ↔
        ¬ scope.contains name.text := by
      unfold Fresh
      simp [table]
    rw [hfresh]
    unfold declare
    dsimp only
    split
    · next hc =>
      rw [faults_mark]
      exact iff_of_false (faults_report _ _ _) fun h => h.2 hc
    · next hc =>
      rw [faults_mark]
      exact (and_iff_left hc).symm

/-- In its own initializer a variable means another one that is around, if there is one. -/
theorem blocked_declare (h : r.Clear) {name : Ident} (hfresh : r.Fresh [name.text]) {text : String} :
    (r.declare name).Blocked text ↔ text = name.text ∧ ¬ r.Holds name.text := by
  by_cases hc : r.table.contains name.text = true
  · have hnil : r.scopes = [] := by
      by_contra hscopes
      exact (hfresh hscopes).2 _ (List.mem_singleton.2 rfl) hc
    have hsame : (r.declare name).Blocked text ↔ r.Blocked text := by
      unfold Blocked Holds Reads
      rw [tables_declare_again hnil hc]
    rw [hsame]
    exact iff_of_false (h.not_blocked text) fun hn => hn.2 (holds_iff.2 (.inl hc))
  · have hholds : (r.declare name).Holds text ↔ name.text = text ∨ r.Holds text := by
      rw [holds_iff (r := r), Holds, tables_declare fun _ => hc, List.exists_mem_cons_iff,
        Bindings.contains_insert, Bool.or_eq_true, decide_eq_true_eq, or_assoc]
    have hreads : (r.declare name).Reads text ↔ r.Holds text := by
      rw [← h.reads_iff_holds, reads_iff (r := r), Reads, tables_declare fun _ => hc,
        List.exists_mem_cons_iff, Bindings.find?_insert]
      split
      · next htext =>
        have hnot : r.table.find? text ≠ some true := fun hready =>
          hc (htext ▸ Option.isSome_iff_exists.2 ⟨true, hready⟩)
        simp [hnot]
      · rfl
    unfold Blocked
    rw [hholds, hreads, or_and_right, and_not_self_iff, or_false]
    constructor
    · rintro ⟨rfl, hnot⟩
      exact ⟨rfl, hnot⟩
    · rintro ⟨rfl, hnot⟩
      exact ⟨rfl, hnot⟩

theorem Adds.fresh (h : Adds r q names) (names' : List String) :
    r.Fresh (names ++ names') ↔ r.Fresh names ∧ q.Fresh names' := by
  have hscopes : q.scopes = [] ↔ r.scopes = [] := by
    rw [← List.length_eq_zero_iff, h.length, List.length_eq_zero_iff]
  unfold Fresh
  by_cases hnil : r.scopes = []
  · simp [hnil, hscopes]
  · simp only [ne_eq, hnil, hscopes, not_false_eq_true, true_imp_iff, h.inner, List.nodup_append,
      List.forall_mem_append, not_or]
    constructor
    · rintro ⟨⟨hn, hn', hdisjoint⟩, hnew, hnew'⟩
      exact ⟨⟨hn, hnew⟩, hn', fun name hname => ⟨hnew' name hname, fun hold =>
        hdisjoint name hold name hname rfl⟩⟩
    · rintro ⟨⟨hn, hnew⟩, hn', hboth⟩
      exact ⟨⟨hn, hn', fun a ha b hb hab => (hboth b hb).2 (hab ▸ ha)⟩, hnew,
        fun name hname => (hboth name hname).1⟩

theorem faults_bind (r : Resolver) (name : Ident) :
    (r.bind name).faults = [] ↔ r.faults = [] ∧ r.Fresh [name.text] := by
  unfold bind define
  rw [faults_mark]
  exact faults_declare r name

theorem faults_bindAll (h : r.Clear) (params : List Ident) :
    (params.foldl Resolver.bind r).faults = [] ↔ r.faults = [] ∧ r.Fresh (params.map Ident.text) := by
  induction params generalizing r with
  | nil => exact (and_iff_left fresh_nil).symm
  | cons param rest ih =>
    have hfirst := h.adds_bind param
    have happend := hfirst.fresh (rest.map Ident.text)
    rw [List.foldl_cons, ih hfirst.clear, faults_bind, and_assoc, ← happend]
    rfl

end Resolver

open Resolver (Adds Clear steady_scopes bracketed_inside inside_mark Inside faults_mark fresh_nil)

/-! ## Expressions -/

theorem Resolver.faults_reportIf (r : Resolver) (c : Prop) [Decidable c] (name : Ident)
    (cause : ResolutionError) :
    (if c then r.report name cause else r).faults = [] ↔ r.faults = [] ∧ ¬ c := by
  split
  · next hc => exact iff_of_false (faults_report r name cause) fun h => h.2 hc
  · next hc => exact (and_iff_left hc).symm

mutual

theorem Expr.faults_resolve (context : Context) (r : Resolver) (e : Expr) :
    (e.resolve context r).faults = [] ↔ r.faults = [] ∧
      (∀ part, e.Part part → part.Allowed context.classes) ∧
      ∀ ref ∈ e.references, ¬ r.Blocked ref.name.text := by
  rw [Expr.forall_part]
  cases e with
  | literal value => simp [Expr.resolve, Expr.operands, Expr.references, Expr.Allowed]
  | unary op line operand =>
    rw [Expr.resolve, Expr.faults_resolve context r operand]
    simp [Expr.operands, Expr.references, Expr.Allowed]
  | grouping inner =>
    rw [Expr.resolve, Expr.faults_resolve context r inner]
    simp [Expr.operands, Expr.references, Expr.Allowed]
  | get object name =>
    rw [Expr.resolve, Expr.faults_resolve context r object]
    simp [Expr.operands, Expr.references, Expr.Allowed]
  | binary op line left right | logical op line left right =>
    have hsame := Resolver.blocked_congr (Expr.resolve_steady steady_scopes context r left)
    rw [Expr.resolve, Expr.faults_resolve context _ right, Expr.faults_resolve context r left]
    simp only [hsame, Expr.operands, Expr.references, Expr.Allowed, List.forall_mem_cons,
      List.forall_mem_append]
    tauto
  | «variable» ref =>
    rw [Expr.resolve, Resolver.faults_refer]
    simp [Expr.operands, Expr.references, Expr.Allowed]
  | assign ref value =>
    have hsame := Resolver.blocked_congr (Expr.resolve_steady steady_scopes context r value)
    rw [Expr.resolve, Resolver.faults_refer, Expr.faults_resolve context r value]
    simp only [hsame, Expr.operands, Expr.references, Expr.Allowed, List.forall_mem_singleton,
      List.forall_mem_append]
    tauto
  | call callee line arguments =>
    have hsame := Resolver.blocked_congr (Expr.resolve_steady steady_scopes context r callee)
    rw [Expr.resolve, Expr.faults_resolveAll context _ arguments, Expr.faults_resolve context r callee]
    simp only [hsame, Expr.operands, Expr.references, Expr.Allowed, List.forall_mem_cons,
      List.forall_mem_append]
    tauto
  | set object name value =>
    have hsame := Resolver.blocked_congr (Expr.resolve_steady steady_scopes context r value)
    rw [Expr.resolve, Expr.faults_resolve context _ object, Expr.faults_resolve context r value]
    simp only [hsame, Expr.operands, Expr.references, Expr.Allowed, List.forall_mem_cons,
      List.forall_mem_append]
    tauto
  | this ref =>
    rw [Expr.resolve]
    split
    · next houtside =>
      exact iff_of_false (Resolver.faults_report r _ _) fun h => h.2.1.1 houtside
    · next hinside =>
      rw [Resolver.faults_refer]
      simpa [Expr.operands, Expr.references, Expr.Allowed] using fun _ _ => hinside
  | super ref method =>
    rw [Expr.resolve]
    split
    · next houtside =>
      refine iff_of_false (Resolver.faults_report r _ _) fun h => ?_
      cases houtside.symm.trans h.2.1.1
    · next hbase =>
      refine iff_of_false (Resolver.faults_report r _ _) fun h => ?_
      cases hbase.symm.trans h.2.1.1
    · next hderived =>
      rw [Resolver.faults_refer]
      simpa [Expr.operands, Expr.references, Expr.Allowed] using fun _ _ => hderived

theorem Expr.faults_resolveAll (context : Context) (r : Resolver) (es : List Expr) :
    (Expr.resolveAll context r es).faults = [] ↔ r.faults = [] ∧
      (∀ e ∈ es, ∀ part, e.Part part → part.Allowed context.classes) ∧
      ∀ ref ∈ Expr.referencesAll es, ¬ r.Blocked ref.name.text := by
  cases es with
  | nil => simp [Expr.resolveAll, Expr.referencesAll]
  | cons e rest =>
    have hsame := Resolver.blocked_congr (Expr.resolve_steady steady_scopes context r e)
    rw [Expr.resolveAll, Expr.faults_resolveAll context _ rest, Expr.faults_resolve context r e]
    simp only [hsame, Expr.referencesAll, List.forall_mem_cons, List.forall_mem_append]
    tauto

end

/-! ## The walk over a program -/

/-- No initializer is being resolved, and these are the names that some table has. -/
structure Resolver.Knows (r : Resolver) (P : String → Prop) : Prop where
  clear : r.Clear
  holds : ∀ name, r.Holds name ↔ P name

section

variable {globals : List String} {around : List Layer} {before body : List Stmt}
  {r q : Resolver} {P Q : String → Prop}

theorem Resolver.Knows.adds {names : List String} (h : r.Knows P) (ha : Adds r q names)
    (hQ : ∀ name, Q name ↔ P name ∨ name ∈ names) : q.Knows Q :=
  ⟨ha.clear, fun name => (ha.holds name).trans (by rw [h.holds, hQ])⟩

theorem Resolver.Knows.steady (h : r.Knows P) (ha : Adds r q []) : q.Knows P :=
  h.adds ha fun _ => (or_iff_left List.not_mem_nil).symm

theorem Resolver.Knows.enter (h : r.Knows P) : r.enter.Knows P := by
  refine ⟨h.clear.enter, fun name => (Resolver.holds_iff.trans ?_).trans (h.holds name)⟩
  exact ⟨fun hname => hname.resolve_left nofun, .inr⟩

theorem known_cons (layer : Layer) (name : String) :
    Known globals (layer :: around) name ↔ Known globals around name ∨ name ∈ layer.names := by
  unfold Known
  rw [List.exists_mem_cons_iff, or_assoc]
  exact or_congr_right or_comm

theorem known_after_nil (name : String) :
    Known globals (.after [] :: around) name ↔ Known globals around name :=
  (known_cons _ name).trans (or_iff_left List.not_mem_nil)

theorem known_after_append (s : Stmt) (name : String) :
    Known globals (.after (before ++ [s]) :: around) name ↔
      Known globals (.after before :: around) name ∨ name ∈ s.declared := by
  have hnames : (Layer.after (before ++ [s])).names = (Layer.after before).names ++ s.declared := by
    rw [Layer.names, List.flatMap_append, List.flatMap_singleton]
    rfl
  rw [known_cons, known_cons, or_assoc, hnames, List.mem_append]

theorem Resolver.fresh_enter {names : List String} : r.enter.Fresh names ↔ names.Nodup :=
  ⟨fun h => (h (List.cons_ne_nil _ _)).1, fun h _ => ⟨h, nofun⟩⟩

theorem Expr.faults_resolve_clear (h : r.Clear) (context : Context) (e : Expr) :
    (e.resolve context r).faults = [] ↔
      r.faults = [] ∧ ∀ part, e.Part part → part.Allowed context.classes := by
  rw [Expr.faults_resolve]
  exact and_congr_right' (and_iff_left fun ref _ => h.not_blocked ref.name.text)

theorem Resolver.faults_superclass (h : r.Clear) (name : Ident) (parent : Reference) :
    ((r.bind name).superclass name parent).faults = [] ↔
      r.faults = [] ∧ r.Fresh [name.text] ∧ parent.name.text ≠ name.text := by
  have hreport := Adds.of_eq (h.adds_bind name).clear
    (steady_scopes.reportIf [] (r.bind name) (parent.name.text = name.text) parent.name .selfInheritance)
  unfold superclass
  rw [faults_refer, and_iff_left (hreport.clear.not_blocked _), faults_reportIf, faults_bind, and_assoc]

end

mutual

theorem Stmt.faults_resolve {globals : List String} (around : List Layer) {r : Resolver} (s : Stmt)
    (h : r.Knows (Known globals around)) :
    (s.resolve (Layer.context around) r).faults = [] ↔
      r.faults = [] ∧ r.Fresh s.declared ∧ Place.Sound globals ⟨around, s⟩ := by
  cases s with
  | expression e | print e =>
    rw [Place.sound_leaf, Stmt.proper_singleton rfl, Stmt.resolve, Expr.faults_resolve_clear h.clear,
      Stmt.declared, and_iff_right fresh_nil]
    · exact and_congr_right' (and_iff_left trivial).symm
    · rintro _ ⟨⟩
  | var name value =>
    rw [Place.sound_leaf, Stmt.resolve, Resolver.define, faults_mark, Stmt.declared]
    · cases value with
      | none =>
        rw [Expr.resolveOption, Resolver.faults_declare, and_iff_right (Stmt.proper_nil rfl)]
        exact and_congr_right' (and_iff_left nofun).symm
      | some e =>
        rw [Expr.resolveOption, Expr.faults_resolve, Resolver.faults_declare, Stmt.proper_singleton rfl,
          and_assoc]
        refine and_congr_right' (and_congr_right fun hfresh => and_congr_right' ?_)
        unfold Stmt.Kept
        simp only [Option.mem_some_iff, forall_eq', Resolver.blocked_declare h.clear hfresh, h.holds,
          not_and_not_right]
    · rintro _ ⟨⟩
  | ret line value =>
    rw [Place.sound_leaf, Stmt.declared, and_iff_right fresh_nil]
    · cases value with
      | none =>
        rw [Stmt.resolve, Resolver.faults_reportIf, and_iff_right (Stmt.proper_nil rfl)]
        exact and_congr_right' (and_iff_left nofun).symm
      | some e =>
        have houtside := Adds.of_eq h.clear (steady_scopes.reportIf [] r
          ((Layer.context around).function = .outside) ⟨"return", line⟩ .topLevelReturn)
        have hvalue := Adds.of_eq houtside.clear (steady_scopes.reportIf [] _
          ((Layer.context around).function = .initializer) ⟨"return", line⟩ .initializerValue)
        rw [Stmt.resolve, Expr.faults_resolve_clear hvalue.clear, Resolver.faults_reportIf,
          Resolver.faults_reportIf, Stmt.proper_singleton rfl]
        unfold Stmt.Kept
        simp only [Option.isSome_some, true_imp_iff]
        tauto
    · rintro _ ⟨⟩
  | block body =>
    have hbody := Stmt.faults_resolveAll around [] body (h.enter.adds (.of_eq h.enter.clear ⟨rfl, rfl⟩)
      fun name => (known_after_nil name).trans (or_iff_left List.not_mem_nil).symm)
    rw [Resolver.fresh_enter] at hbody
    rw [Place.sound_block, Stmt.resolve, Stmt.declared, and_iff_right fresh_nil]
    exact hbody
  | branch condition yes no =>
    have hcondition := Adds.of_eq h.clear
      (Expr.resolve_steady steady_scopes (Layer.context around) r condition)
    have hyes := Stmt.faults_resolve around yes (h.steady hcondition)
    have hfresh := hcondition.fresh yes.declared
    rw [List.nil_append, and_iff_right fresh_nil] at hfresh
    rw [Expr.faults_resolve_clear h.clear, ← hfresh] at hyes
    rw [Place.sound_branch]
    cases no with
    | none =>
      rw [Stmt.resolve, Stmt.declared]
      refine hyes.trans ?_
      simp only [Option.not_mem_none, false_imp_iff, implies_true, and_true]
      tauto
    | some no =>
      have hboth := hcondition.trans (Stmt.adds_resolve (Layer.context around) yes hcondition.clear)
      have hno := Stmt.faults_resolve (.after [yes] :: around) no (h.adds hboth fun name => by
        rw [known_cons, Layer.names, List.flatMap_singleton]
        rfl)
      have happend := hboth.fresh no.declared
      rw [List.nil_append] at happend
      rw [Stmt.resolve, Stmt.declared, happend]
      refine hno.trans ?_
      rw [hyes]
      simp only [Option.mem_some_iff, forall_eq']
      tauto
  | loop condition body =>
    have hcondition := Adds.of_eq h.clear
      (Expr.resolve_steady steady_scopes (Layer.context around) r condition)
    have hbody := Stmt.faults_resolve around body (h.steady hcondition)
    have hfresh := hcondition.fresh body.declared
    rw [List.nil_append, and_iff_right fresh_nil] at hfresh
    rw [Expr.faults_resolve_clear h.clear, ← hfresh] at hbody
    rw [Place.sound_loop, Stmt.resolve, Stmt.declared]
    refine hbody.trans ?_
    tauto
  | function decl =>
    have hbind := h.clear.adds_bind decl.name
    have hdecl := FunctionDecl.faults_resolve globals (.function decl :: around) decl
      (h.adds hbind fun _ => Iff.rfl) fun name => by
        rw [known_cons, or_assoc, ← List.mem_append]
        rfl
    rw [Resolver.faults_bind, and_assoc] at hdecl
    rw [Place.sound_function, Stmt.resolve]
    exact hdecl
  | classDecl name superclass methods =>
    have hbind := h.clear.adds_bind name
    rw [Place.sound_classDecl]
    cases superclass with
    | none =>
      have hentered := (h.adds hbind fun _ => Iff.rfl).enter
      have hthis := hentered.clear.adds_mark "this"
      have hmethods := FunctionDecl.faults_resolveMethods name none methods
        (hentered.adds hthis fun name => by
          rw [known_cons, or_assoc, ← List.mem_append]
          rfl)
      have hmark : ((r.bind name).enter.mark "this" true).faults = (r.bind name).faults := faults_mark _ _ _
      have hnone : ∀ parent ∈ (none : Option Reference), parent.name.text ≠ name.text := nofun
      rw [hmark, Resolver.faults_bind, and_assoc] at hmethods
      rw [Stmt.resolve, and_iff_right hnone]
      exact hmethods
    | some parent =>
      have hparent := Adds.of_eq hbind.clear (steady_scopes.superclass (r.bind name) name parent)
      have hentered := (h.adds (hbind.trans hparent) fun _ => Iff.rfl).enter
      have hsuper := hentered.clear.adds_mark "super"
      have hinner := (hentered.adds hsuper fun _ => Iff.rfl).enter
      have hthis := hinner.clear.adds_mark "this"
      have hmethods := FunctionDecl.faults_resolveMethods name (some parent) methods
        (hinner.adds hthis fun name => by
          rw [known_cons, or_assoc, or_assoc, ← List.mem_append, ← List.mem_append]
          rfl)
      have hmarks : ((((r.bind name).superclass name parent).enter.mark "super" true).enter.mark
          "this" true).faults = ((r.bind name).superclass name parent).faults :=
        (faults_mark (Resolver.enter _) "this" true).trans (faults_mark (Resolver.enter _) "super" true)
      rw [hmarks, Resolver.faults_superclass h.clear, and_assoc, and_assoc] at hmethods
      simp only [Option.mem_some_iff, forall_eq']
      rw [Stmt.resolve]
      exact hmethods

theorem Stmt.faults_resolveAll {globals : List String} (around : List Layer) (before : List Stmt)
    {r : Resolver} (body : List Stmt) (h : r.Knows (Known globals (.after before :: around))) :
    (Stmt.resolveAll (Layer.context around) r body).faults = [] ↔
      r.faults = [] ∧ r.Fresh (body.flatMap Stmt.declared) ∧ SoundAll globals around before body := by
  cases body with
  | nil =>
    rw [Stmt.resolveAll, List.flatMap_nil, and_iff_right fresh_nil]
    exact (and_iff_left soundAll_nil).symm
  | cons s rest =>
    have hfirst := Stmt.adds_resolve (Layer.context around) s h.clear
    have hs := Stmt.faults_resolve (.after before :: around) s h
    have hrest := Stmt.faults_resolveAll around (before ++ [s]) rest
      (h.adds hfirst fun name => known_after_append s name)
    rw [Stmt.resolveAll, hrest]
    rw [show Layer.context around = Layer.context (.after before :: around) from rfl, hs,
      List.flatMap_cons, hfirst.fresh, soundAll_cons]
    tauto

theorem FunctionDecl.faults_resolve (globals : List String) (around : List Layer) {r : Resolver}
    {P : String → Prop} (decl : FunctionDecl) (h : r.Knows P)
    (hP : ∀ name, Known globals around name ↔ P name ∨ name ∈ decl.params.map Ident.text) :
    (decl.resolve (Layer.context around) r).faults = [] ↔
      r.faults = [] ∧ decl.locals.Nodup ∧ SoundAll globals around [] decl.body := by
  obtain ⟨name, params, body⟩ := decl
  have hparams := Resolver.adds_bindAll h.enter.clear params
  have hbody := Stmt.faults_resolveAll around [] body
    (h.enter.adds hparams fun name => (known_after_nil name).trans (hP name))
  rw [Resolver.faults_bindAll h.enter.clear, and_assoc] at hbody
  rw [FunctionDecl.resolve]
  refine hbody.trans ?_
  rw [← and_assoc (a := Resolver.Fresh _ _), ← hparams.fresh, Resolver.fresh_enter]
  rfl

theorem FunctionDecl.faults_resolveMethods {globals : List String} {around : List Layer}
    (name : Ident) (superclass : Option Reference) {r : Resolver} (methods : List FunctionDecl)
    (h : r.Knows (Known globals (.classDecl name superclass :: around))) :
    (FunctionDecl.resolveMethods (Layer.context (.classDecl name superclass :: around)) r methods).faults
        = [] ↔
      r.faults = [] ∧ ∀ decl ∈ methods, decl.locals.Nodup ∧
        SoundAll globals (.method decl :: .classDecl name superclass :: around) [] decl.body := by
  cases methods with
  | nil => exact (and_iff_left nofun).symm
  | cons decl rest =>
    let inside := Layer.method decl :: .classDecl name superclass :: around
    have hdecl := FunctionDecl.faults_resolve globals inside decl h (known_cons _)
    have hleave : Adds r (decl.resolve (Layer.context inside) r) [] :=
      .of_eq h.clear (FunctionDecl.resolve_outside _ decl r)
    have hrest := FunctionDecl.faults_resolveMethods name superclass rest (h.steady hleave)
    rw [FunctionDecl.resolveMethods, List.forall_mem_cons]
    refine hrest.trans ?_
    rw [hdecl, and_assoc]

end

/-- Resolution accepts exactly the programs that keep the rules. -/
theorem resolveProgram_ok_iff (globals : List String) (program : List Stmt) :
    (∃ distances, resolveProgram globals program = .ok distances) ↔ ¬ Malformed globals program := by
  have hknows : (Resolver.start globals).Knows (Known globals [.after []]) :=
    ⟨Resolver.clear_start globals, fun name => (Resolver.holds_start globals name).trans
      ((known_after_nil name).trans
        (or_iff_left fun ⟨_, hlayer, _⟩ => List.not_mem_nil hlayer)).symm⟩
  have hfaults := Stmt.faults_resolveAll [] [] program hknows
  have hfresh : (Resolver.start globals).Fresh (program.flatMap Stmt.declared) := fun h => absurd rfl h
  rw [and_iff_right hfresh, ← not_malformed] at hfaults
  refine Iff.trans ?_ (hfaults.trans (and_iff_right rfl))
  constructor
  · rintro ⟨distances, hok⟩
    exact (Resolver.finish_eq_ok.1 hok).1
  · exact fun hnil => ⟨_, Resolver.finish_eq_ok.2 ⟨hnil, rfl⟩⟩

end Lox
