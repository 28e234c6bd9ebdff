import Lox.Proofs.Locals.Renaming
import Lox.Proofs.Locals.Resolution
import Lox.Proofs.Locals.Runs
import Lox.Proofs.Scoping.Sessions

/-!
# Renaming a local variable goes unnoticed

When a source is fed to a session, no scope is marked: the frames that there are, and the functions that close
over them, have been made for other sources. From there the program and the one with another name for a local
variable run side by side. What resolution has found is found, since every reference leads to where it belongs.
-/
namespace Lox

open Classical in
/-- Around the frames that have been made no scope is marked. -/
noncomputable def Marking.unmarked (a : Arena) : Marking := fun h => if a.Issued h then some [] else none

variable {ξ : Exchange}

/-! ## Before the run -/

section

variable {a : Arena} {h : Handle}

theorem Marking.unmarked_of_issued (hi : a.Issued h) : Marking.unmarked a h = some [] := if_pos hi

theorem Marking.issued_of_unmarked {marks : List Bool} (hm : Marking.unmarked a h = some marks) :
    a.Issued h := by
  by_contra hnot
  cases (if_neg hnot).symm.trans hm

theorem Marking.mark_unmarked (a : Arena) (h : Handle) : (Marking.unmarked a).mark h = false := by
  unfold Marking.mark Marking.unmarked
  split <;> rfl

theorem Arena.issued_of_contains (hc : a.contains h = true) : a.Issued h := by
  obtain ⟨f, hf⟩ := Arena.contains_iff.1 hc
  exact Arena.issued_of_frame? hf

theorem Arena.Captured.issued (hc : a.Captured h) : a.Issued h := by
  obtain ⟨f, hf, -⟩ := hc
  exact Arena.issued_of_frame? hf

theorem Arena.Stands.issued {os : List Opening} {around : List Surrounding} (hs : a.Stands os h around)
    (hglobals : a.Issued .globals) : a.Issued h := by
  cases around with
  | nil =>
    cases show h = .globals from hs
    exact hglobals
  | cons scope outer => exact hs.1

/-- A value that closes over frames which have been made is the same in both runs. -/
theorem Value.Exchanged.refl {v : Value} (hf : ∀ f, v = .function f → a.Issued f.closure)
    (hc : ∀ c name f, v = .classObject c → c.findMethod? name = some f → a.Issued f.closure) :
    v.Exchanged ξ (.unmarked a) v := by
  cases v with
  | function f => exact ⟨f, rfl, .refl (Marking.unmarked_of_issued (hf f rfl)) .nil⟩
  | classObject c =>
    refine ⟨c, rfl, rfl, rfl, rfl, fun name => ?_⟩
    cases hm : c.findMethod? name with
    | none => exact .none
    | some f => exact .some (.refl (Marking.unmarked_of_issued (hc c name f rfl hm)) (.cons .nil))
  | _ => rfl

end

namespace Store

variable {s : Store} {past : Past} {P : List Surrounding → Reference → Prop} {v : Value}

theorem Supports.exchanged (hv : s.Supports v) : v.Exchanged ξ (.unmarked s.arena) v := by
  refine .refl ?_ ?_
  · rintro f rfl
    unfold Supports at hv
    dsimp only at hv
    split at hv
    · exact hv.issued
    · exact Arena.issued_of_contains hv.2
  · rintro c name f rfl hf
    exact (hv f.closure (Interpreter.closure_mem_closures hf)).issued

theorem exchanged_of_placed (hglobals : s.arena.Issued .globals) (hv : v.Placed P (past.standing s.arena)) :
    v.Exchanged ξ (.unmarked s.arena) v := by
  refine .refl ?_ ?_
  · rintro f rfl
    obtain ⟨-, -, around, hstands, -⟩ := hv
    exact Arena.Stands.issued hstands hglobals
  · rintro c name f rfl hf
    obtain ⟨-, -, around, hstands, -⟩ := hv name f hf
    exact Arena.Stands.issued hstands hglobals

theorem covers_unmarked {extra : List ObjectId} {held : List Value} {acts : List Activation}
    (hs : s.Healthy extra held acts) : (Marking.unmarked s.arena).Covers s.arena := by
  obtain ⟨globals, hglobals, -⟩ := hs.intact.globals
  refine ⟨fun h f hf => ⟨[], Marking.unmarked_of_issued (Arena.issued_of_frame? hf), fun outer houter => ?_⟩,
    fun h marks => Marking.issued_of_unmarked, Marking.unmarked_of_issued (Arena.issued_of_frame? hglobals),
    hs.accounted.recycles⟩
  exact Marking.unmarked_of_issued (Arena.issued_of_contains (hs.intact.live h f outer hf houter))

theorem payload_exchanged {p : Payload} (hp : ∀ v ∈ p.values, v.Exchanged ξ (.unmarked s.arena) v) :
    p.Exchanged ξ (.unmarked s.arena) p := by
  cases p with
  | «instance» c fields =>
    obtain ⟨hc, hfields⟩ := List.forall_mem_cons.1 hp
    obtain ⟨d, hd, hclass⟩ := hc
    cases hd
    exact .instance hclass (.refl hfields)
  | array elements =>
    refine .array fun i => ?_
    cases he : elements[i]? with
    | none => exact .none
    | some v => exact .some (hp v (Array.mem_toList_iff.2 (Array.mem_of_getElem? he)))
  | binding frame => exact .binding frame

/-- A store with everything in its place is the same in both runs. -/
theorem exchanged_self {extra : List ObjectId} {held : List Value} {acts : List Activation}
    (hs : s.Healthy extra held acts) (heach : s.Each (Value.Placed P (past.standing s.arena))) :
    s.Exchanged ξ (.unmarked s.arena) s := by
  obtain ⟨globals, hglobals, -⟩ := hs.intact.globals
  refine ⟨⟨fun i => ?_, rfl, rfl, rfl, rfl⟩, ⟨fun i => ?_, rfl⟩, rfl, covers_unmarked hs⟩
  · cases hslot : s.arena.slots[i]? with
    | none => exact .none
    | some slot =>
      cases slot with
      | vacant generation => exact .some .vacant
      | occupied generation f =>
        have hf : s.arena.frame? ⟨i, generation⟩ = some f := Arena.frame?_eq_some_iff.2 hslot
        refine .some (.occupied ⟨?_, rfl, rfl⟩)
        rw [Marking.mark_unmarked, show ξ.text false = id from funext ξ.text_false]
        exact .refl fun v hv => (hs.intact.supported v (.bound hf hv)).exchanged
  · cases hobject : s.heap.objects[i]? with
    | none => exact .none
    | some o =>
      cases o with
      | none => exact .some .none
      | some o =>
        have hp : s.heap.payload? i = some o.payload := by
          unfold Heap.payload? Heap.find?
          rw [hobject]
          rfl
        exact .some (.some ⟨rfl, payload_exchanged fun v hv =>
          exchanged_of_placed (Arena.issued_of_frame? hglobals) (heach.inside i o.payload hp v hv)⟩)

end Store

/-- An interpreter between two runs does the same as itself. -/
theorem Interpreter.Orderly.exchanged {i j : Interpreter} {os : List Occurrence} {past : Past} {a b : Record}
    (h : i.Orderly os past) (hidle : Idle (Recorded a b) i j)
    (hdistances : ∀ id : Nat, i.distances[id]? = ξ.distances id) :
    i.Exchanged ξ (.unmarked i.store.arena) [] i := by
  obtain ⟨ρ, ht⟩ := hidle
  have hstore := Store.exchanged_self (ξ := ξ) ht.store.healthy h.store
  refine ⟨hstore, ?_, rfl, hdistances, fun _ => rfl, rfl, rfl⟩
  rw [ht.active]
  exact hstore.covers.globals

/-! ## The references of a program -/

/-- What is said of the references is how far away their scopes are. -/
def Exchange.Counts (ξ : Exchange) (os : List Occurrence) : Prop :=
  ∀ o ∈ os, ξ.distances o.1.id = Surrounding.distance? o.1.name.text o.2

section

variable {P : List Surrounding → Reference → Prop} {tree : List Stmt} {os : List Occurrence} {past : Past}

/-- A reference of a program does not have a name that is unused there. -/
theorem Unused.ne {name : String} (h : Unused name tree) {o : Occurrence}
    (ho : o ∈ Stmt.occurrencesAll [] tree) : o.1.name.text ≠ name := by
  refine h.2 o.1 ?_
  rw [← Stmt.occurrencesAll_fst [] tree]
  exact List.mem_map_of_mem ho

theorem Exchange.Counts.knows (hcounts : ξ.Counts (Stmt.occurrencesAll [] tree)) (hunused : Unused ξ.new tree)
    (hfits : Stmt.FitsAll P [] tree) : Stmt.FitsAll ξ.Knows [] tree :=
  hfits.imp fun o ho _ => ⟨hunused.ne ho, hcounts o ho⟩

/-- Where no two references have one identity, each has one distance. -/
theorem Exchange.Counts.finds (hcounts : ξ.Counts (Stmt.occurrencesAll [] tree)) (hunused : Unused ξ.new tree)
    (hfits : Stmt.FitsAll P [] tree) (hnodup : ((Stmt.referencesAll tree).map Reference.id).Nodup) :
    Stmt.FitsAll (fun _ => ξ.Finds (Occurrence.distances (Stmt.occurrencesAll [] tree))) [] tree := by
  rw [← Stmt.occurrencesAll_fst [] tree, List.map_map] at hnodup
  refine hfits.imp fun o ho _ => ⟨hunused.ne ho, fun d => ?_⟩
  rw [hcounts o ho, Occurrence.mem_distances]
  constructor
  · rintro ⟨other, hother, hd⟩
    obtain ⟨d', hd', heq⟩ := Option.map_eq_some_iff.1 hd
    obtain ⟨hid, rfl⟩ := Prod.mk.inj heq
    obtain rfl : other = o := List.inj_on_of_nodup_map hnodup hother ho hid
    exact hd'
  · intro hd
    exact ⟨o, ho, Option.map_eq_some_iff.2 ⟨d, hd, rfl⟩⟩

/-- No two references of a text have one identity. -/
theorem Parses.distinct {source : String} {n m : Nat} (h : Parses n source tree m) :
    Distinct n m (Stmt.referencesAll tree) := by
  have hdistinct := (distinct_parseProgram n (tokenize source).1).2
  rwa [h.2] at hdistinct

/-- A reference with a distance finds what it means. -/
theorem Machine.Sound.proper {m : Machine} (hm : m.Sound os past) (hcounts : ξ.Counts os) : m.Proper ξ := by
  refine ⟨fun ref href hsome => ?_, hm.fits⟩
  obtain ⟨around, h, hfollows⟩ := hm.references ref href
  rw [hcounts _ hfollows.known, ← hfollows.distance] at hsome
  obtain ⟨d, hd⟩ := Option.ne_none_iff_exists'.1 hsome
  obtain ⟨-, scope, v, -, -, -, hv⟩ := hfollows.found d hd
  rw [hfollows.reads, hv]
  exact Option.some_ne_none v

theorem Machine.SoundFrom.proper {ms : List Machine} (h : SoundFrom os past ms) (hcounts : ξ.Counts os) :
    ∀ m ∈ ms, m.Proper ξ := by
  intro m hm
  obtain ⟨before, after, hsplit⟩ := List.append_of_mem hm
  exact (h.split hsplit).proper hcounts

/-- A program that is accepted keeps the rules. -/
theorem soundAll_of_resolveProgram {globals : List String} {distances : List (Nat × Nat)}
    (h : resolveProgram globals tree = .ok distances) : SoundAll globals [] [] tree := by
  have hknows : (Resolver.start globals).Knows (Known globals [.after []]) :=
    ⟨Resolver.clear_start globals, fun name => (Resolver.holds_start globals name).trans
      ((known_after_nil name).trans
        (or_iff_left fun ⟨_, hlayer, _⟩ => List.not_mem_nil hlayer)).symm⟩
  exact ((Stmt.faults_resolveAll [] [] tree hknows).1 (Resolver.finish_eq_ok.1 h).1).2.2

end

/-! ## The run -/

namespace Session

variable {s : Session} {source : String} {tree tree' : List Stmt} {distances : List (Nat × Nat)}
  {x y : String} {n : Nat}

theorem Reached.orderly (hs : s.Reached) : ∃ os past, s.Orderly os past := by
  induction hs with
  | new sink clock => exact ⟨[], .empty, orderly_new sink clock⟩
  | run hs fuel mode source hended ih =>
    obtain ⟨os, past, ho⟩ := ih
    exact ⟨_, _, (orderly_run fuel mode source hs ho).2 _ hended⟩

/-- The references of a program that is accepted are known when it is executed. -/
theorem Orderly.learned {os : List Occurrence} {past : Past} (hs : s.Reached) (ho : s.Orderly os past)
    (hparses : Parses s.nextId source tree n)
    (hresolved : resolveProgram s.interpreter.globalNames tree = .ok distances) :
    (s.interpreter.learn distances).Orderly (os ++ Stmt.occurrencesAll [] tree) past := by
  have hdistinct := hparses.distinct
  rw [← Stmt.occurrencesAll_fst [] tree] at hdistinct
  exact (ho.accept hs (distances_of_resolveProgram hparses.fits hresolved) hdistinct hparses.le
    (Stmt.nestedAll hparses.fits .nil)).1

/-- Two runs have ended with the same report, and have written and measured the same. -/
structure EndedAlike (r q : Report × Session) : Prop where
  report : q.1 = r.1
  sink : q.2.interpreter.sink = r.2.interpreter.sink
  clock : q.2.interpreter.clock = r.2.interpreter.clock

/-- A local variable or parameter can have any other name that nothing in the program has: resolution accepts
the program as before and counts the same distances, and the program runs in the same way. So does every text
that it is read from. -/
theorem run_renamed (hs : s.Reached) (hparses : Parses s.nextId source tree n)
    (hresolved : resolveProgram s.interpreter.globalNames tree = .ok distances)
    (hrenames : Stmt.RenamesAll distances x y tree tree') (hy : y ≠ "this" ∧ y ≠ "super")
    (hunused : Unused y tree) (fuel : Nat) :
    resolveProgram s.interpreter.globalNames tree' = .ok distances ∧
      (∀ n', EndedAlike (s.run fuel .program source) (execute { s with nextId := n' }
        (resolveProgram s.interpreter.globalNames tree') fun i => i.interpret fuel tree')) ∧
      ∀ source' n', Parses s.nextId source' tree' n' →
        EndedAlike (s.run fuel .program source) (s.run fuel .program source') := by
  obtain ⟨os, past, ho⟩ := hs.orderly
  obtain ⟨a, b, u, hidle⟩ := hs.idle
  have hlearned := ho.learned hs hparses hresolved
  let ξ : Exchange := ⟨x, y, hrenames.plain hparses.fits, hy,
    fun id => (s.interpreter.learn distances).distances[id]?⟩
  have hall : ξ.Counts (os ++ Stmt.occurrencesAll [] tree) := hlearned.knows.distances
  obtain ⟨-, hcounts⟩ := List.forall_mem_append.1 hall
  have hdistances := distances_of_resolveProgram hparses.fits hresolved
  have hfinds := Exchange.Counts.finds hcounts hunused hparses.fits hparses.distinct.nodup
  rw [← hdistances] at hfinds
  have htree : Stmt.ExchangedAll ξ [] tree tree' :=
    Stmt.RenamesAll.exchanged (ξ := ξ) hrenames .nil hfinds hunused.1 (soundAll_of_resolveProgram hresolved)
  have hresolved' := resolveProgram_exchanged htree (Exchange.Counts.knows hcounts hunused hparses.fits)
    hunused.1 hresolved
  have hfits : Stmt.FitsAll (Among (os ++ Stmt.occurrencesAll [] tree)) [] tree :=
    hparses.fits.imp fun o ho _ => List.mem_append_right os ho
  obtain ⟨hsound, -⟩ := Interpreter.orderly_interpret fuel tree (hidle.learn distances) hlearned hfits
  have hended := (hlearned.exchanged (hidle.learn distances) fun _ => rfl).interpret fuel htree
    (hsound.proper hall)
  have halike : ∀ n', EndedAlike (s.run fuel .program source)
      (.ofEnding ((s.interpreter.learn distances).interpret fuel tree').1,
        ⟨((s.interpreter.learn distances).interpret fuel tree').2, n'⟩) := by
    intro n'
    rw [run_of_parses hparses hresolved]
    exact ⟨congrArg Report.ofEnding hended.ending, hended.sink, hended.clock⟩
  refine ⟨hresolved', fun n' => ?_, fun source' n' hparses' => ?_⟩
  · rw [hresolved']
    exact halike n'
  · rw [run_of_parses hparses' hresolved']
    exact halike n'

/-- Two variables in blocks, of which a function closes over the outer one. -/
def shadowing (name : String) : List Stmt :=
  [.block [.var ⟨name, 1⟩ (some (.literal (.boolean true))),
    .function ⟨⟨"f", 1⟩, [], [.ret 1 (some (.variable ⟨0, ⟨name, 1⟩⟩))]⟩,
    .block [.var ⟨"a", 1⟩ (some (.literal .nil)),
      .print (.binary .equal 1 (.call (.variable ⟨1, ⟨"f", 1⟩⟩) 1 []) (.variable ⟨2, ⟨"a", 1⟩⟩))]]]

/-- Of two variables with one name the inner one keeps it. -/
theorem run_renamed_shadowing :
    let s := Session.new {} ⟨fun _ => 0, 0, 0⟩
    let source := "{ var a = true; fun f() { return a; } { var a = nil; print f() == a; } }"
    let renamed := "{ var b = true; fun f() { return b; } { var a = nil; print f() == a; } }"
    let distances := [(2, 0), (1, 1), (0, 1)]
    Parses 0 source (shadowing "a") 3 ∧ Parses 0 renamed (shadowing "b") 3 ∧
      resolveProgram s.interpreter.globalNames (shadowing "a") = .ok distances ∧
      Stmt.RenamesAll distances "a" "b" (shadowing "a") (shadowing "b") ∧ Unused "b" (shadowing "a") ∧
      resolveProgram s.interpreter.globalNames (shadowing "b") = .ok distances ∧
      EndedAlike (s.run 99 .program source) (s.run 99 .program renamed) := by
  intro s source renamed distances
  have hparses : Parses 0 source (shadowing "a") 3 := by
    refine ⟨by decide +kernel, ?_⟩
    unfold source
    with_unfolding_all rfl
  have hparses' : Parses 0 renamed (shadowing "b") 3 := by
    refine ⟨by decide +kernel, ?_⟩
    unfold renamed
    with_unfolding_all rfl
  have hresolved : resolveProgram s.interpreter.globalNames (shadowing "a") = .ok distances := by decide +kernel
  have hrenames : Stmt.RenamesAll distances "a" "b" (shadowing "a") (shadowing "b") :=
    @Stmt.RenamesAll.mk _ _ _ [] _ _ [] (.var (.mk [] 1 _ _))
  have hunused : Unused "b" (shadowing "a") := ⟨by decide, by decide⟩
  obtain ⟨hresolved', -, halike⟩ := run_renamed (.new _ _) hparses hresolved hrenames (by decide) hunused 99
  exact ⟨hparses, hparses', hresolved, hrenames, hunused, hresolved', halike renamed 3 hparses'⟩

end Session
end Lox
