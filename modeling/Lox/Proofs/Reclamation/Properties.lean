import Lox.Proofs.Reclamation.Created
import Lox.Proofs.Reclamation.Interpreter

/-!
# Twin properties and built-in functions

What a property, a method of a superclass or a built-in function gives is the same on both sides.
Binding a method makes a frame, so that the renaming changes.
-/
namespace Lox.Interpreter

open Store (Pinned)

namespace NativeResult

def rename (ρ : Renaming) : NativeResult → NativeResult
  | value v => value (v.rename ρ)
  | r => r

def held : NativeResult → List Value
  | value v => [v]
  | _ => []

end NativeResult

variable {P : Handle → Handle → Prop} {ρ : Renaming} {i j : Interpreter} {extra : List ObjectId}
  {held held' : List Value} {acts acts' : List Activation} {v : Value}

theorem closure_mem_closures {c : Class} {name : String} {f : Function}
    (hf : c.findMethod? name = some f) : f.closure ∈ c.closures := by
  fun_induction Class.findMethod? c name with
  | case1 stamp name' methods => exact List.mem_map_of_mem (mem_values_of_find? hf)
  | case2 stamp name' parent methods method hm =>
    cases hf
    exact List.mem_append_left _ (List.mem_map_of_mem (mem_values_of_find? hm))
  | case3 stamp name' parent methods hm ih => exact List.mem_append_right _ (ih hf)

namespace Twin

/-- Methods of a class that can be got at close over captured frames on both sides. -/
theorem captured_of_findMethod? (ht : Twin P ρ i j extra held acts) {c : Class}
    (hc : i.store.Accessible held (.classObject c)) {name : String} {f : Function}
    (hf : c.findMethod? name = some f) :
    i.store.arena.Captured f.closure ∧ j.store.arena.Captured (ρ f.closure) := by
  have hmem := closure_mem_closures hf
  refine ⟨ht.store.healthy.intact.supported _ hc _ hmem, ?_⟩
  refine ht.store.shadow.intact.supported _ (ht.store.mirror.accessible hc) _ ?_
  rw [Class.closures_rename]
  exact List.mem_map_of_mem hmem

theorem accessible_of_field? {s : Store} {id : ObjectId} {name : String} {w : Value}
    (hv : s.Accessible held v) (hid : v.object? = some id) (hw : s.field? id name = some w) :
    s.Accessible held w := by
  unfold Store.field? at hw
  split at hw
  · next parent fields hp =>
    exact .inside hv hid hp (List.mem_cons_of_mem _ (mem_values_of_find? hw))
  · cases hw

theorem accessible_of_parent? {s : Store} {id : ObjectId} {c : Class}
    (hv : s.Accessible held v) (hid : v.object? = some id) (hc : s.parent? id = some c) :
    s.Accessible held (.classObject c) := by
  unfold Store.parent? at hc
  split at hc
  · next parent fields hp =>
    cases hc
    exact .inside hv hid hp List.mem_cons_self
  · cases hc

/-- A method is bound to an instance. -/
theorem bind (ht : Twin P ρ i j extra held acts) (hpins : Pinned held acts) {c : Class}
    (hc : i.store.Accessible held (.classObject c)) {name : String} {method : Function}
    (hm : c.findMethod? name = some method) {id : ObjectId}
    (hobject : i.store.Accessible held (.instance id))
    (hP : P (i.store.create method.closure).1 (j.store.create (ρ method.closure)).1) :
    ∃ ρ' : Renaming, (∀ h, i.store.arena.contains h = true → ρ' h = ρ h) ∧
      (j.store.bind (method.rename ρ) (.instance id)).1 =
        (i.store.bind method (.instance id)).1.rename ρ' ∧
      Twin P ρ' { i with store := (i.store.bind method (.instance id)).2 }
        { j with store := (j.store.bind (method.rename ρ) (.instance id)).2 } extra
        (.function (i.store.bind method (.instance id)).1 :: held) acts := by
  obtain ⟨hs, hu⟩ := ht.captured_of_findMethod? hc hm
  obtain ⟨ρ', hagree, hf, hbind⟩ := ht.store.bind hpins hs hu hobject hP
  exact ⟨ρ', hagree, hf, hbind, ht.active,
    ht.image.trans (hagree _ ht.contains_active).symm, ht.distances, ht.sink, ht.clock⟩

theorem property (ht : Twin P ρ i j extra held acts) (hpins : Pinned held acts) {object : Value}
    (hobject : i.store.Accessible held object) (name : String) (line : Nat)
    (hP : ∀ h g r, (h, r) ∈ i.createdByProperty object name →
      (g, r) ∈ j.createdByProperty (object.rename ρ) name → P h g) :
    ∃ ρ' : Renaming, (∀ h, i.store.arena.contains h = true → ρ' h = ρ h) ∧
      (j.property (object.rename ρ) name).1 = (i.property object name).1.map (Value.rename ρ') ∧
      Twin P ρ' (i.property object name).2 (j.property (object.rename ρ) name).2 extra
        ((Machine.ofResult line (i.property object name).1).held ++ held) acts := by
  cases object with
  | «instance» id =>
    have hfield := ht.store.mirror.field? ht.store.healthy.accounted (Store.Twin.mem_ids extra _)
      hobject rfl name
    have hparent := ht.store.mirror.parent? ht.store.healthy.accounted (Store.Twin.mem_ids extra _)
      hobject rfl
    revert hP
    unfold Interpreter.property Interpreter.createdByProperty
    dsimp only [Value.rename]
    rw [hfield, hparent]
    cases hv : i.store.field? id name with
    | some v => exact fun _ => ⟨ρ, fun _ _ => rfl, rfl, ht.retain (accessible_of_field? hobject rfl hv)⟩
    | none =>
      cases hc : i.store.parent? id with
      | none => exact fun _ => ⟨ρ, fun _ _ => rfl, rfl, ht⟩
      | some c =>
        dsimp only [Option.map_none, Option.map_some, Option.bind_some]
        rw [Class.findMethod?_rename]
        cases hm : c.findMethod? name with
        | none => exact fun _ => ⟨ρ, fun _ _ => rfl, rfl, ht⟩
        | some method =>
          intro hP
          obtain ⟨ρ', hagree, hf, hbind⟩ := ht.bind hpins (accessible_of_parent? hobject rfl hc) hm
            hobject (hP _ _ (.receiver method.decl) List.mem_cons_self List.mem_cons_self)
          refine ⟨ρ', hagree, ?_, hbind⟩
          dsimp only [Option.map_some]
          rw [hf]
          rfl
  | array id =>
    unfold Interpreter.property
    dsimp only [Value.rename]
    split
    · exact ⟨ρ, fun _ _ => rfl, rfl, (ht.retain hobject).trade rfl trivial trivial⟩
    · exact ⟨ρ, fun _ _ => rfl, rfl, (ht.retain hobject).trade rfl trivial trivial⟩
    · rw [ht.store.length hobject rfl]
      exact ⟨ρ, fun _ _ => rfl, rfl, ht.hold rfl trivial trivial⟩
    · exact ⟨ρ, fun _ _ => rfl, rfl, ht⟩
  | _ => exact ⟨ρ, fun _ _ => rfl, rfl, ht⟩

theorem superMethod (ht : Twin P ρ i j extra held acts) (hpins : Pinned held acts)
    (ref : Reference) (name : String) (line : Nat)
    (hP : ∀ h g r, (h, r) ∈ i.createdBySuper ref name → (g, r) ∈ j.createdBySuper ref name → P h g) :
    ∃ ρ' : Renaming, (∀ h, i.store.arena.contains h = true → ρ' h = ρ h) ∧
      (j.superMethod ref name).1 = (i.superMethod ref name).1.map (Value.rename ρ') ∧
      Twin P ρ' (i.superMethod ref name).2 (j.superMethod ref name).2 extra
        ((Machine.ofResult line (i.superMethod ref name).1).held ++ held) acts := by
  have hfind := fun distance name => ht.store.mirror.findAt? ht.store.healthy.intact
    ht.contains_active distance name
  revert hP
  unfold Interpreter.createdBySuper Interpreter.superMethod
  rw [ht.distances, ht.image]
  cases hd : i.distances[ref.id]? with
  | none => exact fun _ => ⟨ρ, fun _ _ => rfl, rfl, ht⟩
  | some distance =>
    dsimp only
    rw [hfind]
    cases hs : i.store.arena.findAt? i.active distance "super" with
    | none => exact fun _ => ⟨ρ, fun _ _ => rfl, rfl, ht⟩
    | some w =>
      cases w with
      | classObject c =>
        cases distance with
        | zero => exact fun _ => ⟨ρ, fun _ _ => rfl, rfl, ht⟩
        | succ inner =>
          dsimp only [Option.map_some, Value.rename]
          rw [hfind]
          cases hthis : i.store.arena.findAt? i.active inner "this" with
          | none => exact fun _ => ⟨ρ, fun _ _ => rfl, rfl, ht⟩
          | some receiver =>
            cases receiver with
            | «instance» id =>
              dsimp only [Option.map_some, Value.rename]
              rw [Class.findMethod?_rename]
              cases hm : c.findMethod? name with
              | none => exact fun _ => ⟨ρ, fun _ _ => rfl, rfl, ht⟩
              | some method =>
                intro hP
                obtain ⟨ρ', hagree, hf, hbind⟩ := ht.bind hpins (accessible_of_findAt? hs) hm
                  (accessible_of_findAt? hthis)
                  (hP _ _ (.receiver method.decl) List.mem_cons_self List.mem_cons_self)
                rw [ht.distances, ht.image] at hbind
                refine ⟨ρ', hagree, ?_, hbind⟩
                dsimp only [Option.map_some]
                rw [hf]
                rfl
            | _ => exact fun _ => ⟨ρ, fun _ _ => rfl, rfl, ht⟩
      | _ => exact fun _ => ⟨ρ, fun _ _ => rfl, rfl, ht⟩

/-! ## Output and built-in functions -/

theorem setSink (ht : Twin P ρ i j extra held acts) (sink : Sink) :
    Twin P ρ { i with sink := sink } { j with sink := sink } extra held acts :=
  ⟨ht.store, ht.active, ht.image, ht.distances, rfl, ht.clock⟩

theorem writeLine (ht : Twin P ρ i j extra held acts) (hv : i.store.Accessible held v) :
    (j.writeLine (v.rename ρ)).1 = (i.writeLine v).1 ∧
      Twin P ρ (i.writeLine v).2 (j.writeLine (v.rename ρ)).2 extra held acts := by
  unfold Interpreter.writeLine Interpreter.write
  rw [ht.store.mirror.display ht.store.healthy.accounted (Store.Twin.mem_ids extra _) hv, ht.sink]
  exact ⟨rfl, ht.setSink _⟩

theorem setClock (ht : Twin P ρ i j extra held acts) (clock : Clock) :
    Twin P ρ { i with clock := clock } { j with clock := clock } extra held acts :=
  ⟨ht.store, ht.active, ht.image, ht.distances, ht.sink, rfl⟩

/-- An array of a given length refers to nothing. -/
theorem allocateNils (ht : Twin P ρ i j extra held acts) (size : Nat) :
    (j.store.allocate (.array (Array.replicate size .nil))).1 =
        (i.store.allocate (.array (Array.replicate size .nil))).1 ∧
      Store.Twin P ρ (i.store.allocate (.array (Array.replicate size .nil))).2
        (j.store.allocate (.array (Array.replicate size .nil))).2 extra
        (.array (i.store.allocate (.array (Array.replicate size .nil))).1 :: held) acts := by
  have hrename : (Payload.array (Array.replicate size .nil)).rename ρ =
      .array (Array.replicate size .nil) :=
    congrArg Payload.array (Array.map_replicate ..)
  have hnil : ∀ w ∈ (Payload.array (Array.replicate size .nil)).values, w = .nil := by
    intro w hw
    exact (Array.mem_replicate.1 (Array.mem_toList_iff.1 hw)).2
  have hallocate := ht.store.allocate (p := .array (Array.replicate size .nil))
    (v := .array (i.store.allocate (.array (Array.replicate size .nil))).1) (fun id => ?_)
    (List.Subset.refl held) rfl (fun w hw => .inr (hnil w hw)) rfl (fun _ => trivial) rfl
  · rwa [hrename] at hallocate
  · rw [Payload.children_eq, objects_eq_nil fun w hw => by rw [hnil w hw]; rfl]
    simp

/-- An array of one value takes over the reference to it. -/
theorem allocateOne (ht : Twin P ρ i j extra held acts) {v : Value} (hv : i.store.Accessible held v) :
    ((j.store.retain (v.rename ρ)).allocate (.array #[v.rename ρ])).1 =
        ((i.store.retain v).allocate (.array #[v])).1 ∧
      Store.Twin P ρ ((i.store.retain v).allocate (.array #[v])).2
        ((j.store.retain (v.rename ρ)).allocate (.array #[v.rename ρ])).2 extra
        (.array ((i.store.retain v).allocate (.array #[v])).1 :: held) acts := by
  have hrename : (Payload.array #[v]).rename ρ = .array #[v.rename ρ] :=
    congrArg Payload.array List.map_toArray
  have hallocate := (ht.store.retain hv).allocate (p := .array #[v])
    (v := .array ((i.store.retain v).allocate (.array #[v])).1) (fun id => ?_)
    (List.subset_cons_self v held) rfl (fun w hw => .inl (.held ?_)) rfl (fun _ => trivial) rfl
  · rwa [hrename] at hallocate
  · rw [count_objects_cons v held, Payload.children_eq]
    exact Nat.le_refl _
  · rw [List.mem_singleton.1 hw]
    exact List.mem_cons_self

theorem callArray (ht : Twin P ρ i j extra held acts) {arguments : List Value}
    (hargs : ∀ v ∈ arguments, i.store.Accessible held v) :
    (j.callNative .array (arguments.map (Value.rename ρ))).1 = (i.callNative .array arguments).1.rename ρ ∧
      Twin P ρ (i.callNative .array arguments).2
        (j.callNative .array (arguments.map (Value.rename ρ))).2 extra
        ((i.callNative .array arguments).1.held ++ held) acts := by
  cases arguments with
  | nil =>
    obtain ⟨hid, hstore⟩ := ht.allocateNils 0
    exact ⟨congrArg (fun id => NativeResult.value (.array id)) hid, ht.update hstore⟩
  | cons v rest =>
    have hv := hargs v List.mem_cons_self
    cases v with
    | number x =>
      simp only [Interpreter.callNative, List.map_cons, Value.rename]
      cases Number.toNat? x with
      | none => exact ⟨rfl, ht⟩
      | some size =>
        dsimp only
        by_cases hsize : maxArrayLength < size
        · rw [if_pos hsize, if_pos hsize]
          exact ⟨rfl, ht⟩
        · rw [if_neg hsize, if_neg hsize]
          obtain ⟨hid, hstore⟩ := ht.allocateNils size
          exact ⟨congrArg (fun id => NativeResult.value (.array id)) hid, ht.update hstore⟩
    | _ =>
      obtain ⟨hid, hstore⟩ := ht.allocateOne hv
      exact ⟨congrArg (fun id => NativeResult.value (.array id)) hid, ht.update hstore⟩

theorem callNative (ht : Twin P ρ i j extra held acts) (n : Native) {arguments : List Value}
    (hargs : ∀ v ∈ arguments, i.store.Accessible held v) :
    (j.callNative n (arguments.map (Value.rename ρ))).1 = (i.callNative n arguments).1.rename ρ ∧
      Twin P ρ (i.callNative n arguments).2 (j.callNative n (arguments.map (Value.rename ρ))).2 extra
        ((i.callNative n arguments).1.held ++ held) acts := by
  cases n with
  | clock =>
    unfold Interpreter.callNative
    rw [ht.clock]
    exact ⟨rfl, (ht.setClock _).hold rfl trivial trivial⟩
  | sleep =>
    cases arguments with
    | nil => exact ⟨rfl, ht⟩
    | cons v rest =>
      cases v with
      | number x =>
        simp only [Interpreter.callNative, List.map_cons, Value.rename, ht.clock]
        by_cases hx : (x.isFinite && decide (0 ≤ x)) = true
        · rw [if_pos hx, if_pos hx]
          cases i.clock.wait? x with
          | none => exact ⟨rfl, ht⟩
          | some clock =>
            exact ⟨rfl, (ht.setClock clock).hold (v := .boolean true) rfl trivial trivial⟩
        · rw [if_neg hx, if_neg hx]
          exact ⟨rfl, ht⟩
      | _ => exact ⟨rfl, ht⟩
  | clear =>
    simp only [Interpreter.callNative, Interpreter.write, ht.sink]
    cases hw : (i.sink.write clearSequence).1 with
    | some cause => exact ⟨rfl, ht.setSink _⟩
    | none =>
      dsimp only
      cases (i.sink.write clearSequence).2.flush with
      | some cause => exact ⟨rfl, ht.setSink _⟩
      | none => exact ⟨rfl, (ht.setSink _).hold (v := .boolean true) rfl trivial trivial⟩
  | array => exact ht.callArray hargs

end Twin
end Lox.Interpreter
