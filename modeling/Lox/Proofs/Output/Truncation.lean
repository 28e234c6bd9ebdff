import Lox.Proofs.Output.Steps
import Lox.Proofs.Reclamation.History
import Mathlib.Data.List.Infix

/-!
# Output that is cut off

A machine whose sink has a limit goes through the same states as one whose sink has none, up to the first
write that does not fit. From there on it does nothing but fail, while the other goes on writing.
-/
namespace Lox

theorem extract_of_size_le {bytes : ByteArray} {n : Nat} (h : bytes.size ≤ n) :
    bytes.extract 0 n = bytes := by
  apply ByteArray.ext
  rw [ByteArray.data_extract]
  exact Array.extract_eq_self_of_le h

theorem extract_append_of_le {bytes rest : ByteArray} {n : Nat} (h : n ≤ bytes.size) :
    (bytes ++ rest).extract 0 n = bytes.extract 0 n := by
  have hrest : rest.extract (0 - bytes.size) (n - bytes.size) = .empty :=
    ByteArray.extract_eq_empty_iff.2 (by omega)
  rw [ByteArray.extract_append, hrest, ByteArray.append_empty]

theorem extract_append_add (bytes rest : ByteArray) (n : Nat) :
    (bytes ++ rest).extract 0 (bytes.size + n) = bytes ++ rest.extract 0 n := by
  rw [ByteArray.extract_append, extract_of_size_le (Nat.le_add_right _ _), Nat.add_sub_cancel_left,
    Nat.zero_sub]

namespace Sink

variable {cap : Nat} {sink full : Sink}

def unlimited (sink : Sink) : Sink := { sink with room := none }

/-- Whatever is written to the sink is taken. -/
structure Open (sink : Sink) : Prop where
  room : sink.room = none
  flush : sink.flushFails = false

/-- With what has been written, `cap` bytes are as many as the sink takes. -/
structure Within (cap : Nat) (sink : Sink) : Prop where
  room : ∃ room, sink.room = some room ∧ sink.written.size + room = cap
  flush : sink.flushFails = false

/-- The first sink has taken `cap` bytes of what the second one has taken. -/
structure Cut (cap : Nat) (sink full : Sink) : Prop where
  written : sink.written = full.written.extract 0 cap
  size : cap < full.written.size
  flush : sink.flushFails = false
  full : full.Open

/-- More has been written. -/
def Extends (sink sink' : Sink) : Prop := ∃ bytes, sink'.written = sink.written ++ bytes

theorem Extends.refl (sink : Sink) : sink.Extends sink := ⟨.empty, ByteArray.append_empty.symm⟩

theorem Extends.trans {a b c : Sink} (h : a.Extends b) (h' : b.Extends c) : a.Extends c := by
  obtain ⟨bytes, hb⟩ := h
  obtain ⟨bytes', hc⟩ := h'
  exact ⟨bytes ++ bytes', by rw [hc, hb, ByteArray.append_assoc]⟩

theorem Open.write (h : sink.Open) (text : String) :
    sink.write text = (none, { sink with written := sink.written ++ text.toUTF8 }) := by
  unfold Sink.write
  rw [h.room]

theorem Within.unlimited (h : sink.Within cap) : sink.unlimited.Open := ⟨rfl, h.flush⟩

/-- A text fits and is written to both, or does not fit and is written to the unlimited sink only. -/
theorem Within.write (h : sink.Within cap) (text : String) :
    (∃ sink', sink'.Within cap ∧ sink.write text = (none, sink') ∧
        sink.unlimited.write text = (none, sink'.unlimited)) ∨
      ∃ sink' full, sink'.Cut cap full ∧ sink.write text = (some .full, sink') ∧
        sink.unlimited.write text = (none, full) := by
  rw [h.unlimited.write]
  obtain ⟨⟨room, hroom, hsize⟩, hflush⟩ := h
  by_cases hfits : text.toUTF8.size ≤ room
  · refine .inl ⟨{ sink with
      written := sink.written ++ text.toUTF8, room := some (room - text.toUTF8.size) }, ?_, ?_, rfl⟩
    · refine ⟨⟨_, rfl, ?_⟩, hflush⟩
      rw [ByteArray.size_append]
      omega
    · simpa [Sink.write, hroom] using hfits
  · refine .inr ⟨{ sink with
      written := sink.written ++ text.toUTF8.extract 0 room, room := some 0 }, _, ?_, ?_, rfl⟩
    · refine ⟨?_, ?_, hflush, rfl, hflush⟩
      · change _ = (sink.written ++ text.toUTF8).extract 0 cap
        rw [← hsize, extract_append_add]
      · change cap < (sink.written ++ text.toUTF8).size
        rw [ByteArray.size_append]
        omega
    · simpa [Sink.write, hroom] using hfits

/-- What has been cut off stays cut off where more is written. -/
theorem Cut.extends {full' : Sink} (h : sink.Cut cap full) (he : full.Extends full') (hfull : full'.Open) :
    sink.Cut cap full' := by
  obtain ⟨bytes, hbytes⟩ := he
  have hsize := h.size
  refine ⟨?_, ?_, h.flush, hfull⟩
  · rw [hbytes, h.written, extract_append_of_le hsize.le]
  · rw [hbytes, ByteArray.size_append]
    omega

end Sink

/-! ## Machines -/

/-- The same interpreter with a sink without a limit. -/
def Interpreter.unlimited (i : Interpreter) : Interpreter := i.withSink i.sink.unlimited

namespace Machine

variable {cap f g : Nat} {m u : Machine}

def unlimited (m : Machine) : Machine := m.withSink m.state.sink.unlimited

@[simp] theorem isFinal_withSink (m : Machine) (sink : Sink) : (m.withSink sink).isFinal = m.isFinal := by
  obtain ⟨control, stack, i⟩ := m
  cases control <;> rfl

/-- The first machine fails because its sink is full, and the second one has written more. -/
structure Stuck (cap : Nat) (m u : Machine) : Prop where
  failed : ∃ failure, m.control = .failed failure ∧ failure.Tells .full
  cut : m.state.sink.Cut cap u.state.sink

theorem sink_step (h : m.output? = none) : m.step.state.sink = m.state.sink :=
  congrArg (·.state.sink) (step_withSink h m.state.sink)

/-- Nothing that has been written is lost. -/
theorem extends_step (h : m.state.sink.Open) :
    m.step.state.sink.Open ∧ m.state.sink.Extends m.step.state.sink := by
  cases hout : m.output? with
  | none =>
    rw [sink_step hout]
    exact ⟨h, .refl _⟩
  | some text =>
    obtain ⟨control, stack, i, failure, -, hstep⟩ := step_of_output? hout
    have hwrite := hstep m.state.sink h.flush
    rw [h.write] at hwrite
    change m.step = ⟨control, stack, i.withSink _⟩ at hwrite
    rw [hwrite]
    exact ⟨⟨h.room, h.flush⟩, _, rfl⟩

theorem extends_run (f : Nat) (h : m.state.sink.Open) :
    (m.run f).state.sink.Open ∧ m.state.sink.Extends (m.run f).state.sink := by
  induction f generalizing m with
  | zero => exact ⟨h, .refl _⟩
  | succ f ih =>
    unfold run
    split
    · exact ⟨h, .refl _⟩
    · obtain ⟨hopen, hstep⟩ := extends_step h
      obtain ⟨hrun, hrest⟩ := ih hopen
      exact ⟨hrun, hstep.trans hrest⟩

/-- With and without a limit a step does the same, unless it writes what does not fit. -/
theorem step_limited (h : m.state.sink.Within cap) :
    (m.step.state.sink.Within cap ∧ m.unlimited.step = m.step.unlimited) ∨
      Stuck cap m.step m.unlimited.step := by
  cases hout : m.output? with
  | none =>
    left
    unfold unlimited
    rw [sink_step hout, step_withSink hout]
    exact ⟨h, rfl⟩
  | some text =>
    obtain ⟨control, stack, i, failure, htells, hstep⟩ := step_of_output? hout
    have hlimited : m.step = _ := hstep m.state.sink h.flush
    have hunlimited : m.unlimited.step = _ := hstep m.state.sink.unlimited h.flush
    obtain ⟨sink, hsink, hwrite, hwrite'⟩ | ⟨sink, full, hcut, hwrite, hwrite'⟩ := h.write text
    · rw [hwrite] at hlimited
      rw [hwrite'] at hunlimited
      rw [hlimited, hunlimited]
      exact .inl ⟨hsink, rfl⟩
    · rw [hwrite] at hlimited
      rw [hwrite'] at hunlimited
      rw [hlimited, hunlimited]
      exact .inr ⟨⟨_, rfl, htells .full⟩, hcut⟩

namespace Stuck

/-- A failure is all there is. -/
theorem history (h : Stuck cap m u) (f : Nat) : ∀ n ∈ m.history f,
    n.control = m.control ∧ n.state.sink = m.state.sink := by
  refine Machine.forall_history ⟨rfl, rfl⟩ fun n _ hn => ?_
  obtain ⟨failure, hfailed, -⟩ := h.failed
  obtain ⟨control, stack, i⟩ := n
  obtain ⟨rfl, hsink⟩ : control = .failed failure ∧ i.sink = m.state.sink := by simpa [hfailed] using hn
  rw [hfailed]
  cases stack with
  | nil => exact ⟨rfl, hsink⟩
  | cons k stack =>
    rw [sink_step rfl]
    exact ⟨rfl, hsink⟩

theorem run (h : Stuck cap m u) (f g : Nat) : Stuck cap (m.run f) (u.run g) := by
  obtain ⟨hcontrol, hsink⟩ := h.history f _ (run_mem_history f m)
  obtain ⟨hopen, hextends⟩ := extends_run g h.cut.full
  refine ⟨?_, ?_⟩
  · rw [hcontrol]
    exact h.failed
  · rw [hsink]
    exact h.cut.extends hextends hopen

end Stuck

/-- The first states are like the second ones as far as these go along, without a limit. Then there is
nothing but a failure, with which no more is written. -/
def BreaksOff (states states' : List Machine) (written : ByteArray) : Prop :=
  ∃ before after, states = before ++ after ∧ before.map unlimited <+: states' ∧
    ∀ n ∈ after, (∃ failure, n.control = .failed failure) ∧ n.state.sink.written = written

theorem run_of_isFinal (h : m.isFinal = true) (f : Nat) : m.run f = m := by
  cases f with
  | zero => rfl
  | succ f => exact if_pos h

theorem history_of_isFinal (h : m.isFinal = true) (f : Nat) : m.history f = [m] := by
  cases f with
  | zero => rfl
  | succ f => exact if_pos h

/-- A run that ends ends in the same way without a limit, or because something did not fit. -/
theorem run_within (h : m.state.sink.Within cap) (hg : f ≤ g) (hfinal : (m.run f).isFinal = true) :
    ((m.run f).state.sink.Within cap ∧ m.unlimited.run g = (m.run f).unlimited ∧
        m.unlimited.history g = (m.history f).map unlimited) ∨
      Stuck cap (m.run f) (m.unlimited.run g) ∧
        BreaksOff (m.history f) (m.unlimited.history g) (m.run f).state.sink.written := by
  induction f generalizing m g with
  | zero =>
    have hunlimited : m.unlimited.isFinal = true := (isFinal_withSink m _).trans hfinal
    rw [run_of_isFinal hunlimited, history_of_isFinal hunlimited]
    exact .inl ⟨h, rfl, rfl⟩
  | succ f ih =>
    by_cases hm : m.isFinal = true
    · have hunlimited : m.unlimited.isFinal = true := (isFinal_withSink m _).trans hm
      rw [run_of_isFinal hunlimited, history_of_isFinal hunlimited, run_of_isFinal hm, history_of_isFinal hm]
      exact .inl ⟨h, rfl, rfl⟩
    · obtain ⟨g, rfl⟩ : ∃ k, g = k + 1 := ⟨g - 1, by omega⟩
      have hunlimited : ¬ m.unlimited.isFinal = true := by rwa [unlimited, isFinal_withSink]
      simp only [run, history, if_neg hm, if_neg hunlimited] at hfinal ⊢
      obtain ⟨hstep, hsame⟩ | hstuck := step_limited h
      · rw [hsame]
        obtain ⟨hwithin, hrun, hhistory⟩ | ⟨hstuck, before, after, hsplit, hprefix, hafter⟩ :=
          ih hstep (Nat.le_of_succ_le_succ hg) hfinal
        · rw [hhistory]
          exact .inl ⟨hwithin, hrun, rfl⟩
        · refine .inr ⟨hstuck, m :: before, after, congrArg (m :: ·) hsplit, ?_, hafter⟩
          exact List.cons_prefix_cons.2 ⟨rfl, hprefix⟩
      · have hlast := hstuck.history f _ (run_mem_history f m.step)
        refine .inr ⟨hstuck.run f g, [m], m.step.history f, rfl, by simp, fun n hn => ?_⟩
        obtain ⟨failure, hfailed, -⟩ := hstuck.failed
        obtain ⟨hcontrol, hsink⟩ := hstuck.history f n hn
        exact ⟨⟨failure, hcontrol.trans hfailed⟩, by rw [hsink, hlast.2]⟩

end Machine
end Lox
