import Befunge.Proofs.Failure
import Befunge.Proofs.Lockstep
import Mathlib.Data.List.Infix

/-! An output of limited capacity. Until its room is used up it makes no difference to a run; the
step that would exceed it fails, and what it has accepted by then is the beginning of what the run
would have written. -/

namespace Befunge

namespace Output

/-- No write to it fails, and no flush. -/
def Free (o : Output) : Prop := o.capacity = none ∧ o.delivery = none

/-- The same output when it accepts no more than `room` bytes in all. -/
def limited (room : Nat) (refusal : Refusal) (o : Output) : Output :=
  { o with capacity := some ⟨room, refusal⟩ }

def appended (bytes : List UInt8) (o : Output) : Output :=
  { o with written := o.written ++ bytes }

theorem Free.appended {o : Output} (h : o.Free) (bytes : List UInt8) : (o.appended bytes).Free := h

theorem size_appended (bytes : List UInt8) (o : Output) :
    (o.appended bytes).written.size = o.written.size + bytes.length := by
  rw [← Array.length_toList, appended, Array.toList_appendList, List.length_append,
    Array.length_toList]

variable {o : Output} {bytes : List UInt8} {room : Nat} (refusal : Refusal)

theorem deliver_of_free (h : o.Free) (bytes : List UInt8) :
    OutputSink.deliver bytes o = (.ok (), o.appended bytes) := by
  obtain ⟨written, capacity, delivery⟩ := o
  obtain ⟨rfl, rfl⟩ := h
  rfl

theorem deliver_limited (h : o.Free) (hr : (o.appended bytes).written.size ≤ room) :
    OutputSink.deliver bytes (o.limited room refusal) =
      (.ok (), (o.appended bytes).limited room refusal) := by
  obtain ⟨written, capacity, delivery⟩ := o
  obtain ⟨rfl, rfl⟩ := h
  have hl : bytes.length ≤ room - written.size := by
    rw [size_appended] at hr
    dsimp only at hr
    omega
  simp [OutputSink.deliver, OutputSink.write, OutputSink.flush, write, flush, limited, appended, hl,
    List.take_of_length_le hl]

theorem deliver_limited_of_lt (h : o.Free) (hs : o.written.size ≤ room)
    (hr : room < (o.appended bytes).written.size) :
    OutputSink.deliver bytes (o.limited room refusal) =
      (.error refusal.cause,
        (o.appended (bytes.take (room - o.written.size))).limited room refusal) := by
  obtain ⟨written, capacity, delivery⟩ := o
  obtain ⟨rfl, rfl⟩ := h
  have hl : ¬ bytes.length ≤ room - written.size := by
    rw [size_appended] at hr
    dsimp only at hs hr
    omega
  simp [OutputSink.deliver, OutputSink.write, write, limited, appended, hl]

end Output

namespace Machine

/-- The next step writes. -/
def Writes {σ ι ω : Type} (m : Machine σ ι ω) : Prop :=
  m.order = some .writeInteger ∨ m.order = some .writeCharacter

section

variable {σ ι ω : Type} [DirectionSource σ] [InputSource ι] [OutputSink ω]

theorem step_of_writes {m : Machine σ ι ω} (h : m.Writes) :
    m.step = conclude m.begun (m.emit m.outgoing) := by
  rcases h with ho | ho
  · obtain ⟨-, hf⟩ := fetch_of_order ho (by decide)
    rw [step_of_order ho, outgoing_of_writeInteger hf, perform]
  · obtain ⟨-, hf⟩ := fetch_of_order ho (by decide)
    rw [step_of_order ho, outgoing_of_writeCharacter hf, perform]

def onOutput {ω' : Type} (output : ω') (m : Machine σ ι ω) : Machine σ ι ω' := { m with output }

section

variable {ω' : Type} [OutputSink ω'] {m : Machine σ ι ω}

theorem perform_onOutput {i : Instruction} (o : ω') (hi : i ≠ .writeInteger)
    (hc : i ≠ .writeCharacter) :
    (m.perform i).Agree (fun a b => b = a.onOutput o) ((m.onOutput o).perform i) := by
  cases i with
  | writeInteger => contradiction
  | writeCharacter => contradiction
  | readInteger => exact agree_readInteger rfl (fun _ => rfl) fun _ _ => rfl
  | readCharacter => exact agree_readCharacter rfl (fun _ => rfl) fun _ _ => rfl
  | get => exact agree_getCell rfl rfl fun _ => rfl
  | put => exact agree_putCell rfl rfl fun _ => rfl
  | _ => exact ⟨rfl, rfl, rfl⟩

/-- A step that writes nothing is the same whatever the machine writes to. -/
theorem step_onOutput_of_silent (o : ω') (h : ¬ m.Writes) :
    m.step.Agree (fun a b => b = a.onOutput o) (m.onOutput o).step := by
  rw [Writes, not_or] at h
  exact Alike.step {
    halted := rfl
    steps := rfl
    cursor := rfl
    quoting := rfl
    fetch := fun _ => rfl
    related := fun _ => rfl
    push := fun _ _ => rfl
    perform := fun _ ho => perform_onOutput o (fun he => h.1 (he ▸ ho)) fun he => h.2 (he ▸ ho)
    proceed := fun he => by rw [he]; rfl }

end

theorem output_step_of_silent {m : Machine σ ι ω} (h : ¬ m.Writes) :
    m.step.machine.output = m.output := by
  rw [Writes, not_or] at h
  refine holds_of_step (P := fun a => a.output = m.output) (fun h => h) (fun _ => rfl)
    (fun _ _ => rfl) fun i ho => (frame_perform m i).output ?_ ?_
  · rintro rfl
    exact h.1 ho
  · rintro rfl
    exact h.2 ho

theorem output_step_of_writes {m : Machine σ ι ω} (h : m.Writes) :
    m.step.machine.output = (OutputSink.deliver m.outgoing m.output).2 := by
  rw [step_of_writes h, observe_conclude (·.output) fun _ => rfl, machine_emit]

theorem accepted_step (m : Machine σ ι ω) :
    OutputSink.accepted m.output <+: OutputSink.accepted m.step.machine.output := by
  by_cases h : m.Writes
  · obtain ⟨sent, -, ha, -⟩ := OutputSink.accepted_deliver m.outgoing m.output
    rw [output_step_of_writes h, ha]
    exact List.prefix_append _ sent
  · rw [output_step_of_silent h]

/-- What has been written stays written. -/
theorem accepted_after (m : Machine σ ι ω) {i k : Nat} (h : i ≤ k) :
    OutputSink.accepted (m.after i).output <+: OutputSink.accepted (m.after k).output := by
  induction h with
  | refl => exact List.prefix_rfl
  | step _ ih =>
    rw [after_succ]
    exact ih.trans (accepted_step _)

end

variable {σ ι : Type}

def limited (room : Nat) (refusal : Refusal) (m : Machine σ ι) : Machine σ ι :=
  { m with output := m.output.limited room refusal }

/-- The second machine differs from the first, whose output never fails, in the limit only. -/
def Limited (room : Nat) (refusal : Refusal) (m m' : Machine σ ι) : Prop :=
  m.output.Free ∧ m' = m.limited room refusal

variable {m : Machine σ ι} {room : Nat} (refusal : Refusal)

theorem emit_limited {bytes : List UInt8} (hf : m.output.Free)
    (hr : (m.output.appended bytes).written.size ≤ room) :
    (m.emit bytes).Agree (Limited room refusal) ((m.limited room refusal).emit bytes) := by
  simp only [emit, limited, Output.deliver_of_free hf, Output.deliver_limited refusal hf hr]
  exact ⟨rfl, rfl, hf.appended _, rfl⟩

variable [DirectionSource σ] [InputSource ι]

theorem step_limited (hf : m.output.Free) (hr : m.step.machine.output.written.size ≤ room) :
    m.step.Agree (Limited room refusal) (m.limited room refusal).step := by
  by_cases hw : m.Writes
  · rw [output_step_of_writes hw, Output.deliver_of_free hf] at hr
    rw [step_of_writes hw, step_of_writes (m := m.limited room refusal) hw]
    refine agree_conclude _ (emit_limited refusal hf hr) fun ⟨ha, hb⟩ => ⟨ha, ?_⟩
    rw [hb]
    rfl
  · have ho := output_step_of_silent hw
    have hs := step_onOutput_of_silent (m.output.limited room refusal) hw
    refine ⟨hs.answer, hs.records, ?_, ?_⟩
    · rw [ho]
      exact hf
    · refine hs.machine.trans ?_
      rw [← ho]
      rfl

/-- The step that would exceed the limit: it takes its value from the stack, uses up the room, and
leaves everything else as it was. -/
theorem step_limited_of_lt (hf : m.output.Free) (hs : m.output.written.size ≤ room)
    (hr : room < m.step.machine.output.written.size) :
    (m.limited room refusal).step.answer = .error (.io refusal.cause) ∧
    ∃ output, (m.limited room refusal).step.machine =
      { m with stack := m.stack.pop, output } ∧
      output.written.toList = m.step.machine.output.written.toList.take room := by
  have hw : m.Writes := by
    refine Classical.byContradiction fun hn => ?_
    rw [output_step_of_silent hn] at hr
    omega
  rw [output_step_of_writes hw, Output.deliver_of_free hf] at hr ⊢
  have hd := Output.deliver_limited_of_lt refusal hf hs hr
  have ha : ((m.limited room refusal).emit m.outgoing).answer = .error (.io refusal.cause) :=
    answer_emit_eq_error_iff.mpr ⟨refusal.cause, rfl, congrArg Prod.fst hd⟩
  rw [step_of_writes (m := m.limited room refusal) hw, answer_conclude]
  refine ⟨ha, _, (machine_conclude_of_error _ ha).trans (machine_emit _ _), ?_⟩
  have hl : m.output.written.toList.length ≤ room := by simpa using hs
  change (OutputSink.deliver m.outgoing (m.output.limited room refusal)).2.written.toList = _
  rw [hd]
  simp [Output.limited, Output.appended, List.take_append, List.take_of_length_le hl]

theorem free_after (hf : m.output.Free) (k : Nat) : (m.after k).output.Free := by
  induction k with
  | zero => exact hf
  | succ k ih =>
    rw [after_succ]
    by_cases h : (m.after k).Writes
    · rw [output_step_of_writes h, Output.deliver_of_free ih]
      exact ih.appended _
    · rw [output_step_of_silent h]
      exact ih

theorem written_after (m : Machine σ ι) {i k : Nat} (h : i ≤ k) :
    (m.after i).output.written.toList <+: (m.after k).output.written.toList :=
  accepted_after m h

theorem size_written_after (m : Machine σ ι) {i k : Nat} (h : i ≤ k) :
    (m.after i).output.written.size ≤ (m.after k).output.written.size := by
  rw [← Array.length_toList, ← Array.length_toList]
  exact (written_after m h).length_le

theorem inStep_limited (hf : m.output.Free) {k : Nat}
    (hk : (m.after k).output.written.size ≤ room) :
    InStep (Limited room refusal) m (m.limited room refusal) k := by
  refine inStep_of_step (fun h => by rw [h.2]; rfl) (fun h => by rw [h.2]; rfl) ⟨hf, rfl⟩ ?_
  intro i hi ⟨hl, he⟩
  rw [he]
  refine step_limited refusal hl (Nat.le_trans ?_ hk)
  rw [← after_succ]
  exact size_written_after m hi

theorem bounded_output_is_beginning {m : Machine σ ι} (ho : m.output = .unlimited) (room : Nat)
    (refusal : Refusal) {k : Nat} (hk : (m.after k).output.written.size ≤ room) :
    (m.limited room refusal).after k = (m.after k).limited room refusal ∧
    InStep (Limited room refusal) m (m.limited room refusal) k ∧
    (room < (m.after (k + 1)).output.written.size →
      ((m.limited room refusal).after k).step.answer = .error (.io refusal.cause) ∧
      ∃ output, (m.limited room refusal).after (k + 1) =
          { m.after k with stack := (m.after k).stack.pop, output } ∧
        ∀ j > k, output.written.toList = (m.after j).output.written.toList.take room) := by
  have hf : m.output.Free := by
    rw [ho]
    exact ⟨rfl, rfl⟩
  have hs := inStep_limited refusal hf hk
  have ha := (hs.after k (Nat.le_refl k)).2
  refine ⟨ha, hs, fun hr => ?_⟩
  rw [after_succ] at hr
  obtain ⟨he, output, hm, ht⟩ := step_limited_of_lt refusal (free_after hf k) hk hr
  refine ⟨by rw [ha, he], output, by rw [after_succ, ha, hm], fun j hj => ?_⟩
  -- the later writes begin after the room is used up
  obtain ⟨rest, hrest⟩ := written_after m hj
  rw [after_succ] at hrest
  have hl : room ≤ (m.after k).step.machine.output.written.toList.length := by
    rw [Array.length_toList]
    omega
  rw [ht, ← hrest, List.take_append_of_le_length hl]

/-- Writes a number of four bytes. -/
def printing : Machine Script :=
  { start (.ofLines [".@".toList.map Char.toUInt8]) (.ofBytes []) .unlimited (.ofList []) with
    stack := .ofList [7, -125] }

theorem bounded_output_is_beginning_printing :
    ∃ output, (printing.limited 3 .acceptingNothing).after 1 =
        { printing with stack := .ofList [7], output } ∧
      output.written.toList = "-12".toList.map Char.toUInt8 := by
  have hk : (printing.after 0).output.written.size ≤ 3 := by decide
  have hr : 3 < (printing.after 1).output.written.size := by decide +kernel
  obtain ⟨-, -, h⟩ := bounded_output_is_beginning rfl 3 .acceptingNothing hk
  obtain ⟨-, output, he, ht⟩ := h hr
  refine ⟨output, he, (ht 1 Nat.one_pos).trans ?_⟩
  decide +kernel

end Machine

end Befunge
