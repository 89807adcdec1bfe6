import Befunge.Proofs.LastWrite
import Befunge.Proofs.OutputCapacity
import Befunge.Proofs.StackFrame
import Mathlib.Data.Nat.Digits.Defs

/-! The effects of a step that succeeds. Each component of the machine is changed by a few
instructions only, and none changes much of it, which bounds what a run can push and write. -/

namespace Befunge

namespace Instruction

theorem symbol_injective : Function.Injective symbol := by
  intro i j h
  have hi := ofChar?_symbol i
  rw [h, ofChar?_symbol] at hi
  exact (Option.some.inj hi).symm

theorem steers_iff (i : Instruction) :
    i.steers = true ↔ i.symbol ∈ ['>', '<', '^', 'v', '?', '_', '|'] := by
  cases i with
  | digit n => decide +revert
  | operate op => cases op <;> decide
  | turn d => cases d <;> decide
  | branch axis => cases axis <;> decide
  | _ => decide

theorem gives_le_two (i : Instruction) (answer : Except Fault Unit) : i.gives answer ≤ 2 := by
  cases i <;> cases answer <;> simp [gives]

/-- What gives more than one value also takes one, be it a zero below the stack. -/
theorem gives_le_takes_add_one (i : Instruction) (answer : Except Fault Unit) :
    i.gives answer ≤ i.takes + 1 := by
  cases i <;> cases answer <;> simp [gives, takes]

end Instruction

namespace Machine

theorem length_numeral_le (v : Int64) : (numeral v).length ≤ 21 := by
  have hn : v.toInt.natAbs < 10 ^ 19 := by
    have hl := v.minValue_le_toInt
    have hu := v.toInt_le
    simp only [Int64.toInt_minValue, Int64.toInt_maxValue] at hl hu
    omega
  have hd := Nat.toDigits_length 10 v.toInt.natAbs 19 (by decide) hn
  have hs : (if v.toInt < 0 then ['-'] else []).length ≤ 1 := by split <;> simp
  simp only [numeral, Text.Decimal.ofInt, List.length_append, List.length_map,
    List.length_singleton]
  omega

variable {σ ι ω : Type}

theorem length_outgoing_le (m : Machine σ ι ω) : m.outgoing.length ≤ 21 := by
  unfold outgoing
  split
  · exact length_numeral_le m.stack.top
  · split <;> simp

/-- The next step executes an instruction that has one of these symbols. -/
def Executes (symbols : List Char) (m : Machine σ ι ω) : Prop :=
  ∃ i, m.order = some i ∧ i.symbol ∈ symbols

theorem executes_singleton {i : Instruction} {m : Machine σ ι ω} :
    m.Executes [i.symbol] ↔ m.order = some i := by
  constructor
  · rintro ⟨j, ho, hj⟩
    rw [ho, Instruction.symbol_injective (List.mem_singleton.mp hj)]
  · exact fun ho => ⟨i, ho, List.mem_singleton_self _⟩

/-- What a step that succeeds makes of `m`. -/
structure Effects [OutputSink ω] (m left : Machine σ ι ω) : Prop where
  steps : left.steps = m.steps + 1
  field : ∀ p, left.field.get p ≠ m.field.get p → m.Executes ['p'] ∧ m.quoting = false ∧
    m.stack.pop.top.toInt = p.x.val ∧ m.stack.top.toInt = p.y.val
  input : left.input ≠ m.input → m.Executes ['&', '~']
  output : left.output ≠ m.output → m.Executes [',', '.']
  writeCharacter : m.Executes [','] →
    OutputSink.accepted left.output = OutputSink.accepted m.output ++ [lowByte m.stack.top]
  writeInteger : m.Executes ['.'] →
    OutputSink.accepted left.output = OutputSink.accepted m.output ++ numeral m.stack.top
  directions : left.directions ≠ m.directions → m.Executes ['?']
  quoting : left.quoting ≠ m.quoting → m.Executes ['\x22']
  halted : left.halted ≠ m.halted → m.Executes ['@']
  heading : left.cursor.heading ≠ m.cursor.heading →
    m.Executes ['>', '<', '^', 'v', '?', '_', '|']
  cursor : left.cursor = (m.cursor.turn left.cursor.heading).advanceBy
    (if m.order = some .bridge then 2 else 1)
  stack : ∃ given, left.stack.values = given ++ m.stack.values.drop 3
  size_le : left.stack.size ≤ m.stack.size + 2
  le_size : m.stack.size ≤ left.stack.size + 3

variable [DirectionSource σ] [InputSource ι] [OutputSink ω] {m : Machine σ ι ω}

section

variable {α : Type} {f : Machine σ ι ω → α} {symbols : List Char}

/-- Only these instructions change what is observed, so one of them is executed if it changes. -/
theorem executes_of_step_ne (hp : ∀ a, f a.proceed = f a) (hv : ∀ v, f (m.push v) = f m)
    (hi : ∀ i : Instruction, i.symbol ∉ symbols → f (m.perform i).machine = f m)
    (h : f m.step.machine ≠ f m) : m.Executes symbols := by
  refine Classical.byContradiction fun hn => h ?_
  exact holds_of_step (P := fun a => f a = f m) (fun {a} ha => (hp a).trans ha) (fun _ => rfl)
    (fun _ v => hv v) fun i ho => hi i fun hs => hn ⟨i, ho, hs⟩

theorem ne_of_symbol_not_mem {i j : Instruction} (h : i.symbol ∉ symbols)
    (hj : j.symbol ∈ symbols) : i ≠ j :=
  fun he => h (he ▸ hj)

end

theorem cursor_perform (m : Machine σ ι ω) (i : Instruction) :
    (m.perform i).machine.cursor =
      (m.cursor.turn (m.perform i).machine.cursor.heading).advanceBy
        (if i = .bridge then 1 else 0) := by
  by_cases hi : i = .bridge
  · subst hi
    rfl
  · have hc := (frame_perform m i).position hi
    rw [if_neg hi, Cursor.advanceBy, Cursor.turn, ← hc]

theorem cursor_step (hh : m.halted = false) (ha : m.step.answer = .ok ()) :
    m.step.machine.cursor = (m.cursor.turn m.step.machine.cursor.heading).advanceBy
      (if m.order = some .bridge then 2 else 1) := by
  rcases m.step_cases with ⟨hh', -⟩ | ⟨-, hs, he⟩ | ⟨i, ho, he⟩ | ⟨-, -, -, he⟩
  · rw [hh] at hh'
    contradiction
  · have ho : m.order = none := by simp [order, hs]
    rw [he, ho]
    rfl
  · rw [he, answer_conclude] at ha
    have hn : (if m.order = some .bridge then 2 else 1) = (if i = .bridge then 1 else 0) + 1 := by
      by_cases hi : i = .bridge <;> simp [ho, hi]
    have hc : (m.perform i).machine.proceed.cursor = (m.perform i).machine.cursor.advance := rfl
    rw [he, machine_conclude_of_ok _ ha, hn, Cursor.advanceBy_succ, hc, Cursor.advance_heading,
      ← cursor_perform]
  · rw [he] at ha
    contradiction

theorem field_step_get_ne {p : Position} (h : m.step.machine.field.get p ≠ m.field.get p) :
    m.order = some .put ∧ m.stack.pop.top.toInt = p.x.val ∧ m.stack.top.toInt = p.y.val := by
  have ho : m.Overwrites p := by
    refine Classical.byContradiction fun hn => h ?_
    rw [field_step, Playfield.get_receive_of_not_mem fun b hb => hn ⟨b, hb⟩]
  obtain ⟨b, hb⟩ := ho
  rw [deposit] at hb
  split at hb
  next ho =>
    obtain ⟨q, hq, he⟩ := Option.map_eq_some_iff.mp hb
    obtain ⟨rfl, -⟩ := Prod.mk.inj he
    exact ⟨ho, Position.ofCoordinates?_eq_some_iff.mp hq⟩
  next => contradiction

theorem accepted_step_of_writes (hw : m.Writes) (ha : m.step.answer = .ok ()) :
    OutputSink.accepted m.step.machine.output =
      OutputSink.accepted m.output ++ m.outgoing := by
  obtain ⟨sent, -, hs, hall⟩ := OutputSink.accepted_deliver m.outgoing m.output
  rw [output_step_of_writes hw, hs]
  cases hc : (OutputSink.write m.outgoing m.output).1 with
  | ok => rw [hall hc]
  | error cause =>
    have he : (m.emit m.outgoing).answer = .error (.io cause) :=
      answer_emit_eq_error_iff.mpr ⟨cause, rfl, OutputSink.deliver_eq_error_iff.mpr (.inl hc)⟩
    rw [step_of_writes hw, answer_conclude, he] at ha
    contradiction

theorem exists_given_step (m : Machine σ ι ω) :
    ∃ given : Stack, m.step.machine.stack = given.above (Stack.pop^[m.demand] m.stack) := by
  refine holds_of_step (P := fun a => ∃ given : Stack, a.stack = given.above _) (fun h => h)
    (fun ho => ⟨.empty, ?_⟩) (fun ho v => ⟨⟨[v]⟩, ?_⟩) fun i ho => ?_
  · rw [demand, ho]
    rfl
  · rw [demand, ho]
    rfl
  · obtain ⟨given, -, hs⟩ := exists_given_perform m i
    exact ⟨given, by rw [hs, demand, ho]; rfl⟩

/-- The longest that the stack can get: on an empty one two values are given where none was
taken. -/
theorem size_step_le (m : Machine σ ι ω) : m.step.machine.stack.size ≤ max m.stack.size 1 + 1 := by
  refine holds_of_step (P := fun a => a.stack.size ≤ max m.stack.size 1 + 1) (fun h => h)
    (fun _ => by omega) (fun _ v => ?_) fun i _ => ?_
  · have hv : (m.push v).stack.size = m.stack.size + 1 := rfl
    omega
  · have hs := size_perform m i
    have h2 := i.gives_le_two (m.perform i).answer
    have ht := i.gives_le_takes_add_one (m.perform i).answer
    omega

theorem exists_sent_step (m : Machine σ ι ω) : ∃ sent,
    OutputSink.accepted m.step.machine.output = OutputSink.accepted m.output ++ sent ∧
      sent.length ≤ 21 := by
  by_cases hw : m.Writes
  · obtain ⟨sent, hp, hs, -⟩ := OutputSink.accepted_deliver m.outgoing m.output
    rw [output_step_of_writes hw]
    exact ⟨sent, hs, hp.length_le.trans m.length_outgoing_le⟩
  · rw [output_step_of_silent hw]
    exact ⟨[], (List.append_nil _).symm, Nat.zero_le 21⟩

theorem effects_step (hh : m.halted = false) (ha : m.step.answer = .ok ()) :
    m.Effects m.step.machine where
  steps := steps_step_of_ok hh ha
  field := fun p h => by
    obtain ⟨ho, hp⟩ := field_step_get_ne h
    exact ⟨executes_singleton.mpr ho, quoting_eq_false_of_order ho (by decide), hp⟩
  input := executes_of_step_ne (f := (·.input)) (fun _ => rfl) (fun _ => rfl) fun i hi =>
    (frame_perform m i).input (ne_of_symbol_not_mem hi (by decide))
      (ne_of_symbol_not_mem hi (by decide))
  output := executes_of_step_ne (f := (·.output)) (fun _ => rfl) (fun _ => rfl) fun i hi =>
    (frame_perform m i).output (ne_of_symbol_not_mem hi (by decide))
      (ne_of_symbol_not_mem hi (by decide))
  writeCharacter := fun he => by
    have ho : m.order = some .writeCharacter := executes_singleton.mp he
    rw [accepted_step_of_writes (.inr ho) ha,
      outgoing_of_writeCharacter (fetch_of_order ho (by decide)).2]
  writeInteger := fun he => by
    have ho : m.order = some .writeInteger := executes_singleton.mp he
    rw [accepted_step_of_writes (.inl ho) ha,
      outgoing_of_writeInteger (fetch_of_order ho (by decide)).2]
  directions := executes_of_step_ne (f := (·.directions)) (fun _ => rfl) (fun _ => rfl) fun i hi =>
    (frame_perform m i).directions (ne_of_symbol_not_mem hi (by decide))
  quoting := executes_of_step_ne (f := (·.quoting)) (fun _ => rfl) (fun _ => rfl) fun i hi =>
    (frame_perform m i).quoting (ne_of_symbol_not_mem hi (by decide))
  halted := executes_of_step_ne (f := (·.halted)) (fun _ => rfl) (fun _ => rfl) fun i hi =>
    (frame_perform m i).halted (ne_of_symbol_not_mem hi (by decide))
  heading := executes_of_step_ne (f := (·.cursor.heading)) (fun _ => rfl) (fun _ => rfl)
    fun i hi => (frame_perform m i).heading
      (Bool.eq_false_iff.mpr fun hs => hi (i.steers_iff.mp hs))
  cursor := cursor_step hh ha
  stack := by
    obtain ⟨given, hs⟩ := exists_given_step m
    have hd := m.demand_le_three
    have hv : m.stack.values.drop m.demand =
        (m.stack.values.drop m.demand).take (3 - m.demand) ++ m.stack.values.drop 3 := by
      have h3 : m.demand + (3 - m.demand) = 3 := by omega
      rw [← h3, ← List.drop_drop, h3, List.take_append_drop]
    refine ⟨given.values ++ (m.stack.values.drop m.demand).take (3 - m.demand), ?_⟩
    rw [hs, Stack.above, Stack.values_iterate_pop, List.append_assoc, ← hv]
  size_le := by
    have hs := size_step_le m
    omega
  le_size := size_le_size_step m

theorem size_after_le (m : Machine σ ι ω) (k : Nat) :
    (m.after k).stack.size ≤ max m.stack.size 1 + k := by
  induction k with
  | zero => exact Nat.le_max_left _ _
  | succ k ih =>
    have hs := size_step_le (m.after k)
    rw [after_succ]
    omega

theorem exists_sent_after (m : Machine σ ι ω) (k : Nat) : ∃ sent,
    OutputSink.accepted (m.after k).output = OutputSink.accepted m.output ++ sent ∧
      sent.length ≤ 21 * k := by
  induction k with
  | zero => exact ⟨[], (List.append_nil _).symm, Nat.le_refl 0⟩
  | succ k ih =>
    obtain ⟨earlier, he, hk⟩ := ih
    obtain ⟨sent, hs, hl⟩ := exists_sent_step (m.after k)
    refine ⟨earlier ++ sent, by rw [after_succ, hs, he, List.append_assoc], ?_⟩
    rw [List.length_append]
    omega

theorem effects_are_confined (m : Machine σ ι ω) :
    (m.halted = false → m.step.answer = .ok () → m.Effects m.step.machine) ∧
    ∀ k, (m.after k).stack.size ≤ max m.stack.size 1 + k ∧
      ∃ sent, OutputSink.accepted (m.after k).output = OutputSink.accepted m.output ++ sent ∧
        sent.length ≤ 21 * k :=
  ⟨effects_step, fun k => ⟨size_after_le m k, exists_sent_after m k⟩⟩

/-- Prints the longest numeral, and then exchanges two zeros that lie below the stack. -/
def draining : Machine Script :=
  { start (.ofLines [".\\@".toList.map Char.toUInt8]) (.ofBytes []) .unlimited (.ofList []) with
    stack := .ofList [Int64.minValue] }

theorem effects_are_confined_draining :
    draining.Effects draining.step.machine ∧
    draining.step.machine.output.written.toList.length = 21 ∧
    draining.step.machine.stack.size = 0 ∧ (draining.step.machine.after 1).stack.size = 2 := by
  have ho : draining.order = some .writeInteger := by decide +kernel
  have he := (effects_are_confined draining).1 rfl rfl
  have hs := he.writeInteger (executes_singleton.mpr ho)
  refine ⟨he, (congrArg List.length hs).trans ?_, by decide +kernel, by decide +kernel⟩
  decide +kernel

end Machine

end Befunge
