import Befunge.Proofs.Step

/-! When a step fails, and what a failed step leaves behind. -/

namespace Befunge

namespace OutputSink

variable {ω : Type} [OutputSink ω]

theorem deliver_eq_error_iff {bytes : List UInt8} {o : ω} {cause : String} :
    (deliver bytes o).1 = .error cause ↔
      (write bytes o).1 = .error cause ∨
        (write bytes o).1 = .ok () ∧ (flush (write bytes o).2).1 = .error cause := by
  cases h : (write bytes o).1 <;> simp [deliver, h]

theorem accepted_deliver (bytes : List UInt8) (o : ω) :
    ∃ sent, sent <+: bytes ∧ accepted (deliver bytes o).2 = accepted o ++ sent ∧
      ((write bytes o).1 = .ok () → sent = bytes) := by
  obtain ⟨n, ha, hn⟩ := accepted_write bytes o
  refine ⟨bytes.take n, List.take_prefix n bytes, ?_, fun h => List.take_of_length_le (hn h)⟩
  cases h : (write bytes o).1 with
  | ok => simp only [deliver, h, accepted_flush, ha]
  | error cause => simp only [deliver, h, ha]

end OutputSink

namespace Position

theorem ofCoordinates?_eq_none_iff {x y : Int64} :
    ofCoordinates? x y = none ↔
      ¬ ((0 ≤ x.toInt ∧ x.toInt < 80) ∧ (0 ≤ y.toInt ∧ y.toInt < 25)) := by
  unfold ofCoordinates?
  split
  next h => exact iff_of_false nofun (fun hn => hn h)
  next h => exact iff_of_true rfl h

end Position

namespace Machine

variable {σ ι ω : Type}

/-- The bytes that the cell under the cursor would send. -/
def outgoing (m : Machine σ ι ω) : List UInt8 :=
  if m.fetch = '.'.toUInt8 then numeral m.stack.top
  else if m.fetch = ','.toUInt8 then [lowByte m.stack.top]
  else []

/-- How many values an instruction takes from the stack before it can fail. -/
def atStake (code : UInt8) : Nat :=
  if code = 'p'.toUInt8 then 3
  else if code = 'g'.toUInt8 then 2
  else if code = '.'.toUInt8 ∨ code = ','.toUInt8 then 1
  else 0

/-- The faults with which the next step fails. -/
inductive Fails [InputSource ι] [OutputSink ω] (m : Machine σ ι ω) : Fault → Prop where
  | lost (hs : m.swallows = false) (hd : Instruction.decode m.fetch = none) :
      m.Fails (.unknownInstruction m.fetch m.cursor.position.x m.cursor.position.y)
  | outside (hq : m.quoting = false) (hf : m.fetch = 'g'.toUInt8 ∨ m.fetch = 'p'.toUInt8)
      (ho : ¬ ((0 ≤ m.stack.pop.top.toInt ∧ m.stack.pop.top.toInt < 80) ∧
        (0 ≤ m.stack.top.toInt ∧ m.stack.top.toInt < 25))) :
      m.Fails (.outOfBounds m.stack.pop.top m.stack.top)
  | unwritten {cause : String} (hq : m.quoting = false)
      (hf : m.fetch = '.'.toUInt8 ∨ m.fetch = ','.toUInt8)
      (hw : (OutputSink.write m.outgoing m.output).1 = .error cause) : m.Fails (.io cause)
  | unflushed {cause : String} (hq : m.quoting = false)
      (hf : m.fetch = '.'.toUInt8 ∨ m.fetch = ','.toUInt8)
      (hw : (OutputSink.write m.outgoing m.output).1 = .ok ())
      (hc : (OutputSink.flush (OutputSink.write m.outgoing m.output).2).1 = .error cause) :
      m.Fails (.io cause)
  | noLine {cause : String} (hq : m.quoting = false) (hf : m.fetch = '&'.toUInt8)
      (hr : (InputSource.takeLine m.input).1 = .failed cause) : m.Fails (.io cause)
  | noByte {cause : String} (hq : m.quoting = false) (hf : m.fetch = '~'.toUInt8)
      (hr : (InputSource.takeByte m.input).1 = .failed cause) : m.Fails (.io cause)

/-- What a failed step leaves of `m`. -/
structure Aborted [InputSource ι] [OutputSink ω] (m left : Machine σ ι ω) : Prop where
  field : left.field = m.field
  cursor : left.cursor = m.cursor
  quoting : left.quoting = m.quoting
  halted : left.halted = m.halted
  steps : left.steps = m.steps
  directions : left.directions = m.directions
  stack : left.stack.values = m.stack.values.drop (atStake m.fetch)
  input : left.input =
    if m.fetch = '&'.toUInt8 then (InputSource.takeLine m.input).2
    else if m.fetch = '~'.toUInt8 then (InputSource.takeByte m.input).2
    else m.input
  output : left.output =
    if m.fetch = '.'.toUInt8 ∨ m.fetch = ','.toUInt8 then
      (OutputSink.deliver m.outgoing m.output).2
    else m.output
  accepted : ∃ sent, sent <+: m.outgoing ∧
    OutputSink.accepted left.output = OutputSink.accepted m.output ++ sent ∧
    ((OutputSink.write m.outgoing m.output).1 = .ok () → sent = m.outgoing)

theorem outgoing_of_writeInteger {m : Machine σ ι ω} (hf : m.fetch = '.'.toUInt8) :
    m.outgoing = numeral m.stack.top := by
  rw [outgoing, hf]
  rfl

theorem outgoing_of_writeCharacter {m : Machine σ ι ω} (hf : m.fetch = ','.toUInt8) :
    m.outgoing = [lowByte m.stack.top] := by
  rw [outgoing, hf]
  rfl

theorem answer_emit_eq_error_iff [OutputSink ω] {m : Machine σ ι ω} {bytes : List UInt8}
    {fault : Fault} :
    (m.emit bytes).answer = .error fault ↔
      ∃ cause, fault = .io cause ∧ (OutputSink.deliver bytes m.output).1 = .error cause := by
  unfold emit
  cases h : (OutputSink.deliver bytes m.output).1 with
  | ok => simp [h, done]
  | error cause => simp [h, refuse, eq_comm]

theorem readInteger_eq_error_iff [InputSource ι] {m : Machine σ ι ω} {fault : Fault} :
    m.readInteger.answer = .error fault ↔
      ∃ cause, fault = .io cause ∧ (InputSource.takeLine m.input).1 = .failed cause := by
  unfold readInteger
  cases h : (InputSource.takeLine m.input).1 <;> simp [h, done, refuse, eq_comm]

theorem readCharacter_eq_error_iff [InputSource ι] {m : Machine σ ι ω} {fault : Fault} :
    m.readCharacter.answer = .error fault ↔
      ∃ cause, fault = .io cause ∧ (InputSource.takeByte m.input).1 = .failed cause := by
  unfold readCharacter
  cases h : (InputSource.takeByte m.input).1 <;> simp [h, done, refuse, eq_comm]

theorem machine_readInteger_of_error [InputSource ι] {m : Machine σ ι ω} {fault : Fault}
    (h : m.readInteger.answer = .error fault) :
    m.readInteger.machine = { m with input := (InputSource.takeLine m.input).2 } := by
  obtain ⟨cause, -, hr⟩ := readInteger_eq_error_iff.mp h
  simp only [readInteger, hr, refuse]

theorem machine_readCharacter_of_error [InputSource ι] {m : Machine σ ι ω} {fault : Fault}
    (h : m.readCharacter.answer = .error fault) :
    m.readCharacter.machine = { m with input := (InputSource.takeByte m.input).2 } := by
  obtain ⟨cause, -, hr⟩ := readCharacter_eq_error_iff.mp h
  simp only [readCharacter, hr, refuse]

theorem getCell_eq_error_iff {m : Machine σ ι ω} {fault : Fault} :
    m.getCell.answer = .error fault ↔
      Position.ofCoordinates? m.stack.pop.top m.stack.top = none ∧
        fault = .outOfBounds m.stack.pop.top m.stack.top := by
  unfold getCell Playfield.read
  cases h : Position.ofCoordinates? m.stack.pop.top m.stack.top <;> simp [done, refuse, eq_comm]

theorem putCell_eq_error_iff {m : Machine σ ι ω} {fault : Fault} :
    m.putCell.answer = .error fault ↔
      Position.ofCoordinates? m.stack.pop.top m.stack.top = none ∧
        fault = .outOfBounds m.stack.pop.top m.stack.top := by
  unfold putCell Playfield.write
  cases h : Position.ofCoordinates? m.stack.pop.top m.stack.top <;> simp [done, refuse, eq_comm]

theorem machine_getCell_of_error {m : Machine σ ι ω} {fault : Fault}
    (h : m.getCell.answer = .error fault) :
    m.getCell.machine = m.mapStack fun s => s.pop.pop := by
  obtain ⟨ho, -⟩ := getCell_eq_error_iff.mp h
  simp only [getCell, Playfield.read, ho, refuse]

theorem machine_putCell_of_error {m : Machine σ ι ω} {fault : Fault}
    (h : m.putCell.answer = .error fault) :
    m.putCell.machine = m.mapStack fun s => s.pop.pop.pop := by
  obtain ⟨ho, -⟩ := putCell_eq_error_iff.mp h
  simp only [putCell, Playfield.write, ho, refuse]

section

variable [InputSource ι] [OutputSink ω]

theorem aborted_of_emit {m : Machine σ ι ω} (hf : m.fetch = '.'.toUInt8 ∨ m.fetch = ','.toUInt8) :
    m.Aborted (m.emit m.outgoing).machine := by
  rw [machine_emit]
  refine ⟨rfl, rfl, rfl, rfl, rfl, rfl, ?_, ?_, ?_, OutputSink.accepted_deliver _ _⟩
  · rw [Stack.values_pop, ← List.drop_one]
    rcases hf with hf | hf <;> rw [hf] <;> rfl
  · rcases hf with hf | hf <;> rw [hf] <;> rfl
  · rw [if_pos hf]

theorem aborted_of_silent {m : Machine σ ι ω} {stack : Stack} {input : ι}
    (ho : ¬ (m.fetch = '.'.toUInt8 ∨ m.fetch = ','.toUInt8))
    (hs : stack.values = m.stack.values.drop (atStake m.fetch))
    (hi : input =
      if m.fetch = '&'.toUInt8 then (InputSource.takeLine m.input).2
      else if m.fetch = '~'.toUInt8 then (InputSource.takeByte m.input).2
      else m.input) :
    m.Aborted { m with stack, input } := by
  have hm : m.outgoing = [] := by
    rw [outgoing, if_neg fun h => ho (.inl h), if_neg fun h => ho (.inr h)]
  refine ⟨rfl, rfl, rfl, rfl, rfl, rfl, hs, hi, (if_neg ho).symm, [], List.nil_prefix, ?_, ?_⟩
  · rw [List.append_nil]
  · exact fun _ => hm.symm

theorem aborted_of_lost {m : Machine σ ι ω} (hd : Instruction.decode m.fetch = none) :
    m.Aborted m := by
  have hne : ∀ i : Instruction, m.fetch ≠ i.symbol.toUInt8 := by
    intro i hf
    rw [Instruction.decode_eq_some_iff.mpr hf] at hd
    contradiction
  have hp : m.fetch ≠ 'p'.toUInt8 := hne .put
  have hg : m.fetch ≠ 'g'.toUInt8 := hne .get
  have hl : m.fetch ≠ '&'.toUInt8 := hne .readInteger
  have hb : m.fetch ≠ '~'.toUInt8 := hne .readCharacter
  have ho : ¬ (m.fetch = '.'.toUInt8 ∨ m.fetch = ','.toUInt8) :=
    not_or.mpr ⟨hne .writeInteger, hne .writeCharacter⟩
  refine aborted_of_silent ho ?_ ?_
  · rw [atStake, if_neg hp, if_neg hg, if_neg ho, List.drop_zero]
  · rw [if_neg hl, if_neg hb]

theorem aborted_of_readInteger {m : Machine σ ι ω} {fault : Fault} (hf : m.fetch = '&'.toUInt8)
    (h : m.readInteger.answer = .error fault) : m.Aborted m.readInteger.machine := by
  rw [machine_readInteger_of_error h]
  refine aborted_of_silent ?_ ?_ ?_ <;> rw [hf]
  · decide
  · rfl
  · rfl

theorem aborted_of_readCharacter {m : Machine σ ι ω} {fault : Fault}
    (hf : m.fetch = '~'.toUInt8) (h : m.readCharacter.answer = .error fault) :
    m.Aborted m.readCharacter.machine := by
  rw [machine_readCharacter_of_error h]
  refine aborted_of_silent ?_ ?_ ?_ <;> rw [hf]
  · decide
  · rfl
  · rfl

theorem aborted_of_getCell {m : Machine σ ι ω} {fault : Fault} (hf : m.fetch = 'g'.toUInt8)
    (h : m.getCell.answer = .error fault) : m.Aborted m.getCell.machine := by
  rw [machine_getCell_of_error h]
  refine aborted_of_silent ?_ ?_ ?_ <;> rw [hf]
  · decide
  · simp only [Stack.values_pop, ← List.drop_one, List.drop_drop]
    rfl
  · rfl

theorem aborted_of_putCell {m : Machine σ ι ω} {fault : Fault} (hf : m.fetch = 'p'.toUInt8)
    (h : m.putCell.answer = .error fault) : m.Aborted m.putCell.machine := by
  rw [machine_putCell_of_error h]
  refine aborted_of_silent ?_ ?_ ?_ <;> rw [hf]
  · decide
  · simp only [Stack.values_pop, ← List.drop_one, List.drop_drop]
    rfl
  · rfl

theorem fails_of_emit {m : Machine σ ι ω} {fault : Fault} (hq : m.quoting = false)
    (hf : m.fetch = '.'.toUInt8 ∨ m.fetch = ','.toUInt8)
    (h : (m.emit m.outgoing).answer = .error fault) : m.Fails fault := by
  obtain ⟨cause, rfl, hd⟩ := answer_emit_eq_error_iff.mp h
  rcases OutputSink.deliver_eq_error_iff.mp hd with hw | ⟨hw, hc⟩
  · exact .unwritten hq hf hw
  · exact .unflushed hq hf hw hc

end

section

variable [DirectionSource σ] [InputSource ι] [OutputSink ω]

theorem fails_of_perform {m : Machine σ ι ω} {i : Instruction} {fault : Fault}
    (ho : m.order = some i) (h : (m.perform i).answer = .error fault) :
    m.Fails fault ∧ m.Aborted (m.perform i).machine := by
  cases i with
  | get =>
    obtain ⟨hq, hf⟩ := fetch_of_order ho (by decide)
    obtain ⟨hn, rfl⟩ := getCell_eq_error_iff.mp h
    exact ⟨.outside hq (.inl hf) (Position.ofCoordinates?_eq_none_iff.mp hn),
      aborted_of_getCell hf h⟩
  | put =>
    obtain ⟨hq, hf⟩ := fetch_of_order ho (by decide)
    obtain ⟨hn, rfl⟩ := putCell_eq_error_iff.mp h
    exact ⟨.outside hq (.inr hf) (Position.ofCoordinates?_eq_none_iff.mp hn),
      aborted_of_putCell hf h⟩
  | readInteger =>
    obtain ⟨hq, hf⟩ := fetch_of_order ho (by decide)
    obtain ⟨cause, rfl, hr⟩ := readInteger_eq_error_iff.mp h
    exact ⟨.noLine hq hf hr, aborted_of_readInteger hf h⟩
  | readCharacter =>
    obtain ⟨hq, hf⟩ := fetch_of_order ho (by decide)
    obtain ⟨cause, rfl, hr⟩ := readCharacter_eq_error_iff.mp h
    exact ⟨.noByte hq hf hr, aborted_of_readCharacter hf h⟩
  | writeInteger =>
    obtain ⟨hq, hf⟩ := fetch_of_order ho (by decide)
    simp only [perform, ← outgoing_of_writeInteger hf] at h ⊢
    exact ⟨fails_of_emit hq (.inl hf) h, aborted_of_emit (.inl hf)⟩
  | writeCharacter =>
    obtain ⟨hq, hf⟩ := fetch_of_order ho (by decide)
    simp only [perform, ← outgoing_of_writeCharacter hf] at h ⊢
    exact ⟨fails_of_emit hq (.inr hf) h, aborted_of_emit (.inr hf)⟩
  | _ => contradiction

theorem fails_of_step {m : Machine σ ι ω} {fault : Fault} (h : m.step.answer = .error fault) :
    m.Fails fault ∧ m.Aborted m.step.machine := by
  rcases m.step_cases with ⟨-, he⟩ | ⟨-, -, he⟩ | ⟨i, ho, he⟩ | ⟨-, hs, hd, he⟩
  · rw [he] at h
    contradiction
  · rw [he] at h
    contradiction
  · rw [he, answer_conclude] at h
    rw [he, machine_conclude_of_error _ h]
    exact fails_of_perform ho h
  · rw [he, answer_conclude] at h
    rw [he, machine_conclude_of_error _ h]
    cases h
    exact ⟨.lost hs hd, aborted_of_lost hd⟩

theorem answer_of_fails {m : Machine σ ι ω} {fault : Fault} (hh : m.halted = false)
    (h : m.Fails fault) : m.step.answer = .error fault := by
  have ho (i : Instruction) (hq : m.quoting = false) (hf : m.fetch = i.symbol.toUInt8) :
      m.step.answer = (m.perform i).answer := by
    rw [step_of_order (order_of_fetch hh hq hf), answer_conclude]
  have he {cause : String} (hq : m.quoting = false)
      (hf : m.fetch = '.'.toUInt8 ∨ m.fetch = ','.toUInt8)
      (hd : (OutputSink.deliver m.outgoing m.output).1 = .error cause) :
      m.step.answer = .error (.io cause) := by
    have ha : (m.emit m.outgoing).answer = .error (.io cause) :=
      answer_emit_eq_error_iff.mpr ⟨cause, rfl, hd⟩
    rcases hf with hf | hf
    · rw [ho .writeInteger hq hf, perform, ← outgoing_of_writeInteger hf, ha]
    · rw [ho .writeCharacter hq hf, perform, ← outgoing_of_writeCharacter hf, ha]
  cases h with
  | lost hs hd =>
    rw [step_of_lost hh hs hd, answer_conclude]
    rfl
  | outside hq hf hn =>
    have hn := Position.ofCoordinates?_eq_none_iff.mpr hn
    rcases hf with hf | hf
    · rw [ho .get hq hf]
      exact getCell_eq_error_iff.mpr ⟨hn, rfl⟩
    · rw [ho .put hq hf]
      exact putCell_eq_error_iff.mpr ⟨hn, rfl⟩
  | unwritten hq hf hw => exact he hq hf (OutputSink.deliver_eq_error_iff.mpr (.inl hw))
  | unflushed hq hf hw hc => exact he hq hf (OutputSink.deliver_eq_error_iff.mpr (.inr ⟨hw, hc⟩))
  | noLine hq hf hr =>
    rw [ho .readInteger hq hf]
    exact readInteger_eq_error_iff.mpr ⟨_, rfl, hr⟩
  | noByte hq hf hr =>
    rw [ho .readCharacter hq hf]
    exact readCharacter_eq_error_iff.mpr ⟨_, rfl, hr⟩

theorem step_fails_iff {m : Machine σ ι ω} (hh : m.halted = false) :
    (∀ fault, m.step.answer = .error fault ↔ m.Fails fault) ∧
      ∀ fault, m.step.answer = .error fault → m.Aborted m.step.machine :=
  ⟨fun _ => ⟨fun h => (fails_of_step h).1, answer_of_fails hh⟩, fun _ h => (fails_of_step h).2⟩

def straying : Machine Script :=
  { start (.ofLines ["p".toList.map Char.toUInt8]) (.ofBytes []) .unlimited (.ofList []) with
    stack := .ofList [7, 5, -1, 30] }

theorem step_fails_iff_straying : straying.halted = false ∧
    straying.step.answer = .error (.outOfBounds (-1) 30) ∧
    straying.step.machine.stack.values = [7] := by
  obtain ⟨hf, ha⟩ := step_fails_iff (m := straying) rfl
  have hp : straying.fetch = 'p'.toUInt8 := by decide +kernel
  have ho : straying.Fails (.outOfBounds (-1) 30) := .outside rfl (.inr hp) (by decide)
  have he := (hf _).mpr ho
  refine ⟨rfl, he, (ha _ he).stack.trans ?_⟩
  rw [hp]
  rfl

end

end Machine

end Befunge
