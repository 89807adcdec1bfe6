import Befunge.Machine.Step

/-! What a step is made of. A machine that has not halted pushes its cell, executes the
instruction that the cell holds, or is lost on a cell that holds none. -/

namespace Befunge

/-- Whether it sets where the cursor is heading. -/
def Instruction.steers : Instruction → Bool
  | .turn _ => true
  | .wander => true
  | .branch _ => true
  | _ => false

namespace Machine

variable {σ ι ω : Type}

/-- Whether the cell under the cursor is pushed instead of executed. -/
def swallows (m : Machine σ ι ω) : Bool := m.quoting && m.fetch != Instruction.quotationMark

/-- The instruction that the next step executes, if it executes one. -/
def order (m : Machine σ ι ω) : Option Instruction :=
  if m.halted || m.swallows then none else Instruction.decode m.fetch

def lost (m : Machine σ ι ω) : Reply σ Unit ι ω :=
  m.refuse (.unknownInstruction m.fetch m.cursor.position.x m.cursor.position.y)

theorem order_eq_some_iff {m : Machine σ ι ω} {i : Instruction} :
    m.order = some i ↔
      m.halted = false ∧ m.swallows = false ∧ Instruction.decode m.fetch = some i := by
  cases hh : m.halted <;> cases hs : m.swallows <;> simp [order, hh, hs]

theorem swallows_eq_false_of_quoting {m : Machine σ ι ω} (h : m.quoting = false) :
    m.swallows = false := by
  simp [swallows, h]

theorem quoting_eq_false_of_order {m : Machine σ ι ω} {i : Instruction} (h : m.order = some i)
    (hi : i ≠ .quote) : m.quoting = false := by
  obtain ⟨-, hs, hd⟩ := order_eq_some_iff.mp h
  cases hq : m.quoting with
  | false => rfl
  | true =>
    -- a cell that is not swallowed here holds the quotation mark
    simp only [swallows, hq, Bool.true_and, bne_eq_false_iff_eq] at hs
    rw [hs] at hd
    exact absurd (Option.some.inj hd).symm hi

theorem fetch_of_order {m : Machine σ ι ω} {i : Instruction} (h : m.order = some i)
    (hi : i ≠ .quote) : m.quoting = false ∧ m.fetch = i.symbol.toUInt8 := by
  obtain ⟨-, -, hd⟩ := order_eq_some_iff.mp h
  exact ⟨quoting_eq_false_of_order h hi, Instruction.decode_eq_some_iff.mp hd⟩

theorem order_of_fetch {m : Machine σ ι ω} {i : Instruction} (hh : m.halted = false)
    (hq : m.quoting = false) (hf : m.fetch = i.symbol.toUInt8) : m.order = some i :=
  order_eq_some_iff.mpr
    ⟨hh, swallows_eq_false_of_quoting hq, Instruction.decode_eq_some_iff.mpr hf⟩

theorem answer_conclude (begun : Record) (r : Reply σ Unit ι ω) :
    (conclude begun r).answer = r.answer := by
  obtain ⟨answer, left, records⟩ := r
  cases answer <;> rfl

theorem machine_conclude_of_ok {r : Reply σ Unit ι ω} (begun : Record) (h : r.answer = .ok ()) :
    (conclude begun r).machine = r.machine.proceed := by
  obtain ⟨answer, left, records⟩ := r
  subst h
  rfl

theorem machine_conclude_of_error {r : Reply σ Unit ι ω} {fault : Fault} (begun : Record)
    (h : r.answer = .error fault) : (conclude begun r).machine = r.machine := by
  obtain ⟨answer, left, records⟩ := r
  subst h
  rfl

/-- A step may go on to the next cell after the instruction, and changes nothing else then. -/
theorem observe_conclude {α : Type} (f : Machine σ ι ω → α) (hf : ∀ m, f m.proceed = f m)
    (begun : Record) (r : Reply σ Unit ι ω) : f (conclude begun r).machine = f r.machine := by
  obtain ⟨answer, left, records⟩ := r
  cases answer with
  | ok => exact hf left
  | error fault => rfl

/-- What executing an instruction leaves as it was, whether or not it fails. -/
structure Frame (i : Instruction) (m left : Machine σ ι ω) : Prop where
  field : i ≠ .put → left.field = m.field
  position : i ≠ .bridge → left.cursor.position = m.cursor.position
  heading : i.steers = false → left.cursor.heading = m.cursor.heading
  quoting : i ≠ .quote → left.quoting = m.quoting
  halted : i ≠ .exit → left.halted = m.halted
  steps : left.steps = m.steps
  input : i ≠ .readInteger → i ≠ .readCharacter → left.input = m.input
  output : i ≠ .writeInteger → i ≠ .writeCharacter → left.output = m.output
  directions : i ≠ .wander → left.directions = m.directions

theorem input_readInteger [InputSource ι] (m : Machine σ ι ω) :
    m.readInteger.machine.input = (InputSource.takeLine m.input).2 := by
  simp only [readInteger]
  split <;> rfl

theorem input_readCharacter [InputSource ι] (m : Machine σ ι ω) :
    m.readCharacter.machine.input = (InputSource.takeByte m.input).2 := by
  simp only [readCharacter]
  split <;> rfl

theorem machine_emit [OutputSink ω] (m : Machine σ ι ω) (bytes : List UInt8) :
    (m.emit bytes).machine =
      { m with stack := m.stack.pop, output := (OutputSink.deliver bytes m.output).2 } := by
  simp only [emit]
  split <;> rfl

variable [DirectionSource σ] [InputSource ι] [OutputSink ω]

theorem frame_perform (m : Machine σ ι ω) (i : Instruction) :
    Frame i m (m.perform i).machine := by
  cases i with
  | get =>
    simp only [perform, getCell]
    split <;> constructor <;> intros <;> rfl
  | put =>
    simp only [perform, putCell]
    split <;> constructor <;> intros <;> first | rfl | contradiction
  | readInteger =>
    simp only [perform, readInteger]
    split <;> constructor <;> intros <;> first | rfl | contradiction
  | readCharacter =>
    simp only [perform, readCharacter]
    split <;> constructor <;> intros <;> first | rfl | contradiction
  | writeInteger | writeCharacter =>
    rw [perform, machine_emit]
    constructor <;> intros <;> first | rfl | contradiction
  | _ => constructor <;> intros <;> first | rfl | contradiction

theorem step_of_halted {m : Machine σ ι ω} (h : m.halted = true) : m.step = m.done := by
  simp [step, h]

theorem step_of_swallows {m : Machine σ ι ω} (h : m.halted = false) (hs : m.swallows = true) :
    m.step = conclude m.begun (m.push (ofByte m.fetch)).done := by
  unfold swallows at hs
  simp [step, execute, h, hs]

theorem step_of_order {m : Machine σ ι ω} {i : Instruction} (h : m.order = some i) :
    m.step = conclude m.begun (m.perform i) := by
  obtain ⟨hh, hs, hd⟩ := order_eq_some_iff.mp h
  unfold swallows at hs
  simp [step, execute, hh, hs, hd]

theorem step_of_lost {m : Machine σ ι ω} (h : m.halted = false) (hs : m.swallows = false)
    (hd : Instruction.decode m.fetch = none) : m.step = conclude m.begun m.lost := by
  unfold swallows at hs
  simp [step, execute, h, hs, hd, lost]

theorem step_cases (m : Machine σ ι ω) :
    (m.halted = true ∧ m.step = m.done) ∨
    (m.halted = false ∧ m.swallows = true ∧
      m.step = conclude m.begun (m.push (ofByte m.fetch)).done) ∨
    (∃ i, m.order = some i ∧ m.step = conclude m.begun (m.perform i)) ∨
    (m.halted = false ∧ m.swallows = false ∧ Instruction.decode m.fetch = none ∧
      m.step = conclude m.begun m.lost) := by
  cases hh : m.halted with
  | true => exact .inl ⟨rfl, step_of_halted hh⟩
  | false =>
    cases hs : m.swallows with
    | true => exact .inr (.inl ⟨rfl, rfl, step_of_swallows hh hs⟩)
    | false =>
      cases hd : Instruction.decode m.fetch with
      | none => exact .inr (.inr (.inr ⟨rfl, rfl, rfl, step_of_lost hh hs hd⟩))
      | some i =>
        have ho : m.order = some i := order_eq_some_iff.mpr ⟨hh, hs, hd⟩
        exact .inr (.inr (.inl ⟨i, ho, step_of_order ho⟩))

/-- What holds of the machine that a step leaves: nothing has happened to it but that it may have
gone on, or it has pushed its cell, or it has executed an instruction. -/
theorem holds_of_step {P : Machine σ ι ω → Prop} {m : Machine σ ι ω}
    (hp : ∀ {a}, P a → P a.proceed) (hm : m.order = none → P m)
    (hv : m.order = none → ∀ v, P (m.push v))
    (hi : ∀ i, m.order = some i → P (m.perform i).machine) : P m.step.machine := by
  have hc : ∀ r : Reply σ Unit ι ω, P r.machine → P (conclude m.begun r).machine := by
    rintro ⟨answer, left, records⟩ h
    cases answer with
    | ok => exact hp h
    | error fault => exact h
  rcases m.step_cases with ⟨hh, he⟩ | ⟨-, hs, he⟩ | ⟨i, ho, he⟩ | ⟨-, -, hd, he⟩
  · rw [he]
    exact hm (by simp [order, hh])
  · rw [he]
    exact hc _ (hv (by simp [order, hs]) _)
  · rw [he]
    exact hc _ (hi i ho)
  · rw [he]
    exact hc _ (hm (by simp [order, hd]))

theorem input_step (m : Machine σ ι ω) :
    m.step.machine.input = m.input ∨ m.step.machine.input = (InputSource.takeLine m.input).2 ∨
      m.step.machine.input = (InputSource.takeByte m.input).2 := by
  refine holds_of_step (P := fun a => a.input = m.input ∨ a.input = _ ∨ a.input = _) (fun h => h)
    (fun _ => .inl rfl) (fun _ _ => .inl rfl) fun i _ => ?_
  cases i with
  | readInteger => exact .inr (.inl (input_readInteger m))
  | readCharacter => exact .inr (.inr (input_readCharacter m))
  | _ => exact .inl ((frame_perform m _).input nofun nofun)

theorem steps_step_of_ok {m : Machine σ ι ω} (h : m.halted = false)
    (ha : m.step.answer = .ok ()) : m.step.machine.steps = m.steps + 1 := by
  rcases m.step_cases with ⟨hh, -⟩ | ⟨-, -, he⟩ | ⟨i, -, he⟩ | ⟨-, -, -, he⟩
  · rw [h] at hh
    contradiction
  · rw [he]
    rfl
  · rw [he, answer_conclude] at ha
    rw [he, machine_conclude_of_ok _ ha, proceed, (frame_perform m i).steps]
  · rw [he] at ha
    contradiction

theorem steps_step_of_error {m : Machine σ ι ω} {fault : Fault} (h : m.step.answer = .error fault) :
    m.step.machine.steps = m.steps := by
  rcases m.step_cases with ⟨-, he⟩ | ⟨-, -, he⟩ | ⟨i, -, he⟩ | ⟨-, -, -, he⟩
  · rw [he]
    rfl
  · rw [he] at h
    contradiction
  · rw [he, answer_conclude] at h
    rw [he, machine_conclude_of_error _ h, (frame_perform m i).steps]
  · rw [he]
    rfl

end Machine

end Befunge
