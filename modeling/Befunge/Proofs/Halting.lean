import Befunge.Proofs.Effects
import Befunge.Proofs.Histories

/-! Halting. Only `@` halts a machine, and the cursor goes on past it; nothing that is asked of the
machine has an effect from then on. -/

namespace Befunge.Machine

variable {σ ι ω : Type}

/-- How a machine is left by the instruction that halts it. -/
structure Exited (m : Machine σ ι ω) : Prop where
  steps : 1 ≤ m.steps
  quoting : m.quoting = false
  behind : m.field.get (m.cursor.position.neighbour m.cursor.heading.opposite) = '@'.toUInt8

variable [DirectionSource σ] [InputSource ι] [OutputSink ω]

/-- Every call returns the machine itself, without a fault, and a run reports that it has halted. -/
structure Still (m : Machine σ ι ω) : Prop where
  step : m.step = ⟨.ok (), m, []⟩
  runFor : ∀ limit, m.runFor limit = ⟨.ok 0, m, [.halted m.steps]⟩
  run : ∀ fuel, m.run? (fuel + 1) = some ⟨.ok (), m, [.halted m.steps]⟩

/-- A call on the first machine leaves the second. -/
def Leaves (m left : Machine σ ι ω) : Prop :=
  ∃ events reply, m.Returns events reply ∧ reply.machine = left

variable {m left : Machine σ ι ω}

theorem still_of_halted (h : m.halted = true) : m.Still where
  step := step_of_halted h
  runFor limit := by rw [runFor_eq_drive, drive_of_halted h]; simp [Reply.closing, h]
  run fuel := by simp [run?, run?.go, h]

theorem Leaves.eq_of_halted (h : m.halted = true) (hl : m.Leaves left) : left = m := by
  obtain ⟨events, reply, hr, rfl⟩ := hl
  obtain ⟨k, hk⟩ := hr.exists_after
  rw [hk, after_of_halted h]

theorem exited_step (hh : m.halted = false) (h : m.step.machine.halted = true) :
    m.step.machine.Exited := by
  have he : m.Executes [Instruction.exit.symbol] := by
    refine executes_of_step_ne (f := (·.halted)) (fun _ => rfl) (fun _ => rfl)
      (fun i hi => (frame_perform m i).halted (ne_of_symbol_not_mem hi (by decide))) ?_
    rw [h, hh]
    decide
  have ho : m.order = some .exit := executes_singleton.mp he
  obtain ⟨hq, hf⟩ := fetch_of_order ho (by decide)
  rw [step_of_order ho]
  refine ⟨Nat.le_add_left 1 m.steps, hq, ?_⟩
  -- the cursor has gone on in the direction that it had on the exit
  have hb : (m.cursor.advance.position.neighbour m.cursor.advance.heading.opposite) =
      m.cursor.position := Position.neighbour_opposite _ _
  exact (congrArg m.field.get hb).trans hf

theorem exited_of_history {field : Playfield} {input : ι} {output : ω} {directions : σ}
    {events : List (Event σ ι ω)} {records : List Record}
    (h : (start field input output directions).History events records m)
    (hh : m.halted = true) : m.Exited := by
  refine h.invariant (P := fun a => a.halted = true → a.Exited) (fun a ha hs => ?_)
    (fun a stack ha hs => ?_) nofun hh
  · cases hb : a.halted with
    | true =>
      rw [step_of_halted hb]
      exact ha hb
    | false => exact exited_step hb hs
  · obtain ⟨hn, hq, hb⟩ := ha hs
    exact ⟨hn, hq, hb⟩

theorem halting_is_by_exit {field : Playfield} {input : ι} {output : ω} {directions : σ}
    {events : List (Event σ ι ω)} {records : List Record}
    (h : (start field input output directions).History events records m) :
    (m.halted = true → m.Exited ∧
      ∀ left, Relation.ReflTransGen Leaves m left → left = m ∧ left.Still) ∧
    m.steps = (attempted events).countP (·.step.answer.isOk) := by
  refine ⟨fun hh => ⟨exited_of_history h hh, fun left hl => ?_⟩, ?_⟩
  · have he : left = m := by
      induction hl with
      | refl => rfl
      | tail _ hl ih => exact Leaves.eq_of_halted (ih ▸ hh) (ih ▸ hl)
    exact ⟨he, still_of_halted (he ▸ hh)⟩
  · rw [h.steps_eq]
    exact Nat.zero_add _

/-- Meets its exit on the way up through the first row, so that the cursor goes on in the last. -/
def climbing : Machine Script :=
  .start (.ofLines (["gv@", " >^"].map (·.toList.map Char.toUInt8))) (.ofBytes []) .unlimited
    (.ofList [])

/-- The first step fails and is attempted again before the machine is run. -/
def climbed : Machine Script :=
  ((climbing.mapStack fun _ => .ofList [-1, -1]).step.machine.runFor 9).void.machine

theorem halting_is_by_exit_climbing :
    climbed.halted = true ∧ climbed.cursor = ⟨⟨2, 24⟩, .up⟩ ∧
    climbed.field.get ⟨2, 0⟩ = '@'.toUInt8 ∧ climbed.quoting = false ∧ climbed.Still ∧
    climbed.steps = 5 ∧ ∃ events records, climbing.History events records climbed ∧
      (attempted events).length = 6 ∧ (attempted events).countP (·.step.answer.isOk) = 5 := by
  have hh : climbed.halted = true := by decide +kernel
  have hc : climbed.cursor = ⟨⟨2, 24⟩, .up⟩ := by decide +kernel
  have hf := (History.start (m := climbing)).restack (.ofList [-1, -1]) |>.call .step
  have h : climbing.History _ _ climbed := hf.call (.runFor 9)
  obtain ⟨he, hs⟩ := halting_is_by_exit h
  obtain ⟨⟨-, hq, hb⟩, hl⟩ := he hh
  rw [hc] at hb
  have hn : climbed.steps = 5 := by decide +kernel
  refine ⟨hh, hc, hb, hq, (hl climbed .refl).2, hn, _, _, h, ?_, hs.symm.trans hn⟩
  decide +kernel

end Befunge.Machine
