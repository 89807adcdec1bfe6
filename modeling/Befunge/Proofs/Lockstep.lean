import Befunge.Proofs.Run

/-! Machines in lockstep. A relation between machines that every step preserves, with equal
answers and equal records, is preserved by every run. -/

namespace Befunge

variable {σ ι ω σ' ι' ω' α : Type}

/-- Replies that say the same and leave related machines. -/
structure Reply.Agree (R : Machine σ ι ω → Machine σ' ι' ω' → Prop)
    (r : Reply σ α ι ω) (r' : Reply σ' α ι' ω') : Prop where
  answer : r.answer = r'.answer
  records : r.records = r'.records
  machine : R r.machine r'.machine

namespace Machine

variable {R : Machine σ ι ω → Machine σ' ι' ω' → Prop}
  {m : Machine σ ι ω} {m' : Machine σ' ι' ω'}

theorem agree_conclude {r : Reply σ Unit ι ω} {r' : Reply σ' Unit ι' ω'} (begun : Record)
    (h : r.Agree R r') (hp : R r.machine r'.machine → R r.machine.proceed r'.machine.proceed) :
    (conclude begun r).Agree R (conclude begun r') := by
  obtain ⟨answer, left, records⟩ := r
  obtain ⟨answer', left', records'⟩ := r'
  obtain ⟨rfl, rfl, hm⟩ := h
  cases answer with
  | ok => exact ⟨rfl, rfl, hp hm⟩
  | error fault => exact ⟨rfl, rfl, hm⟩

section

/-! Instructions that may fail agree where they are given the same. -/

theorem agree_emit [OutputSink ω] {R : Machine σ ι ω → Machine σ' ι' ω → Prop}
    {m : Machine σ ι ω} {m' : Machine σ' ι' ω} (bytes : List UInt8) (ho : m'.output = m.output)
    (h : ∀ output, R { m with stack := m.stack.pop, output }
      { m' with stack := m'.stack.pop, output }) :
    (m.emit bytes).Agree R (m'.emit bytes) := by
  simp only [emit, ho]
  split <;> exact ⟨rfl, rfl, h _⟩

section

variable [InputSource ι] {R : Machine σ ι ω → Machine σ' ι ω' → Prop} {m : Machine σ ι ω}
  {m' : Machine σ' ι ω'}

theorem agree_readInteger (hi : m'.input = m.input)
    (h : ∀ input, R { m with input } { m' with input })
    (hp : ∀ input v, R ({ m with input }.push v) ({ m' with input }.push v)) :
    m.readInteger.Agree R m'.readInteger := by
  simp only [readInteger, hi]
  split
  · exact ⟨rfl, rfl, hp _ _⟩
  · exact ⟨rfl, rfl, hp _ _⟩
  · exact ⟨rfl, rfl, h _⟩

theorem agree_readCharacter (hi : m'.input = m.input)
    (h : ∀ input, R { m with input } { m' with input })
    (hp : ∀ input v, R ({ m with input }.push v) ({ m' with input }.push v)) :
    m.readCharacter.Agree R m'.readCharacter := by
  simp only [readCharacter, hi]
  split
  · exact ⟨rfl, rfl, hp _ _⟩
  · exact ⟨rfl, rfl, hp _ _⟩
  · exact ⟨rfl, rfl, h _⟩

end

theorem agree_getCell
    (hr : m'.field.read m'.stack.pop.top m'.stack.top = m.field.read m.stack.pop.top m.stack.top)
    (h : R (m.mapStack fun s => s.pop.pop) (m'.mapStack fun s => s.pop.pop))
    (hp : ∀ v, R ((m.mapStack fun s => s.pop.pop).push v)
      ((m'.mapStack fun s => s.pop.pop).push v)) :
    m.getCell.Agree R m'.getCell := by
  simp only [getCell, hr]
  split
  · exact ⟨rfl, rfl, hp _⟩
  · exact ⟨rfl, rfl, h⟩

theorem agree_putCell
    (hw : m'.field.write m'.stack.pop.top m'.stack.top m'.stack.pop.pop.top =
      m.field.write m.stack.pop.top m.stack.top m.stack.pop.pop.top)
    (h : R (m.mapStack fun s => s.pop.pop.pop) (m'.mapStack fun s => s.pop.pop.pop))
    (hf : ∀ field, R { m.mapStack fun s => s.pop.pop.pop with field }
      { m'.mapStack fun s => s.pop.pop.pop with field }) :
    m.putCell.Agree R m'.putCell := by
  simp only [putCell, hw]
  split
  · exact ⟨rfl, rfl, hf _⟩
  · exact ⟨rfl, rfl, h⟩

end

variable [DirectionSource σ] [InputSource ι] [OutputSink ω]
  [DirectionSource σ'] [InputSource ι'] [OutputSink ω']

/-- What two machines must have in common for their next steps to agree. -/
structure Alike (R : Machine σ ι ω → Machine σ' ι' ω' → Prop)
    (m : Machine σ ι ω) (m' : Machine σ' ι' ω') : Prop where
  halted : m.halted = m'.halted
  steps : m.steps = m'.steps
  cursor : m.cursor = m'.cursor
  quoting : m.quoting = m'.quoting
  fetch : m.halted = false → m.fetch = m'.fetch
  related : m.order = none → R m m'
  push : m.order = none → ∀ v, R (m.push v) (m'.push v)
  perform : ∀ i, m.order = some i → (m.perform i).Agree R (m'.perform i)
  proceed : ∀ {a b}, R a b → R a.proceed b.proceed

theorem Alike.step (h : Alike R m m') : m.step.Agree R m'.step := by
  cases hh : m.halted with
  | true =>
    rw [step_of_halted hh, step_of_halted (h.halted ▸ hh)]
    exact ⟨rfl, rfl, h.related (by simp [order, hh])⟩
  | false =>
    have hh' : m'.halted = false := h.halted ▸ hh
    have hf : m'.fetch = m.fetch := (h.fetch hh).symm
    have hb : m'.begun = m.begun := by rw [begun, begun, h.steps, h.cursor, hf]
    have hw : m'.swallows = m.swallows := by rw [swallows, swallows, h.quoting, hf]
    rcases m.step_cases with ⟨ht, -⟩ | ⟨-, hs, he⟩ | ⟨i, ho, he⟩ | ⟨-, hs, hd, he⟩
    · rw [hh] at ht
      contradiction
    · rw [he, step_of_swallows hh' (hw.trans hs), hb, hf]
      exact agree_conclude _ ⟨rfl, rfl, h.push (by simp [order, hs]) _⟩ h.proceed
    · have ho' : m'.order = some i := by rw [← ho, order, order, hw, h.halted, hf]
      rw [he, step_of_order ho', hb]
      exact agree_conclude _ (h.perform i ho) h.proceed
    · rw [he, step_of_lost hh' (hw.trans hs) (hf ▸ hd), hb]
      refine agree_conclude _ ⟨?_, rfl, h.related (by simp [order, hd])⟩ h.proceed
      simp only [lost, refuse, hf, h.cursor]

theorem agree_drive {limit : Nat} (hh : ∀ {a b}, R a b → a.halted = b.halted) (h : R m m')
    (hs : ∀ k < limit, (m.after k).step.Agree R (m'.after k).step) :
    (m.drive limit).Agree R (m'.drive limit) := by
  induction limit generalizing m m' with
  | zero => exact ⟨rfl, rfl, h⟩
  | succ limit ih =>
    cases hm : m.halted with
    | true =>
      rw [drive_of_halted hm, drive_of_halted (hh h ▸ hm)]
      exact ⟨rfl, rfl, h⟩
    | false =>
      have hm' : m'.halted = false := hh h ▸ hm
      -- the first call is `hs 0`, and the later ones start from what it leaves
      have h0 : m.step.Agree R m'.step := hs 0 (Nat.succ_pos limit)
      cases ha : m.step.answer with
      | ok =>
        have hd := ih h0.machine fun k hk => hs (k + 1) (Nat.succ_lt_succ hk)
        rw [drive_of_ok hm ha, drive_of_ok hm' (h0.answer ▸ ha)]
        refine ⟨?_, ?_, hd.machine⟩
        · rw [Reply.following, Reply.following, hd.answer]
        · rw [Reply.following, Reply.following, h0.records, hd.records]
      | error fault =>
        rw [drive_of_error hm ha, drive_of_error hm' (h0.answer ▸ ha)]
        exact ⟨rfl, h0.records, h0.machine⟩

theorem agree_runFor {limit : Nat} (hh : ∀ {a b}, R a b → a.halted = b.halted)
    (hc : ∀ {a b}, R a b → a.steps = b.steps) (h : R m m')
    (hs : ∀ k < limit, (m.after k).step.Agree R (m'.after k).step) :
    (m.runFor limit).Agree R (m'.runFor limit) := by
  have hd := agree_drive hh h hs
  rw [runFor_eq_drive, runFor_eq_drive]
  have he : (m.drive limit).closing = (m'.drive limit).closing := by
    rw [Reply.closing, Reply.closing, hd.answer, hh hd.machine, hc hd.machine]
  refine ⟨hd.answer, ?_, hd.machine⟩
  rw [hd.records, he]

/-- The first `k` calls on either machine agree, and so do the runs that they make up. -/
structure InStep (R : Machine σ ι ω → Machine σ' ι' ω' → Prop) (m : Machine σ ι ω)
    (m' : Machine σ' ι' ω') (k : Nat) : Prop where
  after : ∀ i ≤ k, R (m.after i) (m'.after i)
  calls : ∀ i < k, (m.after i).step.Agree R (m'.after i).step
  run : (m.runFor k).Agree R (m'.runFor k)

theorem inStep_of_step {k : Nat} (hh : ∀ {a b}, R a b → a.halted = b.halted)
    (hc : ∀ {a b}, R a b → a.steps = b.steps) (h : R m m')
    (hs : ∀ i < k, R (m.after i) (m'.after i) → (m.after i).step.Agree R (m'.after i).step) :
    InStep R m m' k := by
  have ha : ∀ i ≤ k, R (m.after i) (m'.after i) := by
    intro i hi
    induction i with
    | zero => exact h
    | succ i ih =>
      rw [after_succ, after_succ]
      exact (hs i hi (ih (Nat.le_of_lt hi))).machine
  have hcalls : ∀ i < k, (m.after i).step.Agree R (m'.after i).step :=
    fun i hi => hs i hi (ha i (Nat.le_of_lt hi))
  exact ⟨ha, hcalls, agree_runFor hh hc h hcalls⟩

theorem inStep_succ {k : Nat} (hh : ∀ {a b}, R a b → a.halted = b.halted)
    (hc : ∀ {a b}, R a b → a.steps = b.steps) (h : R m m') (hs : m.step.Agree R m'.step)
    (hk : InStep R m.step.machine m'.step.machine k) : InStep R m m' (k + 1) := by
  have hcalls : ∀ i < k + 1, (m.after i).step.Agree R (m'.after i).step := by
    intro i hi
    cases i with
    | zero => exact hs
    | succ i => exact hk.calls i (Nat.lt_of_succ_lt_succ hi)
  refine ⟨fun i hi => ?_, hcalls, agree_runFor hh hc h hcalls⟩
  cases i with
  | zero => exact h
  | succ i => exact hk.after i (Nat.le_of_succ_le_succ hi)

structure Lockstep (R : Machine σ ι ω → Machine σ' ι' ω' → Prop) : Prop where
  halted : ∀ {m m'}, R m m' → m.halted = m'.halted
  steps : ∀ {m m'}, R m m' → m.steps = m'.steps
  step : ∀ {m m'}, R m m' → m.step.Agree R m'.step

namespace Lockstep

theorem after (hR : Lockstep R) (h : R m m') (k : Nat) : R (m.after k) (m'.after k) := by
  induction k generalizing m m' with
  | zero => exact h
  | succ k ih => exact ih (hR.step h).machine

theorem runFor (hR : Lockstep R) (h : R m m') (limit : Nat) :
    (m.runFor limit).Agree R (m'.runFor limit) :=
  agree_runFor hR.halted hR.steps h fun k _ => hR.step (hR.after h k)

end Lockstep

end Machine

end Befunge
