import Befunge.Proofs.Run

/-! Code that lies in a straight line. The cells that the cursor meets by advancing are executed one
after the other, and stretches of code that succeed can be put in a row. -/

namespace Befunge

namespace Playfield

/-- The cells that the cursor meets hold the bytes, the first one under the cursor. -/
def Lies (field : Playfield) (c : Cursor) (bytes : List UInt8) : Prop :=
  ∀ i (h : i < bytes.length), field.get (c.advanceBy i).position = bytes[i]

variable {field : Playfield} {c : Cursor} {b : UInt8} {bytes later : List UInt8}

theorem lies_singleton : field.Lies c [b] ↔ field.get c.position = b := by
  refine ⟨fun h => h 0 Nat.one_pos, fun h i hi => ?_⟩
  obtain rfl : i = 0 := Nat.lt_one_iff.mp hi
  exact h

theorem lies_append : field.Lies c (bytes ++ later) ↔
    field.Lies c bytes ∧ field.Lies (c.advanceBy bytes.length) later := by
  constructor
  · refine fun h => ⟨fun i hi => ?_, fun i hi => ?_⟩
    · rw [h i (by rw [List.length_append]; omega), List.getElem_append_left hi]
    · have hl := h (bytes.length + i) (by rw [List.length_append]; omega)
      rw [Cursor.advanceBy_add, List.getElem_append_right (Nat.le_add_right _ i)] at hl
      simpa using hl
  · rintro ⟨hb, hl⟩ i hi
    rw [List.length_append] at hi
    by_cases h : i < bytes.length
    · rw [hb i h, List.getElem_append_left h]
    · obtain ⟨j, rfl⟩ := Nat.exists_eq_add_of_le (Nat.le_of_not_lt h)
      rw [Cursor.advanceBy_add, hl j (by omega), List.getElem_append_right (Nat.le_add_right _ j)]
      simp

end Playfield

namespace Machine

variable {σ ι ω : Type}

/-- The machine `n` cells and `n` steps further on, with another stack. -/
def further (n : Nat) (stack : Stack) (m : Machine σ ι ω) : Machine σ ι ω :=
  { m with stack, cursor := m.cursor.advanceBy n, steps := m.steps + n }

theorem further_further (a b : Nat) (s t : Stack) (m : Machine σ ι ω) :
    (m.further a s).further b t = m.further (a + b) t := by
  simp only [further, Cursor.advanceBy_add, Nat.add_assoc]

variable [DirectionSource σ] [InputSource ι] [OutputSink ω]

/-- The first `n` calls succeed, and leave the second machine. -/
def Passes (m : Machine σ ι ω) (n : Nat) (left : Machine σ ι ω) : Prop :=
  (∀ i < n, (m.after i).step.answer = .ok ()) ∧ m.after n = left

theorem after_add (a b : Nat) (m : Machine σ ι ω) : m.after (a + b) = (m.after a).after b := by
  induction b with
  | zero => rfl
  | succ b ih => rw [← Nat.add_assoc, after_succ, ih, after_succ]

variable {m next left : Machine σ ι ω}

theorem passes_step (ha : m.step.answer = .ok ()) : m.Passes 1 m.step.machine := by
  refine ⟨fun i hi => ?_, rfl⟩
  obtain rfl : i = 0 := Nat.lt_one_iff.mp hi
  exact ha

theorem Passes.trans {a b : Nat} (h : m.Passes a next) (h' : next.Passes b left) :
    m.Passes (a + b) left := by
  obtain ⟨ha, rfl⟩ := h
  obtain ⟨hb, rfl⟩ := h'
  refine ⟨fun i hi => ?_, after_add a b m⟩
  by_cases h : i < a
  · exact ha i h
  · obtain ⟨j, rfl⟩ := Nat.exists_eq_add_of_le (Nat.le_of_not_lt h)
    rw [after_add]
    exact hb j (by omega)

theorem passes_of_done {i : Instruction} {records : List Record} (ho : m.order = some i)
    (hp : m.perform i = next.done records) : m.Passes 1 next.proceed := by
  have hs : m.step = conclude m.begun (next.done records) := by
    rw [step_of_order ho, hp]
  have ha : m.step.answer = .ok () := by rw [hs]; rfl
  have hm : m.step.machine = next.proceed := by rw [hs]; rfl
  exact hm ▸ passes_step ha

/-- An instruction that concerns nothing but the stack. -/
theorem passes_of_perform {i : Instruction} {f : Stack → Stack} {records : List Record}
    (ho : m.order = some i) (hp : m.perform i = (m.mapStack f).done records) :
    m.Passes 1 (m.further 1 (f m.stack)) :=
  passes_of_done ho hp

theorem passes_blanks {n : Nat} (hh : m.halted = false) (hq : m.quoting = false)
    (hl : m.field.Lies m.cursor (List.replicate n Playfield.space)) :
    m.Passes n (m.further n m.stack) := by
  induction n generalizing m with
  | zero => exact ⟨fun i hi => absurd hi (Nat.not_lt_zero i), rfl⟩
  | succ n ih =>
    rw [List.replicate_succ, ← List.singleton_append, Playfield.lies_append] at hl
    obtain ⟨hb, hl⟩ := hl
    have ho : m.order = some .blank := order_of_fetch hh hq (Playfield.lies_singleton.mp hb)
    have hs := (passes_of_perform (f := id) ho rfl).trans (ih hh hq hl)
    rw [further_further, Nat.add_comm] at hs
    exact hs

/-- As many calls as steps have been counted were made before it had halted. -/
theorem Passes.ends {n : Nat} (h : m.Passes n left) (hh : left.halted = true)
    (hs : left.steps = m.steps + n) : m.Ends n (.ok ()) left := by
  induction n generalizing m with
  | zero =>
    obtain ⟨-, rfl⟩ := h
    exact .halted hh
  | succ n ih =>
    obtain ⟨ha, hm⟩ := h
    cases hc : m.halted with
    | true =>
      rw [← hm, after_of_halted hc] at hs
      omega
    | false =>
      have h0 : m.step.answer = .ok () := ha 0 (Nat.succ_pos n)
      have hn := steps_step_of_ok hc h0
      exact .step hc h0
        (ih ⟨fun i hi => ha (i + 1) (Nat.succ_lt_succ hi), hm⟩ (by omega))

end Machine

end Befunge
