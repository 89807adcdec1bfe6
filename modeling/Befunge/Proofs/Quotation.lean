import Befunge.Proofs.StackFrame
import Befunge.Proofs.StepLimit
import Mathlib.Algebra.Ring.Parity

/-! String mode. A machine that is quoting pushes every cell that it meets up to the next quotation
mark, whatever the cell holds, and nothing but a quotation mark makes it start or stop quoting. -/

namespace Befunge

namespace Cursor

/-- The position lies on the row or the column that the cursor travels along. -/
def OnCourse (c : Cursor) (p : Position) : Prop :=
  match c.heading with
  | .right | .left => p.y = c.position.y
  | .up | .down => p.x = c.position.x

theorem onCourse_neighbour {c : Cursor} {p : Position} (h : c.OnCourse p) :
    c.OnCourse (p.neighbour c.heading) := by
  obtain ⟨position, heading⟩ := c
  cases heading <;> exact h

theorem onCourse_advanceBy (c : Cursor) (n : Nat) : c.OnCourse (c.advanceBy n).position := by
  induction n with
  | zero =>
    obtain ⟨position, heading⟩ := c
    cases heading <;> rfl
  | succ n ih =>
    have h := onCourse_neighbour ih
    have hn : (c.advanceBy (n + 1)).position = (c.advanceBy n).position.neighbour c.heading := by
      rw [advanceBy_succ, advance, advanceBy_heading]
    rwa [hn]

end Cursor

theorem Stack.above_ofList_cons (v : Int64) (values : List Int64) (s : Stack) :
    (ofList (v :: values)).above s = (ofList values).above (s.push v) := by
  simp [ofList, above]

namespace Machine

open Instruction

variable {σ ι ω : Type}

/-- The bytes of the first `n` cells that the cursor meets by advancing. -/
def ahead (n : Nat) (m : Machine σ ι ω) : List UInt8 :=
  (List.range n).map fun i => m.field.get (m.cursor.advanceBy i).position

theorem lies_ahead (n : Nat) (m : Machine σ ι ω) : m.field.Lies m.cursor (m.ahead n) := by
  intro i hi
  simp [ahead]

theorem length_ahead (n : Nat) (m : Machine σ ι ω) : (m.ahead n).length = n := by
  simp [ahead]

theorem swallows_of_quoting {m : Machine σ ι ω} (hq : m.quoting = true)
    (hf : m.fetch ≠ quotationMark) : m.swallows = true := by
  simp [swallows, hq, hf]

theorem order_of_quotationMark {m : Machine σ ι ω} (hh : m.halted = false)
    (hf : m.fetch = quotationMark) : m.order = some .quote := by
  have hs : m.swallows = false := by simp [swallows, hf]
  exact order_eq_some_iff.mpr ⟨hh, hs, decode_eq_some_iff.mpr hf⟩

variable [DirectionSource σ] [InputSource ι] [OutputSink ω] {m : Machine σ ι ω}

theorem passes_of_swallows (hh : m.halted = false) (hs : m.swallows = true) :
    m.Passes 1 (m.further 1 (m.stack.push (ofByte m.fetch))) := by
  have he := step_of_swallows hh hs
  have ha : m.step.answer = .ok () := by rw [he]; rfl
  have hm : m.step.machine = m.further 1 (m.stack.push (ofByte m.fetch)) := by rw [he]; rfl
  rw [← hm]
  exact passes_step ha

/-- The cells between the quotation marks are data, and are met in the order of their bytes. -/
theorem passes_quoted {bytes : List UInt8} (hh : m.halted = false) (hq : m.quoting = true)
    (hl : m.field.Lies m.cursor bytes) (hb : quotationMark ∉ bytes) :
    m.Passes bytes.length
      (m.further bytes.length ((Stack.ofList (bytes.map ofByte)).above m.stack)) := by
  induction bytes generalizing m with
  | nil => exact ⟨fun i hi => absurd hi (Nat.not_lt_zero i), rfl⟩
  | cons b bytes ih =>
    rw [List.mem_cons, not_or] at hb
    rw [← List.singleton_append, Playfield.lies_append] at hl
    obtain ⟨hf, hl⟩ := hl
    have hf : m.fetch = b := Playfield.lies_singleton.mp hf
    have hs : m.swallows = true := swallows_of_quoting hq (by rw [hf]; exact Ne.symm hb.1)
    have hp := (passes_of_swallows hh hs).trans (ih hh hq hl hb.2)
    rw [further_further, Nat.add_comm, hf] at hp
    rw [List.map_cons, Stack.above_ofList_cons]
    exact hp

theorem passes_ahead {n : Nat} (hh : m.halted = false) (hq : m.quoting = true)
    (hn : ∀ i < n, m.field.get (m.cursor.advanceBy i).position ≠ quotationMark) :
    m.Passes n (m.further n ((Stack.ofList ((m.ahead n).map ofByte)).above m.stack)) := by
  have hb : quotationMark ∉ m.ahead n := by
    intro hm
    obtain ⟨i, hi, he⟩ := List.mem_map.mp hm
    exact hn i (List.mem_range.mp hi) he
  have h := passes_quoted hh hq (m.lies_ahead n) hb
  rwa [length_ahead] at h

theorem passes_quotationMark (hh : m.halted = false) (hf : m.fetch = quotationMark) :
    m.Passes 1 { m.further 1 m.stack with quoting := !m.quoting } :=
  passes_of_done (order_of_quotationMark hh hf) rfl

/-- A text and its quotation marks, with something else after them. -/
theorem passes_quotation {bytes later : List UInt8} (hh : m.halted = false)
    (hq : m.quoting = false) (hb : quotationMark ∉ bytes)
    (hl : m.field.Lies m.cursor ([quotationMark] ++ bytes ++ [quotationMark] ++ later)) :
    m.Passes (bytes.length + 2)
        (m.further (bytes.length + 2) ((Stack.ofList (bytes.map ofByte)).above m.stack)) ∧
      m.field.Lies (m.cursor.advanceBy (bytes.length + 2)) later := by
  simp only [Playfield.lies_append, Playfield.lies_singleton, List.length_append,
    List.length_singleton] at hl
  obtain ⟨⟨⟨hf, hl⟩, hf'⟩, hr⟩ := hl
  have hn : 1 + bytes.length + 1 = bytes.length + 2 := by omega
  have h1 := passes_quotationMark hh hf
  have h2 := passes_quoted (m := { m.further 1 m.stack with quoting := !m.quoting }) hh
    (by simp [hq]) hl hb
  have h3 := h1.trans h2
  rw [Cursor.advanceBy_add] at hf'
  have h4 := h3.trans (passes_quotationMark hh hf')
  rw [hn] at h4 hr
  refine ⟨?_, hr⟩
  simpa [further, hq, ← Cursor.advanceBy_add, Nat.add_assoc, hn] using h4

/-- Nothing on the row or the column ahead ends the quotation, however often it is gone round. -/
theorem passes_course (hh : m.halted = false) (hq : m.quoting = true)
    (hc : ∀ p, m.cursor.OnCourse p → m.field.get p ≠ quotationMark) (n : Nat) :
    m.Passes n (m.further n ((Stack.ofList ((m.ahead n).map ofByte)).above m.stack)) :=
  passes_ahead hh hq fun i _ => hc _ (m.cursor.onCourse_advanceBy i)

theorem run?_eq_none_of_passes (hp : ∀ n, ∃ left, m.Passes n left ∧ left.halted = false)
    (fuel : Nat) : m.run? fuel = none := by
  cases hr : m.run? fuel with
  | none => rfl
  | some reply =>
    obtain ⟨n, he⟩ := ends_of_run?_go hr
    obtain ⟨left, hl, hh⟩ := hp (n + 1)
    exact absurd (Seen.of_lt (Nat.lt_succ_self n)) (he.not_seen hl hh)

theorem quoting_step (m : Machine σ ι ω) :
    m.step.machine.quoting = (m.quoting ^^ decide (m.order = some .quote)) := by
  refine holds_of_step (P := fun a => a.quoting = _) (fun h => h) (fun ho => ?_) (fun ho _ => ?_)
    fun i ho => ?_
  · simp [ho]
  · simp [ho, push, mapStack]
  · by_cases hi : i = .quote
    · subst hi
      simp [ho, perform, done]
    · simp [(frame_perform m i).quoting hi, ho, hi]

theorem quoting_after (m : Machine σ ι ω) (k : Nat) :
    (m.after k).quoting = (m.quoting ^^ decide (Odd (m.executions .quote k))) := by
  induction k with
  | zero => simp [after, executions]
  | succ k ih =>
    rw [after_succ, quoting_step, executions_succ, ih]
    by_cases ho : (m.after k).order = some .quote
    · simp [ho, Nat.odd_add_one, -Nat.not_odd_iff_even]
    · simp [ho]

theorem string_mode_is_data (m : Machine σ ι ω) :
    (m.halted = false → m.quoting = true →
      (∀ n, (∀ i < n, m.field.get (m.cursor.advanceBy i).position ≠ quotationMark) →
        (∀ i < n, (m.after i).step.answer = .ok ()) ∧
        (m.after n).stack.toList = m.stack.toList ++ (m.ahead n).map ofByte ∧
        m.after n = { m with
          stack := (m.after n).stack
          cursor := m.cursor.advanceBy n
          steps := m.steps + n } ∧
        (m.cursor.advanceBy n).heading = m.cursor.heading) ∧
      ((∀ p, m.cursor.OnCourse p → m.field.get p ≠ quotationMark) →
        (∀ k, (m.after k).halted = false ∧ (m.after k).quoting = true ∧
          (m.after k).step.answer = .ok ()) ∧
        (∀ limit, (m.runFor limit).answer = .ok limit ∧
          (m.runFor limit).machine = m.after limit) ∧
        ∀ fuel, m.run? fuel = none)) ∧
    (∀ k, (m.after k).quoting = (m.quoting ^^ decide (Odd (m.executions .quote k)))) ∧
    (∀ limit, ∃ k, (m.runFor limit).machine = m.after k) ∧
    ∀ fuel reply, m.run? fuel = some reply → ∃ k, reply.machine = m.after k := by
  refine ⟨fun hh hq => ⟨fun n hn => ?_, fun hc => ?_⟩, quoting_after m, fun limit => ?_,
    fun fuel reply hr => ?_⟩
  · obtain ⟨ha, hm⟩ := passes_ahead hh hq hn
    rw [hm]
    refine ⟨ha, ?_, rfl, Cursor.advanceBy_heading n m.cursor⟩
    exact (Stack.toList_above _ _).trans (by rw [Stack.toList_ofList])
  · have hp := passes_course hh hq hc
    refine ⟨fun k => ?_, fun limit => ?_, run?_eq_none_of_passes fun n => ⟨_, hp n, hh⟩⟩
    · rw [(hp k).2]
      have ha := (hp (k + 1)).1 k (Nat.lt_succ_self k)
      rw [(hp k).2] at ha
      exact ⟨hh, hq, ha⟩
    · obtain ⟨hd, hm, -⟩ := (hp limit).drive_eq hh
      rw [runFor_eq_drive, hd, hm, (hp limit).2]
      exact ⟨rfl, rfl⟩
  · rw [runFor_eq_drive]
    exact exists_after_drive m limit
  · obtain ⟨n, he⟩ := ends_of_run?_go hr
    exact he.exists_after

/-- A column of exits between quotation marks. -/
def shaft : Playfield := .ofFn fun p => if p.x.val = 3 then '@'.toUInt8 else quotationMark

def rising : Machine Script :=
  { start shaft (.ofBytes []) .unlimited (.ofList []) with
    cursor := .placed 3 0 .up
    quoting := true }

theorem string_mode_is_data_rising :
    (rising.after 30).stack.toList = List.replicate 30 64 ∧
    (rising.after 30).cursor = .placed 3 20 .up ∧
    rising.run? 1000 = none ∧ ¬ Odd (rising.executions .quote 30) := by
  have hc : ∀ p, rising.cursor.OnCourse p → shaft.get p ≠ quotationMark := by
    intro p hp
    have hx : p.x.val = 3 := congrArg Fin.val hp
    rw [shaft, Playfield.get_ofFn, if_pos hx]
    decide
  obtain ⟨h, hk, -⟩ := string_mode_is_data rising
  obtain ⟨hn, hr⟩ := h rfl rfl
  obtain ⟨-, hs, hm, -⟩ := hn 30 fun i _ => hc _ (rising.cursor.onCourse_advanceBy i)
  obtain ⟨ha, -, hf⟩ := hr hc
  have hq := hk 30
  rw [(ha 30).2.1] at hq
  refine ⟨hs.trans (by decide +kernel), (congrArg cursor hm).trans (by decide), hf 1000,
    fun ho => ?_⟩
  rw [decide_eq_true ho] at hq
  exact absurd hq (by decide)

end Machine

end Befunge
