import Befunge.Proofs.Quotation

/-! A loop that prints. It goes to the right over a branch that sends it back as long as the top of
the stack is not zero, and prints a value on its way back. In front of it a text between quotation
marks is the program that prints this text. -/

namespace Befunge

/-- The position `i` places to the right, round the torus. -/
def Position.along (p : Position) (i : Nat) : Position :=
  ((⟨p, .right⟩ : Cursor).advanceBy i).position

theorem Position.neighbour_right_along (p : Position) (i : Nat) :
    (p.along i).neighbour .right = p.along (i + 1) := by
  rw [along, along, Cursor.advanceBy_succ, Cursor.advance, Cursor.advanceBy_heading]

theorem Position.neighbour_left_along (p : Position) (i : Nat) :
    (p.along (i + 1)).neighbour .left = p.along i := by
  rw [← neighbour_right_along]
  exact neighbour_opposite (p.along i) .right

theorem Cursor.advanceBy_start (n : Nat) : start.advanceBy n = ⟨.wrapped n 0, .right⟩ := by
  induction n with
  | zero => rfl
  | succ n ih =>
    have hx : Fin.ofNat width n + 1 = Fin.ofNat width (n + 1) := by
      simp [Fin.ext_iff, Fin.val_add]
    rw [advanceBy_succ, ih]
    simp only [advance, Position.neighbour, Position.wrapped, hx]

/-- The values above the topmost zero, or all of them if there is none, the topmost first. -/
def Stack.untilZero (s : Stack) : List Int64 := s.values.takeWhile (· ≠ 0)

namespace Playfield

def printLoop : List UInt8 := ['>', ':', '#', ',', '_', '@'].map Char.toUInt8

/-- A program that prints the text, if it fits into a row. -/
def greeting (text : List UInt8) : List UInt8 :=
  [Instruction.quotationMark] ++ text.reverse ++ [Instruction.quotationMark] ++ printLoop

theorem length_greeting (text : List UInt8) : (greeting text).length = text.length + 8 := by
  simp [greeting, printLoop]

theorem lies_ofLines {row : List UInt8} (h : row.length ≤ width) (others : List (List UInt8)) :
    (ofLines (row :: others)).Lies .start row := by
  intro i hi
  have hx : i % width = i := Nat.mod_eq_of_lt (by omega)
  rw [Cursor.advanceBy_start, get_ofLines]
  simp [Position.wrapped, hx, hi]

end Playfield

namespace Machine

open Instruction Playfield

variable {σ ι ω : Type}

/-- The machine is to the left end of the loop. -/
structure AtLoop (m : Machine σ ι ω) : Prop where
  halted : m.halted = false
  quoting : m.quoting = false
  lies : m.field.Lies ⟨m.cursor.position, .right⟩ printLoop

/-- The machine `n` steps later, on cell `i` of a loop that begins where it is. -/
def onLoop (m : Machine σ ι ω) (i : Nat) (heading : Direction) (n : Nat) (stack : Stack)
    (output : ω) : Machine σ ι ω :=
  { m with cursor := ⟨m.cursor.position.along i, heading⟩, stack, steps := m.steps + n, output }

variable {m : Machine σ ι ω} {heading : Direction} {n : Nat} {stack : Stack} {output : ω}

theorem order_onLoop {i : Instruction} {j : Nat} (h : m.AtLoop)
    (hj : printLoop[j]? = some i.symbol.toUInt8) :
    (m.onLoop j heading n stack output).order = some i := by
  obtain ⟨hl, hi⟩ := List.getElem?_eq_some_iff.mp hj
  have hf : m.field.get (m.cursor.position.along j) = i.symbol.toUInt8 := (h.lies j hl).trans hi
  exact order_of_fetch h.halted h.quoting hf

variable [DirectionSource σ] [InputSource ι] [OutputSink ω]

section

variable {a : Machine σ ι ω} {i : Instruction} {j : Nat} {records : List Record}

theorem passes_to_right (ho : a.order = some i)
    (hp : a.perform i = (m.onLoop j .right n stack output).done records) :
    a.Passes 1 (m.onLoop (j + 1) .right (n + 1) stack output) := by
  have hm : (m.onLoop j .right n stack output).proceed =
      m.onLoop (j + 1) .right (n + 1) stack output := by
    simp [proceed, advance, Cursor.advance, onLoop, Position.neighbour_right_along, Nat.add_assoc]
  exact hm ▸ passes_of_done ho hp

theorem passes_to_left (ho : a.order = some i)
    (hp : a.perform i = (m.onLoop (j + 1) .left n stack output).done records) :
    a.Passes 1 (m.onLoop j .left (n + 1) stack output) := by
  have hm : (m.onLoop (j + 1) .left n stack output).proceed =
      m.onLoop j .left (n + 1) stack output := by
    simp [proceed, advance, Cursor.advance, onLoop, Position.neighbour_left_along, Nat.add_assoc]
  exact hm ▸ passes_of_done ho hp

end

/-- From the beginning of the loop to its branch, over the cell that prints. -/
theorem passes_approach (h : m.AtLoop) :
    (m.onLoop 0 heading n stack output).Passes 3
      (m.onLoop 4 .right (n + 3) stack.duplicate output) := by
  have h1 : (m.onLoop 0 heading n stack output).Passes 1
      (m.onLoop 1 .right (n + 1) stack output) :=
    passes_to_right (i := .turn .right) (order_onLoop h rfl) rfl
  have h2 : (m.onLoop 1 .right (n + 1) stack output).Passes 1
      (m.onLoop 2 .right (n + 2) stack.duplicate output) :=
    passes_to_right (i := .duplicate) (order_onLoop h rfl) rfl
  have hb : (m.onLoop 2 .right (n + 2) stack.duplicate output).perform .bridge =
      (m.onLoop 3 .right (n + 2) stack.duplicate output).done := by
    simp [perform, onLoop, advance, Cursor.advance, Position.neighbour_right_along]
  have h3 : (m.onLoop 2 .right (n + 2) stack.duplicate output).Passes 1
      (m.onLoop 4 .right (n + 3) stack.duplicate output) :=
    passes_to_right (order_onLoop h rfl) hb
  exact (h1.trans h2).trans h3

/-- A round in which a value is printed. On the way back the bridge leads over the cell that
copies. -/
theorem passes_print (h : m.AtLoop) (hv : stack.top ≠ 0)
    (ho : (OutputSink.deliver [lowByte stack.top] output).1 = .ok ()) :
    (m.onLoop 0 heading n stack output).Passes 6
      (m.onLoop 0 .left (n + 6) stack.pop
        (OutputSink.deliver [lowByte stack.top] output).2) := by
  generalize hs : (OutputSink.deliver [lowByte stack.top] output).2 = sent
  have hc : (m.onLoop 4 .right (n + 3) stack.duplicate output).perform (.branch .horizontal) =
      (m.onLoop 4 .left (n + 3) (stack.pop.push stack.top) output).done := by
    simp [perform, Axis.choose, onLoop, mapStack, turn, Stack.duplicate, hv, Cursor.turn]
  have h1 : (m.onLoop 4 .right (n + 3) stack.duplicate output).Passes 1
      (m.onLoop 3 .left (n + 4) (stack.pop.push stack.top) output) :=
    passes_to_left (order_onLoop h rfl) hc
  have hw : (m.onLoop 3 .left (n + 4) (stack.pop.push stack.top) output).perform
      .writeCharacter = (m.onLoop 3 .left (n + 4) stack.pop sent).done := by
    simp [perform, emit, onLoop, ho, hs]
  have h2 : (m.onLoop 3 .left (n + 4) (stack.pop.push stack.top) output).Passes 1
      (m.onLoop 2 .left (n + 5) stack.pop sent) := passes_to_left (order_onLoop h rfl) hw
  have hb : (m.onLoop 2 .left (n + 5) stack.pop sent).perform .bridge =
      (m.onLoop 1 .left (n + 5) stack.pop sent).done := by
    simp [perform, onLoop, advance, Cursor.advance, Position.neighbour_left_along]
  have h3 : (m.onLoop 2 .left (n + 5) stack.pop sent).Passes 1
      (m.onLoop 0 .left (n + 6) stack.pop sent) := passes_to_left (order_onLoop h rfl) hb
  exact (((passes_approach h).trans h1).trans h2).trans h3

theorem passes_leave (h : m.AtLoop) (hv : stack.top = 0) :
    (m.onLoop 0 heading n stack output).Passes 5
      { m.onLoop 6 .right (n + 5) (stack.pop.push 0) output with halted := true } := by
  have hc : (m.onLoop 4 .right (n + 3) stack.duplicate output).perform (.branch .horizontal) =
      (m.onLoop 4 .right (n + 3) (stack.pop.push 0) output).done := by
    simp [perform, Axis.choose, onLoop, mapStack, turn, Stack.duplicate, hv, Cursor.turn]
  have h1 : (m.onLoop 4 .right (n + 3) stack.duplicate output).Passes 1
      (m.onLoop 5 .right (n + 4) (stack.pop.push 0) output) :=
    passes_to_right (order_onLoop h rfl) hc
  have h2 : (m.onLoop 5 .right (n + 4) (stack.pop.push 0) output).Passes 1
      { m.onLoop 6 .right (n + 5) (stack.pop.push 0) output with halted := true } :=
    passes_of_done (i := .exit) (order_onLoop h rfl) rfl
  exact ((passes_approach h).trans h1).trans h2

/-- What is printed is what lies above the topmost zero, which stays; the loop leaves one of its own
if there is none. -/
theorem passes_loop (h : m.AtLoop) (values : List Int64) (heading : Direction) (n : Nat)
    (hw : OutputSink.NeverFails output) :
    ∃ sent, OutputSink.accepted sent =
        OutputSink.accepted output ++ (values.takeWhile (· ≠ 0)).map lowByte ∧
      (m.onLoop 0 heading n ⟨values⟩ output).Passes (6 * (values.takeWhile (· ≠ 0)).length + 5)
        { m.onLoop 6 .right (n + (6 * (values.takeWhile (· ≠ 0)).length + 5))
            ⟨if 0 ∈ values then values.dropWhile (· ≠ 0) else [0]⟩ sent with
          halted := true } := by
  induction values generalizing heading n output with
  | nil =>
    have hp : (m.onLoop 0 heading n ⟨[]⟩ output).Passes 5 _ := passes_leave h rfl
    exact ⟨output, (List.append_nil _).symm, hp⟩
  | cons v values ih =>
    by_cases hv : v = 0
    · subst hv
      have hp : (m.onLoop 0 heading n ⟨0 :: values⟩ output).Passes 5 _ := passes_leave h rfl
      exact ⟨output, by simp, by simpa [Stack.push, Stack.pop] using hp⟩
    · obtain ⟨ho, hn, ha⟩ := hw.deliver [lowByte v]
      obtain ⟨sent, hs, hp⟩ := ih .left (n + 6) hn
      have hr : (m.onLoop 0 heading n ⟨v :: values⟩ output).Passes 6
          (m.onLoop 0 .left (n + 6) ⟨values⟩ (OutputSink.deliver [lowByte v] output).2) :=
        passes_print h hv ho
      have h1 := hr.trans hp
      refine ⟨sent, by simp [hs, ha, hv], ?_⟩
      have hk : 6 + (6 * (values.takeWhile (· ≠ 0)).length + 5) =
          6 * ((v :: values).takeWhile (· ≠ 0)).length + 5 := by
        simp [hv]
        omega
      rw [Nat.add_assoc, hk] at h1
      have hd : (if 0 ∈ v :: values then (v :: values).dropWhile (· ≠ 0) else [0]) =
          if 0 ∈ values then values.dropWhile (· ≠ 0) else [0] := by
        simp [hv, Ne.symm hv]
      rw [hd]
      exact h1

theorem passes_of_atLoop (h : m.AtLoop) (hw : OutputSink.NeverFails m.output) :
    ∃ left, m.Passes (6 * m.stack.untilZero.length + 5) left ∧ left.halted = true ∧
      left.steps = m.steps + (6 * m.stack.untilZero.length + 5) ∧
      OutputSink.accepted left.output =
        OutputSink.accepted m.output ++ m.stack.untilZero.map lowByte ∧
      left.stack.values =
        (if 0 ∈ m.stack.values then m.stack.values.dropWhile (· ≠ 0) else [0]) ∧
      left.field = m.field ∧ left.input = m.input ∧ left.directions = m.directions := by
  obtain ⟨sent, ha, hp⟩ := passes_loop h m.stack.values m.cursor.heading 0 hw
  rw [Nat.zero_add] at hp
  exact ⟨_, hp, rfl, rfl, ha, rfl, rfl, rfl, rfl⟩

theorem untilZero_ofList_ofByte {bytes : List UInt8} (h : 0 ∉ bytes) :
    (Stack.mk (bytes.map ofByte)).untilZero = bytes.map ofByte := by
  refine List.takeWhile_eq_self_iff.mpr fun v hv => ?_
  obtain ⟨b, hb, rfl⟩ := List.mem_map.mp hv
  have hne : ofByte b ≠ 0 := by
    intro he
    have h0 : lowByte (ofByte b) = 0 := by rw [he]; rfl
    rw [lowByte_ofByte] at h0
    exact h (h0 ▸ hb)
  simpa using hne

/-- A greeting that is met with nothing on the stack prints its text. -/
theorem ends_greeting {text : List UInt8} (hh : m.halted = false) (hq : m.quoting = false)
    (hs : m.stack = .empty) (hr : m.cursor.heading = .right)
    (hl : m.field.Lies m.cursor (greeting text)) (ht : quotationMark ∉ text) (h0 : 0 ∉ text)
    (hw : OutputSink.NeverFails m.output) :
    ∃ left, m.Ends (7 * text.length + 7) (.ok ()) left ∧
      OutputSink.accepted left.output = OutputSink.accepted m.output ++ text := by
  have ht' : quotationMark ∉ text.reverse := by simpa using ht
  obtain ⟨hp, hl⟩ := passes_quotation hh hq ht' hl
  -- the text was pushed from its end, so it is printed from its beginning
  have hv : (Stack.ofList (text.reverse.map ofByte)).above m.stack = ⟨text.map ofByte⟩ := by
    simp [hs, Stack.ofList, Stack.above, Stack.empty]
  rw [List.length_reverse] at hp hl
  rw [hv] at hp
  have hc : (m.cursor.advanceBy (text.length + 2)).heading = .right := by
    rw [Cursor.advanceBy_heading, hr]
  have ha : (m.further (text.length + 2) ⟨text.map ofByte⟩).AtLoop := ⟨hh, hq, hc ▸ hl⟩
  obtain ⟨left, hp', hh', hn, ho, -⟩ := passes_of_atLoop ha hw
  have hu : (m.further (text.length + 2) ⟨text.map ofByte⟩).stack.untilZero =
      text.map ofByte := untilZero_ofList_ofByte h0
  rw [hu, List.length_map] at hp' hn
  rw [hu, List.map_map] at ho
  have hk : text.length + 2 + (6 * text.length + 5) = 7 * text.length + 7 := by omega
  have hi : lowByte ∘ ofByte = id := funext lowByte_ofByte
  rw [hi, List.map_id] at ho
  rw [further, Nat.add_assoc, hk] at hn
  exact ⟨left, (hk ▸ hp.trans hp').ends hh' hn, ho⟩

theorem print_loop_prints :
    (∀ {σ ι ω : Type} [DirectionSource σ] [InputSource ι] [OutputSink ω] {m : Machine σ ι ω},
      m.halted = false → m.quoting = false →
      m.field.Lies ⟨m.cursor.position, .right⟩ printLoop → OutputSink.NeverFails m.output →
      ∃ left, m.Ends (6 * m.stack.untilZero.length + 5) (.ok ()) left ∧
        OutputSink.accepted left.output =
          OutputSink.accepted m.output ++ m.stack.untilZero.map lowByte ∧
        left.stack.values =
          (if 0 ∈ m.stack.values then m.stack.values.dropWhile (· ≠ 0) else [0]) ∧
        left.field = m.field ∧ left.input = m.input ∧ left.directions = m.directions ∧
        ∀ fuel > 6 * m.stack.untilZero.length + 5, ∃ records,
          m.run? fuel = some ⟨.ok (), left, records⟩) ∧
    ∀ {σ ι ω : Type} [DirectionSource σ] [InputSource ι] [OutputSink ω] {text : List UInt8}
        {output : ω},
      text.length ≤ 72 → quotationMark ∉ text → 0 ∉ text → OutputSink.NeverFails output →
      ∀ (others : List (List UInt8)) (input : ι) (directions : σ),
        ∃ left, (start (.ofLines (greeting text :: others)) input output directions).Ends
            (7 * text.length + 7) (.ok ()) left ∧
          OutputSink.accepted left.output = OutputSink.accepted output ++ text ∧
          ∀ fuel > 7 * text.length + 7, ∃ records,
            (start (.ofLines (greeting text :: others)) input output directions).run? fuel =
              some ⟨.ok (), left, records⟩ := by
  constructor
  · intro σ ι ω _ _ _ m hh hq hl hw
    obtain ⟨left, hp, hh', hn, ha, hs, hf, hi, hd⟩ := passes_of_atLoop ⟨hh, hq, hl⟩ hw
    have he := hp.ends hh' hn
    exact ⟨left, he, ha, hs, hf, hi, hd, fun fuel hf => ⟨_, he.run?_eq hf⟩⟩
  · intro σ ι ω _ _ _ text output hlen hq h0 hw others input directions
    have hrow : (greeting text).length ≤ width := by
      rw [length_greeting]
      exact Nat.add_le_add_right hlen 8
    obtain ⟨left, he, ha⟩ := ends_greeting (m := start _ input output directions) rfl rfl rfl rfl
      (lies_ofLines hrow others) hq h0 hw
    exact ⟨left, he, ha, fun fuel hf => ⟨_, he.run?_eq hf⟩⟩

/-- Begins in front of the last edge, with a value under its zero and one over it that is not zero
but sends a byte that is. -/
def wrapping : Machine Script :=
  { start (.ofLines [(",_@".toList ++ List.replicate 74 ' ' ++ ">:#".toList).map Char.toUInt8])
      (.ofBytes []) .unlimited (.ofList []) with
    cursor := .placed 77 0 .up
    stack := .ofList [9, 0, 72, 256] }

def greeter : Machine Script :=
  start (.ofLines [greeting [255, 10]]) (.ofBytes []) .unlimited (.ofList [])

theorem print_loop_prints_wrapping :
    (∃ left, wrapping.Ends 17 (.ok ()) left ∧ left.output.written.toList = [0, 72] ∧
      left.stack.toList = [9, 0]) ∧
    ∃ left, greeter.Ends 21 (.ok ()) left ∧ left.output.written.toList = [255, 10] := by
  have hw : OutputSink.NeverFails Output.unlimited := Output.neverFails ⟨rfl, rfl⟩
  have hl : wrapping.field.Lies ⟨wrapping.cursor.position, .right⟩ printLoop := by
    rw [Lies]
    decide +kernel
  have hlen : ([255, 10] : List UInt8).length ≤ 72 := by decide
  obtain ⟨hp, hg⟩ := print_loop_prints
  obtain ⟨left, he, ho, hs, -⟩ := hp rfl rfl hl hw
  obtain ⟨left', he', ho', -⟩ := hg hlen (by decide) (by decide) hw [] (Input.ofBytes [])
    (Script.ofList [])
  refine ⟨⟨left, he, ho, ?_⟩, left', he', ho'⟩
  rw [Stack.toList, hs]
  decide

end Machine

end Befunge
