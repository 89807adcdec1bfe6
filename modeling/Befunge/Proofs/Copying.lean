import Befunge.Proofs.Reachable
import Befunge.Proofs.StraightLine
import Befunge.Proofs.Words

/-! A program that copies its input to its output. It goes round the torus once for each byte, and
turns back to its exit when the value that it has read is the one that stands for the end. -/

namespace Befunge

theorem ofByte_add_one_ne_zero (b : UInt8) : ofByte b + 1 ≠ 0 := by
  intro h
  have hb : ofByte b = -1 := by grind
  have hi := toInt_ofByte b
  rw [hb, show (-1 : Int64).toInt = -1 from rfl] at hi
  omega

namespace Playfield

def copierRow : List UInt8 := "~:1+!#@_,".toList.map Char.toUInt8

def copier : Playfield := ofLines [copierRow]

theorem get_copier (x : Fin width) : copier.get ⟨x, 0⟩ = copierRow.getD x space :=
  get_ofLines _ _

/-- The cells that follow the program as far as the edge. -/
theorem lies_copier : copier.Lies ⟨⟨9, 0⟩, .right⟩ (List.replicate 71 space) := by
  rw [Lies]
  decide +kernel

end Playfield

namespace Machine

open Playfield

variable {σ ι ω : Type}

/-- The copying machine on the cell in column `x`. -/
def copying (x : Fin width) (heading : Direction) (stack : Stack) (steps : Nat) (input : ι)
    (output : ω) (directions : σ) : Machine σ ι ω :=
  { start copier input output directions with
    stack, steps, cursor := ⟨{ Position.origin with x }, heading⟩ }

variable {x : Fin width} {heading : Direction} {stack : Stack} {n : Nat} {directions : σ}

theorem order_copying {input : ι} {output : ω} {i : Instruction}
    (h : copierRow.getD x space = i.symbol.toUInt8) :
    (copying x heading stack n input output directions).order = some i :=
  order_of_fetch rfl rfl ((get_copier x).trans h)

variable [DirectionSource σ] [InputSource ι] [OutputSink ω]

section

variable {input : ι} {output : ω}

theorem passes_comparison (v : Int64) :
    (copying 1 .right (stack.push v) n input output directions).Passes 5
      (copying 7 .right ((stack.push v).push (ofCondition (v + 1 = 0))) (n + 5) input output
        directions) := by
  have h1 : (copying 1 .right (stack.push v) n input output directions).Passes 1
      (copying 2 .right ((stack.push v).push v) (n + 1) input output directions) :=
    passes_of_perform (i := .duplicate) (f := Stack.duplicate) (order_copying rfl) rfl
  have h2 : (copying 2 .right ((stack.push v).push v) (n + 1) input output directions).Passes 1
      (copying 3 .right (((stack.push v).push v).push 1) (n + 2) input output directions) :=
    passes_of_perform (i := .digit 1) (f := (·.push 1)) (order_copying rfl) rfl
  have h3 : (copying 3 .right (((stack.push v).push v).push 1) (n + 2) input output
      directions).Passes 1
      (copying 4 .right ((stack.push v).push (v + 1)) (n + 3) input output directions) :=
    passes_of_perform (i := .operate .add) (f := (·.operate .add)) (order_copying rfl) rfl
  have h4 : (copying 4 .right ((stack.push v).push (v + 1)) (n + 3) input output
      directions).Passes 1
      (copying 5 .right ((stack.push v).push (ofCondition (v + 1 = 0))) (n + 4) input output
        directions) :=
    passes_of_perform (i := .not) (f := Stack.negate) (order_copying rfl) rfl
  -- the bridge leads over the exit
  have h5 : (copying 5 .right ((stack.push v).push (ofCondition (v + 1 = 0))) (n + 4) input output
      directions).Passes 1
      (copying 7 .right ((stack.push v).push (ofCondition (v + 1 = 0))) (n + 5) input output
        directions) :=
    passes_of_done (i := .bridge) (order_copying rfl) rfl
  exact (((h1.trans h2).trans h3).trans h4).trans h5

theorem passes_on {v : Int64} (hv : v + 1 ≠ 0) :
    (copying 1 .right (stack.push v) n input output directions).Passes 6
      (copying 8 .right (stack.push v) (n + 6) input output directions) := by
  have h : (copying 7 .right ((stack.push v).push 0) (n + 5) input output directions).Passes 1
      (copying 8 .right (stack.push v) (n + 6) input output directions) :=
    passes_of_done (i := .branch .horizontal) (order_copying rfl) rfl
  have hc : ofCondition (v + 1 = 0) = 0 := if_neg hv
  exact (passes_comparison v).trans (hc ▸ h)

theorem passes_back {v : Int64} (hv : v + 1 = 0) :
    (copying 1 .right (stack.push v) n input output directions).Passes 6
      (copying 6 .left (stack.push v) (n + 6) input output directions) := by
  have hx : (7 : Fin width) - 1 = 6 := by decide
  have h : (copying 7 .right ((stack.push v).push 1) (n + 5) input output directions).Passes 1
      (copying (7 - 1) .left (stack.push v) (n + 6) input output directions) :=
    passes_of_done (i := .branch .horizontal) (order_copying rfl) rfl
  have hc : ofCondition (v + 1 = 0) = 1 := if_pos hv
  rw [hx] at h
  exact (passes_comparison v).trans (hc ▸ h)

theorem passes_blank_cells :
    (copying 9 .right stack n input output directions).Passes 71
      (copying 0 .right stack (n + 71) input output directions) := by
  have hc : (⟨⟨9, 0⟩, .right⟩ : Cursor).advanceBy 71 = ⟨⟨0, 0⟩, .right⟩ := by decide
  have h : (copying 9 .right stack n input output directions).Passes 71
      { copying 9 .right stack (n + 71) input output directions with
        cursor := (⟨⟨9, 0⟩, .right⟩ : Cursor).advanceBy 71 } :=
    passes_blanks rfl rfl lies_copier
  rw [hc] at h
  exact h

theorem passes_round {b : UInt8} (hi : (InputSource.takeByte input).1 = .got b)
    (ho : (OutputSink.deliver [b] output).1 = .ok ()) :
    (copying 0 .right .empty n input output directions).Passes 79
      (copying 0 .right .empty (n + 79) (InputSource.takeByte input).2
        (OutputSink.deliver [b] output).2 directions) := by
  have hr : (copying 0 .right .empty n input output directions).perform .readCharacter =
      (copying 0 .right (Stack.empty.push (ofByte b)) n (InputSource.takeByte input).2 output
        directions).done := by
    simp only [perform, readCharacter, copying, start, hi]
    rfl
  have hw : (copying 8 .right (Stack.empty.push (ofByte b)) (n + 7) (InputSource.takeByte input).2
      output directions).perform .writeCharacter =
      (copying 8 .right .empty (n + 7) (InputSource.takeByte input).2
        (OutputSink.deliver [b] output).2 directions).done := by
    simp only [perform, emit, copying, start, Stack.top_push, lowByte_ofByte, ho]
    rfl
  have hb := (passes_of_done (order_copying rfl) hr).trans (passes_on (ofByte_add_one_ne_zero b))
  exact (hb.trans (passes_of_done (order_copying rfl) hw)).trans passes_blank_cells

theorem passes_exit (hi : (InputSource.takeByte input).1 = .ended) :
    (copying 0 .right .empty n input output directions).Passes 8
      { copying (6 - 1) .left (Stack.empty.push (-1)) (n + 8) (InputSource.takeByte input).2 output
          directions with
        halted := true } := by
  have hr : (copying 0 .right .empty n input output directions).perform .readCharacter =
      (copying 0 .right (Stack.empty.push (-1)) n (InputSource.takeByte input).2 output
        directions).done [.characterInputEnded] := by
    simp only [perform, readCharacter, copying, start, hi]
    rfl
  have he : (copying 6 .left (Stack.empty.push (-1)) (n + 7) (InputSource.takeByte input).2 output
      directions).Passes 1
      { copying (6 - 1) .left (Stack.empty.push (-1)) (n + 8) (InputSource.takeByte input).2 output
          directions with
        halted := true } :=
    passes_of_done (i := .exit) (order_copying rfl) rfl
  have hb : (-1 : Int64) + 1 = 0 := by decide
  exact ((passes_of_done (order_copying rfl) hr).trans (passes_back hb)).trans he

end

theorem passes_copying {bytes : List UInt8} {source rest : ι} {sink : ω}
    (hd : InputSource.Delivers rest bytes source) (hw : OutputSink.NeverFails sink) (n : Nat)
    (directions : σ) :
    ∃ output, OutputSink.accepted output = OutputSink.accepted sink ++ bytes ∧
      (copying 0 .right .empty n source sink directions).Passes (79 * bytes.length)
        (copying 0 .right .empty (n + 79 * bytes.length) rest output directions) := by
  induction bytes generalizing source sink n with
  | nil =>
    cases hd
    exact ⟨sink, (List.append_nil _).symm, nofun, rfl⟩
  | cons b bytes ih =>
    obtain ⟨hb, hr⟩ := hd.byte
    obtain ⟨ho, hn, ha⟩ := hw.deliver [b]
    obtain ⟨output, hs, hp⟩ := ih hr hn (n + 79)
    refine ⟨output, by rw [hs, ha, List.append_assoc]; rfl, ?_⟩
    have h := (passes_round hb ho).trans hp
    rw [Nat.add_assoc] at h
    rw [List.length_cons, Nat.mul_succ, Nat.add_comm _ 79]
    exact h

theorem copier_copies {bytes : List UInt8} {source rest : ι} {sink : ω}
    (hd : InputSource.Delivers rest bytes source) (he : (InputSource.takeByte rest).1 = .ended)
    (hw : OutputSink.NeverFails sink) (directions : σ) :
    ∃ left, (start copier source sink directions).Ends (79 * bytes.length + 8) (.ok ()) left ∧
      left.halted = true ∧ left.steps = 79 * bytes.length + 8 ∧
      OutputSink.accepted left.output = OutputSink.accepted sink ++ bytes ∧
      left.input = (InputSource.takeByte rest).2 ∧ left.stack.toList = [-1] ∧
      left.field = copier ∧ left.directions = directions ∧
      ∀ fuel > 79 * bytes.length + 8, ∃ records,
        (start copier source sink directions).run? fuel = some ⟨.ok (), left, records⟩ := by
  obtain ⟨output, ha, hp⟩ := passes_copying hd hw 0 directions
  rw [Nat.zero_add] at hp
  have h : (start copier source sink directions).Ends (79 * bytes.length + 8) (.ok ()) _ :=
    (hp.trans (passes_exit he)).ends rfl (Nat.zero_add _).symm
  exact ⟨_, h, rfl, rfl, ha, rfl, rfl, rfl, rfl, fun fuel hf => ⟨_, h.run?_eq hf⟩⟩

/-- Two bytes, of which one has all its bits set and the other none. -/
def copyingExtremes : Machine Script := start copier (.ofBytes [255, 0]) .unlimited (.ofList [])

theorem copier_copies_extremes :
    ∃ left, copyingExtremes.Ends 166 (.ok ()) left ∧ left.output.written.toList = [255, 0] ∧
      left.input.pending = [] ∧ left.stack.toList = [-1] := by
  have hd : InputSource.Delivers (Input.ofBytes []) [255, 0] (Input.ofBytes [255, 0]) :=
    Input.delivers [255, 0] [] none
  have hw : OutputSink.NeverFails Output.unlimited := Output.neverFails ⟨rfl, rfl⟩
  obtain ⟨left, h, -, -, ho, hi, hs, -⟩ := copier_copies hd rfl hw (Script.ofList [])
  exact ⟨left, h, ho, congrArg Input.pending hi, hs⟩

end Machine

end Befunge
