import Befunge.Proofs.StraightLine
import Befunge.Proofs.Words

/-! Expressions and their code. The operands come before their operator, and the code leaves the
value of the expression on the stack, wherever and in whatever direction it lies. -/

namespace Befunge

/-- What an operator means for integers. Division rounds down, and is zero for a zero divisor. -/
def Operator.exact : Operator → Int → Int → Int
  | .add, lhs, rhs => lhs + rhs
  | .subtract, lhs, rhs => lhs - rhs
  | .multiply, lhs, rhs => lhs * rhs
  | .divide, lhs, rhs => if rhs = 0 then 0 else lhs.fdiv rhs
  | .modulo, lhs, rhs => if rhs = 0 then 0 else lhs.fmod rhs
  | .greater, lhs, rhs => if rhs < lhs then 1 else 0

theorem Operator.apply_eq_ofInt (op : Operator) (lhs rhs : Int64) :
    op.apply lhs rhs = Int64.ofInt (op.exact lhs.toInt rhs.toInt) := by
  cases op with
  | add => rw [apply, exact, Int64.ofInt_add, Int64.ofInt_toInt, Int64.ofInt_toInt]
  | subtract => rw [apply, exact, Int64.ofInt_sub, Int64.ofInt_toInt, Int64.ofInt_toInt]
  | multiply => rw [apply, exact, Int64.ofInt_mul, Int64.ofInt_toInt, Int64.ofInt_toInt]
  | divide =>
    rw [apply, exact, floorDiv_eq_ofInt]
    split
    next h => rw [h, Int.fdiv_zero]
    next => rfl
  | modulo =>
    rw [apply, exact]
    by_cases h : rhs = 0
    · subst h
      rfl
    · rw [floorMod_eq_ofInt h, if_neg fun hr => h ((eq_zero_iff rhs).mpr hr)]
  | greater =>
    simp only [apply, exact, ofCondition, gt_iff_lt, Int64.lt_iff_toInt_lt]
    split <;> rfl

inductive Expression where
  | digit (n : Fin 10)
  | not (e : Expression)
  | binary (op : Operator) (lhs rhs : Expression)
deriving DecidableEq, Repr

namespace Expression

def code : Expression → List Instruction
  | digit n => [.digit n]
  | not e => e.code ++ [.not]
  | binary op lhs rhs => lhs.code ++ rhs.code ++ [.operate op]

def text (e : Expression) : List UInt8 := e.code.map fun i => i.symbol.toUInt8

theorem text_not (e : Expression) :
    (not e).text = e.text ++ [Instruction.not.symbol.toUInt8] := List.map_append

theorem text_binary (op : Operator) (lhs rhs : Expression) :
    (binary op lhs rhs).text =
      lhs.text ++ (rhs.text ++ [(Instruction.operate op).symbol.toUInt8]) := by
  simp [text, code]

/-- The value of the expression, wrapped to a word wherever it has to be. -/
def value : Expression → Int64
  | digit n => .ofNat n
  | not e => if e.value = 0 then 1 else 0
  | binary op lhs rhs => .ofInt (op.exact lhs.value.toInt rhs.value.toInt)

end Expression

namespace Machine

variable {σ ι ω : Type} [DirectionSource σ] [InputSource ι] [OutputSink ω]

theorem passes_text {m : Machine σ ι ω} {e : Expression} (hh : m.halted = false)
    (hq : m.quoting = false) (ht : m.field.Lies m.cursor e.text) :
    m.Passes e.text.length (m.further e.text.length (m.stack.push e.value)) := by
  induction e generalizing m with
  | digit n =>
    have ho : m.order = some (.digit n) :=
      order_of_fetch hh hq (Playfield.lies_singleton.mp ht)
    exact passes_of_perform (f := (·.push (.ofNat n))) ho rfl
  | not e ih =>
    rw [Expression.text_not, Playfield.lies_append] at ht
    obtain ⟨he, hn⟩ := ht
    have ho : (m.further e.text.length (m.stack.push e.value)).order = some .not :=
      order_of_fetch hh hq (Playfield.lies_singleton.mp hn)
    have hs := (ih hh hq he).trans (passes_of_perform (f := Stack.negate) ho rfl)
    rw [further_further] at hs
    rw [Expression.text_not, List.length_append]
    exact hs
  | binary op lhs rhs ihl ihr =>
    rw [Expression.text_binary, Playfield.lies_append, Playfield.lies_append] at ht
    obtain ⟨hl, hr, hn⟩ := ht
    have h1 := ihl hh hq hl
    -- the right operand is met one value higher on the stack
    have h2 := ihr (m := m.further lhs.text.length (m.stack.push lhs.value)) hh hq hr
    rw [further_further] at h2
    have ho : (m.further (lhs.text.length + rhs.text.length)
        ((m.stack.push lhs.value).push rhs.value)).order = some (.operate op) := by
      rw [← Cursor.advanceBy_add] at hn
      exact order_of_fetch hh hq (Playfield.lies_singleton.mp hn)
    have hs := (h1.trans h2).trans (passes_of_perform (f := Stack.operate op) ho rfl)
    rw [further_further] at hs
    rw [Expression.text_binary, List.length_append, List.length_append, ← Nat.add_assoc]
    rw [Expression.value, ← Operator.apply_eq_ofInt]
    exact hs

/-- Wherever the code lies ahead, as many calls as it has bytes succeed and leave the value. -/
theorem expression_code_computes {m : Machine σ ι ω} {e : Expression} (hh : m.halted = false)
    (hq : m.quoting = false)
    (ht : ∀ i (h : i < e.text.length), m.field.get (m.cursor.advanceBy i).position = e.text[i]) :
    (∀ i < e.text.length, (m.after i).step.answer = .ok ()) ∧
      m.after e.text.length =
        { m with
          stack := m.stack.push e.value
          cursor := m.cursor.advanceBy e.text.length
          steps := m.steps + e.text.length } :=
  passes_text hh hq ht

/-- Has the code before it, to the left and over the edge. -/
def backward : Machine Script :=
  { start (.ofLines [("4-97".toList ++ List.replicate 73 ' ' ++ "%5/".toList).map Char.toUInt8])
      (.ofBytes []) .unlimited (.ofList []) with
    cursor := .placed 3 0 .left }

theorem expression_code_computes_backward : backward.halted = false ∧
    (backward.after 7).stack.toList = [4] ∧ (backward.after 7).cursor = .placed 76 0 .left := by
  -- the remainder by five of a quotient that is rounded down from below zero
  obtain ⟨e, he, hv⟩ : ∃ e : Expression,
      e.text = "79-4/5%".toList.map Char.toUInt8 ∧ e.value = 4 :=
    ⟨.binary .modulo (.binary .divide (.binary .subtract (.digit 7) (.digit 9)) (.digit 4))
      (.digit 5), by decide +kernel, by decide +kernel⟩
  have hn : e.text.length = 7 := by rw [he]; rfl
  have ht : backward.field.Lies backward.cursor e.text := by
    rw [he, Playfield.Lies]
    decide +kernel
  obtain ⟨-, hm⟩ := expression_code_computes rfl rfl ht
  rw [hn, hv] at hm
  rw [hm]
  decide +kernel

end Machine

end Befunge
