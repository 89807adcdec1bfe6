/-! Arithmetic on the values of the machine: 64-bit signed words, in which addition,
subtraction and multiplication wrap. Division rounds toward negative infinity, so the
remainder has the sign of the divisor. -/

namespace Befunge

/-- The quotient rounded down; zero when the divisor is zero. Truncated division differs from
it by one exactly when the signs differ and something is left over. -/
def floorDiv (lhs rhs : Int64) : Int64 :=
  if rhs = 0 then 0
  else if lhs % rhs ≠ 0 ∧ (lhs < 0 ↔ ¬ rhs < 0) then lhs / rhs - 1
  else lhs / rhs

/-- The remainder that goes with `floorDiv`; zero when the divisor is zero. -/
def floorMod (lhs rhs : Int64) : Int64 :=
  if rhs = 0 then 0
  else if lhs % rhs ≠ 0 ∧ (lhs % rhs < 0 ↔ ¬ rhs < 0) then lhs % rhs + rhs
  else lhs % rhs

def lowByte (v : Int64) : UInt8 := v.toUInt64.toUInt8

def ofByte (b : UInt8) : Int64 := b.toUInt64.toInt64

def ofCondition (p : Prop) [Decidable p] : Int64 := if p then 1 else 0

inductive Operator where
  | add
  | subtract
  | multiply
  | divide
  | modulo
  | greater
deriving DecidableEq, Repr

def Operator.apply : Operator → Int64 → Int64 → Int64
  | .add, lhs, rhs => lhs + rhs
  | .subtract, lhs, rhs => lhs - rhs
  | .multiply, lhs, rhs => lhs * rhs
  | .divide, lhs, rhs => floorDiv lhs rhs
  | .modulo, lhs, rhs => floorMod lhs rhs
  | .greater, lhs, rhs => ofCondition (lhs > rhs)

@[simp] theorem lowByte_ofByte (b : UInt8) : lowByte (ofByte b) = b := by
  simp [lowByte, ofByte]

@[simp] theorem floorDiv_zero (lhs : Int64) : floorDiv lhs 0 = 0 := by simp [floorDiv]

@[simp] theorem floorMod_zero (lhs : Int64) : floorMod lhs 0 = 0 := by simp [floorMod]

end Befunge
