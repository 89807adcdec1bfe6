import Befunge.Text.Decimal
import Befunge.Text.Quoted

/-! What can go wrong, and how it is reported. -/

namespace Befunge

inductive Fault where
  | unknownInstruction (code : UInt8) (x y : Nat)
  | outOfBounds (x y : Int64)
  | io (cause : String)
  | load (path cause : String)
deriving DecidableEq, Repr

namespace Fault

open Text

def message : Fault → String
  | .unknownInstruction code x y =>
    "unknown instruction " ++ quotedChar (Char.ofUInt8 code) ++
      " (code " ++ Decimal.text code.toNat ++ ") at " ++ Decimal.pair x y
  | .outOfBounds x y => "grid access out of bounds at " ++ Decimal.pair x.toInt y.toInt
  | .io cause => "i/o error: " ++ cause
  | .load path cause => "failed to read program " ++ path ++ ": " ++ cause

/-- What the system said of a failed reading, writing or loading. -/
def cause? : Fault → Option String
  | .io cause => some cause
  | .load _ cause => some cause
  | _ => none

theorem cause?_eq_some_iff {fault : Fault} {cause : String} :
    fault.cause? = some cause ↔ fault = .io cause ∨ ∃ path, fault = .load path cause := by
  cases fault <;> simp [cause?]

/-- A fault that has a cause ends its message with it. -/
theorem message_of_cause? {fault : Fault} {cause : String} (h : fault.cause? = some cause) :
    ∃ opening, fault.message = opening ++ cause := by
  rcases cause?_eq_some_iff.mp h with rfl | ⟨path, rfl⟩
  · exact ⟨_, rfl⟩
  · exact ⟨_, rfl⟩

end Fault

end Befunge
