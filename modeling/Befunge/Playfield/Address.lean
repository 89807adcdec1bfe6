import Befunge.Fault
import Befunge.Playfield.Basic

/-! Access to the playing surface by coordinates taken from the stack. Coordinates are signed
and never wrapped. -/

namespace Befunge

def Position.ofCoordinates? (x y : Int64) : Option Position :=
  if h : (0 ≤ x.toInt ∧ x.toInt < width) ∧ (0 ≤ y.toInt ∧ y.toInt < height) then
    some ⟨⟨x.toInt.toNat, by omega⟩, ⟨y.toInt.toNat, by omega⟩⟩
  else none

namespace Playfield

def read (field : Playfield) (x y : Int64) : Except Fault UInt8 :=
  match Position.ofCoordinates? x y with
  | some p => .ok (field.get p)
  | none => .error (.outOfBounds x y)

/-- Only the low eight bits of the value are stored. -/
def write (field : Playfield) (x y v : Int64) : Except Fault Playfield :=
  match Position.ofCoordinates? x y with
  | some p => .ok (field.set p (lowByte v))
  | none => .error (.outOfBounds x y)

end Playfield

end Befunge
