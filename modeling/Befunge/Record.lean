import Befunge.Text.Decimal
import Befunge.Text.Quoted
import Befunge.Torus

/-! The records that the machine leaves of its work, and their wording. -/

namespace Befunge

inductive Level where
  | trace
  | debug
  | warning
deriving DecidableEq, Repr

namespace Level

def severity : Level → Nat
  | .trace => 0
  | .debug => 1
  | .warning => 2

def name : Level → String
  | .trace => "TRACE"
  | .debug => "DEBUG"
  | .warning => "WARN"

end Level

def Direction.name : Direction → String
  | .right => "Right"
  | .left => "Left"
  | .up => "Up"
  | .down => "Down"

inductive Record where
  | fileRead (size : Nat) (path : String)
  | fieldLoaded (occupied : Nat)
  /-- A step is about to execute `code`, the cell under the cursor. -/
  | stepBegun (steps : Nat) (cursor : Cursor) (code : UInt8)
  | divisionByZero (lhs : Int64)
  | moduloByZero (lhs : Int64)
  | integerInputEnded
  | characterInputEnded
  | integerInputMalformed (text : List Char)
  | halted (steps : Nat)
deriving DecidableEq, Repr

namespace Record

open Text

def level : Record → Level
  | .stepBegun .. => .trace
  | _ => .debug

def speaker : Record → String
  | .fileRead .. | .fieldLoaded .. => "befunge93::grid"
  | _ => "befunge93::interpreter"

def message : Record → String
  | .fileRead size path =>
    "read " ++ Decimal.text size ++ " bytes from " ++ path
  | .fieldLoaded occupied =>
    "loaded program grid (" ++ Decimal.text occupied ++ " non-blank cells)"
  | .stepBegun steps cursor code =>
    "step " ++ Decimal.text steps ++
      " at " ++ Decimal.pair cursor.position.x.val cursor.position.y.val ++ " " ++
      cursor.heading.name ++ ": " ++ quotedChar (Char.ofUInt8 code)
  | .divisionByZero lhs =>
    "division by zero (" ++ Decimal.text lhs.toInt ++ " / 0), pushing 0"
  | .moduloByZero lhs =>
    "modulo by zero (" ++ Decimal.text lhs.toInt ++ " % 0), pushing 0"
  | .integerInputEnded => "end of input on '&', pushing 0"
  | .characterInputEnded => "end of input on '~', pushing -1"
  | .integerInputMalformed text =>
    "malformed integer input " ++ quotedText text ++ ", pushing 0"
  | .halted steps =>
    "halted after " ++ Decimal.text steps ++ " steps"

def reaches (threshold : Level) (r : Record) : Bool :=
  threshold.severity ≤ r.level.severity

theorem reaches_warning (r : Record) : r.reaches .warning = false := by
  cases r <;> rfl

def heading (r : Record) : String := r.level.name ++ " " ++ r.speaker

end Record

end Befunge
