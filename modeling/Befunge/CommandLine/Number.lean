/-! Numbers given on the command line: decimal digits after at most one plus sign. -/

namespace Befunge.CommandLine

inductive NumberFault where
  | empty
  | invalidDigit
  | tooLarge
deriving DecidableEq, Repr

def NumberFault.message : NumberFault → String
  | .empty => "cannot parse integer from empty string"
  | .invalidDigit => "invalid digit found in string"
  | .tooLarge => "number too large to fit in target type"

/-- Continues a number with digits. The first character at fault decides: one that is no digit,
or a digit with which the number leaves its range. -/
def extendNumber (n : Nat) : List Char → Except NumberFault Nat
  | [] => .ok n
  | c :: rest =>
    if c.isDigit then
      let n := 10 * n + (c.toNat - '0'.toNat)
      if n < UInt64.size then extendNumber n rest else .error .tooLarge
    else .error .invalidDigit

def readNumber (text : List Char) : Except NumberFault Nat :=
  match text with
  | [] => .error .empty
  | ['+'] => .error .invalidDigit
  | '+' :: digits => extendNumber 0 digits
  | digits => extendNumber 0 digits

end Befunge.CommandLine
