import Befunge.Instruction
import Befunge.Playfield.Source
import Befunge.Record
import Befunge.Stack

/-! Descriptions of the parts of a machine, for inspection: the name of a kind of value and its
fields between braces. -/

namespace Befunge

open Text

/-- A name, and fields in braces on the same line. -/
def described (name : String) (fields : List (String × String)) : String :=
  name ++ " \x7b " ++ ", ".intercalate (fields.map fun (key, v) => key ++ ": " ++ v) ++ " \x7d"

/-- A name, and fields in braces, each on a line of its own. -/
def describedOnLines (name : String) (fields : List (String × String)) : String :=
  let lines := fields.map fun (key, v) => "    " ++ key ++ ": " ++ v ++ ",\n"
  name ++ " \x7b\n" ++ String.join lines ++ "\x7d"

def Stack.describe (s : Stack) : String :=
  let values := s.toList.map fun v => Decimal.text v.toInt
  described "DataStack" [("values", "[" ++ ", ".intercalate values ++ "]")]

def Cursor.describe (c : Cursor) : String :=
  described "ProgramCounter"
    [("x", Decimal.text c.position.x.val), ("y", Decimal.text c.position.y.val),
     ("direction", c.heading.name)]

namespace Playfield

def listingText (field : Playfield) : List Char := field.listing.map Char.ofUInt8

def describe (field : Playfield) : String :=
  described "Grid" [("rows", quotedText field.listingText)]

def describeOnLines (field : Playfield) : String :=
  describedOnLines "Grid" [("rows", quotedText field.listingText)]

end Playfield

def Instruction.name : Instruction → String
  | .blank => "Blank"
  | .exit => "Exit"
  | .quote => "StringMode"
  | .bridge => "Bridge"
  | .digit n => "Digit(" ++ Decimal.text n.val ++ ")"
  | .operate .add => "Add"
  | .operate .subtract => "Subtract"
  | .operate .multiply => "Multiply"
  | .operate .divide => "Divide"
  | .operate .modulo => "Modulo"
  | .operate .greater => "Greater"
  | .not => "Not"
  | .swap => "Swap"
  | .duplicate => "Dup"
  | .discard => "Pop"
  | .turn d => d.name
  | .wander => "Random"
  | .branch .horizontal => "HorizontalIf"
  | .branch .vertical => "VerticalIf"
  | .get => "Get"
  | .put => "Put"
  | .readInteger => "InputInt"
  | .readCharacter => "InputChar"
  | .writeInteger => "OutputInt"
  | .writeCharacter => "OutputAscii"

end Befunge
