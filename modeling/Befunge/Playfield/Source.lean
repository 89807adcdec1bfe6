import Befunge.Playfield.Basic

/-! Program text. A playfield is read from lines, one for each row, and listed as the shortest
lines that show it. -/

namespace Befunge

/-- The list up to the last element that fails `p`. -/
def withoutTrailing {α : Type} (p : α → Bool) (l : List α) : List α :=
  l.foldr (fun a rest => if rest.isEmpty && p a then [] else a :: rest) []

namespace Source

def newline : UInt8 := 0x0a

def carriageReturn : UInt8 := 0x0d

def prepend (b : UInt8) : List (List UInt8) → List (List UInt8)
  | [] => [[b]]
  | line :: lines => (b :: line) :: lines

/-- The pieces between the newlines, of which there is always one more than newlines. -/
def pieces (source : List UInt8) : List (List UInt8) :=
  source.foldr (fun b rest => if b = newline then [] :: rest else prepend b rest) [[]]

def dropReturn (line : List UInt8) : List UInt8 :=
  if line.getLast? = some carriageReturn then line.dropLast else line

def lines (source : List UInt8) : List (List UInt8) :=
  (pieces source).map dropReturn

def unlines (lines : List (List UInt8)) : List UInt8 :=
  lines.flatMap (· ++ [newline])

end Source

namespace Playfield

/-- Row `y` holds line `y`. Positions past the end of a line or past the last line hold spaces;
whatever does not fit is ignored. -/
def ofLines (lines : List (List UInt8)) : Playfield :=
  ofFn fun p => (lines.getD p.y []).getD p.x space

def parse (source : List UInt8) : Playfield :=
  ofLines (Source.lines source)

/-- What a listing shows of a byte: itself when it is printable, otherwise a dot. -/
def shown (b : UInt8) : UInt8 :=
  if 0x20 ≤ b ∧ b ≤ 0x7e then b else '.'.toUInt8

def mask (field : Playfield) : Playfield := field.map shown

/-- The rows without trailing spaces, up to the last row that is not blank. -/
def trimmedRows (field : Playfield) : List (List UInt8) :=
  withoutTrailing List.isEmpty
    (field.rows.toList.map fun row => withoutTrailing (· == space) row.toList)

def listing (field : Playfield) : List UInt8 :=
  Source.unlines field.mask.trimmedRows

@[simp] theorem get_ofLines (lines : List (List UInt8)) (p : Position) :
    (ofLines lines).get p = (lines.getD p.y []).getD p.x space :=
  get_ofFn _ p

@[simp] theorem get_mask (field : Playfield) (p : Position) :
    field.mask.get p = shown (field.get p) :=
  get_map shown field p

end Playfield

end Befunge
