import Befunge.Fault
import Befunge.Playfield.Source
import Befunge.Record

/-! Loading a playfield, with the records that this leaves. -/

namespace Befunge

/-- A value and the records made on the way to it. -/
structure Logged (α : Type) where
  value : α
  records : List Record

namespace Playfield

def loadLines (lines : List (List UInt8)) : Logged Playfield :=
  let field := ofLines lines
  ⟨field, [.fieldLoaded field.occupied]⟩

def loadSource (source : List UInt8) : Logged Playfield :=
  loadLines (Source.lines source)

/-- Loads what was found under a path: the contents of the file, or why there are none. -/
def loadFile (path : String) (contents : Except String (List UInt8)) :
    Logged (Except Fault Playfield) :=
  match contents with
  | .error cause => ⟨.error (.load path cause), []⟩
  | .ok source =>
    let loaded := loadSource source
    ⟨.ok loaded.value, .fileRead source.length path :: loaded.records⟩

@[simp] theorem value_loadLines (lines : List (List UInt8)) :
    (loadLines lines).value = ofLines lines := rfl

@[simp] theorem value_loadSource (source : List UInt8) :
    (loadSource source).value = parse source := rfl

end Playfield

end Befunge
