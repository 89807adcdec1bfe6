import Befunge.Directions.Source
import Befunge.Fault
import Befunge.Input
import Befunge.Output
import Befunge.Playfield.Basic
import Befunge.Record
import Befunge.Stack

/-! The state of a machine at work, and the answer that an operation on it gives. -/

namespace Befunge

/-- A machine takes directions from `σ`, reads from `ι` and writes to `ω`. -/
structure Machine (σ : Type) (ι : Type := Input) (ω : Type := Output) where
  field : Playfield
  stack : Stack
  cursor : Cursor
  /-- Whether cells are pushed instead of executed. -/
  quoting : Bool
  halted : Bool
  steps : Nat
  input : ι
  output : ω
  directions : σ

/-- What came of an operation: a value or a fault, the machine as it was left, and the records
made, the oldest first. -/
structure Reply (σ α : Type) (ι : Type := Input) (ω : Type := Output) where
  answer : Except Fault α
  machine : Machine σ ι ω
  records : List Record

namespace Machine

variable {σ ι ω : Type}

def start (field : Playfield) (input : ι) (output : ω) (directions : σ) : Machine σ ι ω where
  field
  stack := .empty
  cursor := .start
  quoting := false
  halted := false
  steps := 0
  input
  output
  directions

def fetch (m : Machine σ ι ω) : UInt8 := m.field.get m.cursor.position

def mapStack (f : Stack → Stack) (m : Machine σ ι ω) : Machine σ ι ω :=
  { m with stack := f m.stack }

def push (v : Int64) (m : Machine σ ι ω) : Machine σ ι ω := m.mapStack (·.push v)

def turn (d : Direction) (m : Machine σ ι ω) : Machine σ ι ω :=
  { m with cursor := m.cursor.turn d }

def advance (m : Machine σ ι ω) : Machine σ ι ω :=
  { m with cursor := m.cursor.advance }

def done (m : Machine σ ι ω) (records : List Record := []) : Reply σ Unit ι ω :=
  ⟨.ok (), m, records⟩

def refuse (m : Machine σ ι ω) (fault : Fault) : Reply σ Unit ι ω :=
  ⟨.error fault, m, []⟩

end Machine

end Befunge
