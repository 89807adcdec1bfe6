import Befunge.Instruction
import Befunge.Machine.Basic
import Befunge.Playfield.Address
import Befunge.Text.Utf8

/-! One step of the machine: fetch the cell under the cursor, execute it, move on. A step that
fails leaves the cursor where it was, but what it took from the stack stays taken. -/

namespace Befunge.Machine

open Text

variable {σ ι ω : Type}

/-- What applying the operator to the top of the stack is worth recording for. -/
def operandRecords (op : Operator) (s : Stack) : List Record :=
  match op with
  | .divide => if s.top = 0 then [.divisionByZero s.pop.top] else []
  | .modulo => if s.top = 0 then [.moduloByZero s.pop.top] else []
  | _ => []

/-- What writing an integer sends: its decimal numeral and a space. -/
def numeral (v : Int64) : List UInt8 :=
  (Decimal.ofInt v.toInt).map Char.toUInt8 ++ [Playfield.space]

def emit [OutputSink ω] (m : Machine σ ι ω) (bytes : List UInt8) : Reply σ Unit ι ω :=
  let sent := OutputSink.deliver bytes m.output
  let rest := { m with stack := m.stack.pop, output := sent.2 }
  match sent.1 with
  | .ok () => rest.done
  | .error cause => rest.refuse (.io cause)

/-- The value on a line of input, with a record when there is none. -/
def integerOnLine (line : List UInt8) : Int64 × List Record :=
  let text := Utf8.decode line
  match Decimal.leadingWord? text with
  | some v => (v, [])
  | none => (0, [.integerInputMalformed (trim text)])

def readInteger [InputSource ι] (m : Machine σ ι ω) : Reply σ Unit ι ω :=
  let taken := InputSource.takeLine m.input
  let rest := { m with input := taken.2 }
  match taken.1 with
  | .got line => (rest.push (integerOnLine line).1).done (integerOnLine line).2
  | .ended => (rest.push 0).done [.integerInputEnded]
  | .failed cause => rest.refuse (.io cause)

def readCharacter [InputSource ι] (m : Machine σ ι ω) : Reply σ Unit ι ω :=
  let taken := InputSource.takeByte m.input
  let rest := { m with input := taken.2 }
  match taken.1 with
  | .got b => (rest.push (ofByte b)).done
  | .ended => (rest.push (-1)).done [.characterInputEnded]
  | .failed cause => rest.refuse (.io cause)

/-- The row is on top of the column. -/
def getCell (m : Machine σ ι ω) : Reply σ Unit ι ω :=
  let rest := m.mapStack fun s => s.pop.pop
  match m.field.read m.stack.pop.top m.stack.top with
  | .ok b => (rest.push (ofByte b)).done
  | .error fault => rest.refuse fault

/-- The row is on top of the column, and the column on top of the value. -/
def putCell (m : Machine σ ι ω) : Reply σ Unit ι ω :=
  let rest := m.mapStack fun s => s.pop.pop.pop
  match m.field.write m.stack.pop.top m.stack.top m.stack.pop.pop.top with
  | .ok field => { rest with field }.done
  | .error fault => rest.refuse fault

def begun (m : Machine σ ι ω) : Record := .stepBegun m.steps m.cursor m.fetch

def proceed (m : Machine σ ι ω) : Machine σ ι ω :=
  { m.advance with steps := m.steps + 1 }

/-- Ends a step; only one that succeeded goes on to the next cell. -/
def conclude (begun : Record) (reply : Reply σ Unit ι ω) : Reply σ Unit ι ω :=
  match reply.answer with
  | .ok () => reply.machine.proceed.done (begun :: reply.records)
  | .error _ => { reply with records := begun :: reply.records }

section

variable [DirectionSource σ] [InputSource ι] [OutputSink ω]

def perform (i : Instruction) (m : Machine σ ι ω) : Reply σ Unit ι ω :=
  match i with
  | .blank => m.done
  | .exit => { m with halted := true }.done
  | .quote => { m with quoting := !m.quoting }.done
  | .bridge => m.advance.done
  | .digit n => (m.push (Int64.ofNat n)).done
  | .operate op => (m.mapStack (·.operate op)).done (operandRecords op m.stack)
  | .not => (m.mapStack (·.negate)).done
  | .swap => (m.mapStack (·.swap)).done
  | .duplicate => (m.mapStack (·.duplicate)).done
  | .discard => (m.mapStack (·.pop)).done
  | .turn d => (m.turn d).done
  | .wander =>
    let (d, directions) := DirectionSource.next m.directions
    ({ m with directions }.turn d).done
  | .branch axis => ((m.mapStack (·.pop)).turn (axis.choose m.stack.top)).done
  | .get => m.getCell
  | .put => m.putCell
  | .readInteger => m.readInteger
  | .readCharacter => m.readCharacter
  | .writeInteger => m.emit (numeral m.stack.top)
  | .writeCharacter => m.emit [lowByte m.stack.top]

/-- While quoting, only a quotation mark is an instruction. -/
def execute (code : UInt8) (m : Machine σ ι ω) : Reply σ Unit ι ω :=
  if m.quoting && code != Instruction.quotationMark then (m.push (ofByte code)).done
  else
    match Instruction.decode code with
    | some i => m.perform i
    | none => m.refuse (.unknownInstruction code m.cursor.position.x m.cursor.position.y)

def step (m : Machine σ ι ω) : Reply σ Unit ι ω :=
  if m.halted then m.done else conclude m.begun (m.execute m.fetch)

end

/-- Whether the next step would reach the end of the pending input. -/
def awaitsInput (m : Machine σ) : Bool :=
  !m.halted && !m.quoting &&
    match Instruction.decode m.fetch with
    | some .readInteger => !m.input.pending.contains Source.newline
    | some .readCharacter => m.input.pending.isEmpty
    | _ => false

end Befunge.Machine
