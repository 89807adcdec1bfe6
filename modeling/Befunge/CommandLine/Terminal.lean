import Befunge.CommandLine.Session

/-! A session at a terminal. The machine takes one turn after the other, so that input is asked for
only when it is needed, and output appears at once. -/

namespace Befunge.CommandLine

/-- What surrounds a session, with its effects in `μ`. -/
structure Terminal (μ : Type → Type) where
  contents : String → μ (Except String (List UInt8))
  /-- Receives the next piece of the input; it is empty when the input has ended. -/
  receive : μ (Except String (List UInt8))
  send : List UInt8 → μ (Except String Unit)
  complain : String → μ Unit

/-- Where a session stands: a machine is at work for a request, or it has exited with a status. -/
inductive Stage (σ : Type) where
  | working (r : Request) (m : Machine σ)
  | exited (status : Nat)

variable {μ : Type → Type} [Monad μ] {σ : Type}

namespace Terminal

/-- Sends bytes, if there are any. -/
def pass (t : Terminal μ) (bytes : List UInt8) : μ (Except String Unit) :=
  if bytes.isEmpty then return .ok () else t.send bytes

def finish (t : Terminal μ) (o : Outcome) : μ (Stage σ) := do
  let _ ← t.pass o.stdout
  t.complain o.stderr
  return .exited o.status

def conclude (t : Terminal μ) (m : Machine σ) (answer : Except Fault Unit) : μ (Stage σ) := do
  let (status, complaint) := Request.verdict (σ := σ) ⟨answer, m, []⟩
  t.complain complaint
  return .exited status

end Terminal

namespace Request

/-- Whether the machine makes no further step for the request. -/
def stops (r : Request) (m : Machine σ) : Bool := m.halted || r.stepLimit.any (· ≤ m.steps)

variable [DirectionSource σ]

/-- Lets the machine make a step, and passes on what it has written and recorded. -/
def advance (t : Terminal μ) (r : Request) (m : Machine σ) : μ (Stage σ) := do
  let reply := m.step
  match ← t.pass reply.machine.output.written.toList with
  | .error cause => t.conclude m (.error (.io cause))
  | .ok () =>
    t.complain (r.logText reply.records)
    match reply.answer with
    | .error fault => t.conclude m (.error fault)
    | .ok () => return .working r { reply.machine with output := .unlimited }

def turn (t : Terminal μ) (r : Request) (m : Machine σ) : μ (Stage σ) := do
  if r.stops m then
    t.complain (r.logText (if m.halted then [.halted m.steps] else []))
    t.conclude m (.ok ())
  else if m.awaitsInput then
    match ← t.receive with
    | .error cause => t.conclude m (.error (.io cause))
    | .ok [] => r.advance t m
    | .ok piece =>
      return .working r { m with input.pending := m.input.pending ++ piece }
  else r.advance t m

def begin (t : Terminal μ) (r : Request) (directions : σ) : μ (Stage σ) := do
  match r.program with
  | none => t.finish (printed usageLine)
  | some path =>
    let loaded := Playfield.loadFile path (← t.contents path)
    match r.settle loaded with
    | .error o => t.finish o
    | .ok field =>
      t.complain (r.logText loaded.records)
      return .working r (.start field (.ofBytes []) .unlimited directions)

end Request

namespace Terminal

def begin (t : Terminal μ) (otherSeed : UInt64) (arguments : List String) :
    μ (Stage (Drawn Xoshiro)) :=
  match Command.ofArguments arguments with
  | .error fault => t.finish fault.outcome
  | .ok .help => t.finish (printed helpText)
  | .ok (.run r) => r.begin t (r.directions otherSeed)

/-- Lets a session take so many turns; one that has exited takes none. -/
def attend [DirectionSource σ] (t : Terminal μ) : Nat → Stage σ → μ (Stage σ)
  | n + 1, .working r m => do attend t n (← r.turn t m)
  | _, stage => return stage

end Terminal

end Befunge.CommandLine
