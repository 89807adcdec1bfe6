import Befunge.CommandLine.Help
import Befunge.CommandLine.Options
import Befunge.Directions.Xoshiro
import Befunge.Machine.Run
import Befunge.Playfield.Loading

/-! A session at the command line: from a request to what is printed and the exit status. -/

namespace Befunge.CommandLine

structure Outcome where
  status : Nat
  stdout : List UInt8
  stderr : String
deriving DecidableEq, Repr

def printed (text : String) : Outcome := ⟨0, text.toUTF8.toList, ""⟩

def OptionFault.outcome (fault : OptionFault) : Outcome := ⟨2, [], fault.message ++ "\n"⟩

namespace Request

/-- The least level that is shown; no variable of the environment sets another one. -/
def threshold (r : Request) : Level := if r.verbose then .debug else .warning

/-- The lines carry no time. -/
def logText (r : Request) (records : List Record) : String :=
  String.join <| (records.filter (·.reaches r.threshold)).map fun record =>
    "[" ++ record.heading ++ "] " ++ record.message ++ "\n"

theorem logText_append (r : Request) (earlier later : List Record) :
    r.logText (earlier ++ later) = r.logText earlier ++ r.logText later := by
  simp [logText]

theorem logText_eq_empty {r : Request} {records : List Record}
    (h : ∀ record ∈ records, record.reaches r.threshold = false) : r.logText records = "" := by
  rw [logText, List.filter_eq_nil_iff.mpr fun record hr => Bool.eq_false_iff.mp (h record hr)]
  rfl

/-- Nothing is recorded that would be shown unasked. -/
theorem logText_of_quiet {r : Request} (h : r.verbose = false) (records : List Record) :
    r.logText records = "" := by
  refine logText_eq_empty fun record _ => ?_
  rw [threshold, h]
  exact record.reaches_warning

/-- Exit status and complaint for the machine that a run has left. -/
def verdict {σ α : Type} (reply : Reply σ α) : Nat × String :=
  match reply.answer with
  | .error fault => (1, "\nerror: " ++ fault.message ++ "\n")
  | .ok _ =>
    if reply.machine.halted then (0, "")
    else
      (2, "\nstep limit of " ++ Text.Decimal.text reply.machine.steps ++
        " reached without halting\n")

def outcome {σ α : Type} (r : Request) (earlier : List Record) (reply : Reply σ α) : Outcome :=
  let (status, complaint) := verdict reply
  { status
    stdout := reply.machine.output.written.toList
    stderr := r.logText (earlier ++ reply.records) ++ complaint }

/-- Runs the machine as far as the request lets it; `none` when it may run for ever and the fuel
is used up. -/
def execute {σ : Type} [DirectionSource σ] (r : Request) (fuel : Nat) (earlier : List Record)
    (m : Machine σ) : Option Outcome :=
  match r.stepLimit with
  | some limit => some (r.outcome earlier (m.runFor limit))
  | none => (m.run? fuel).map (r.outcome earlier)

/-- Random directions from the seed of the request, or from another seed when it has none. -/
def directions (r : Request) (otherSeed : UInt64) : Drawn Xoshiro :=
  ⟨.ofSeed (r.seed.elim otherSeed UInt64.ofNat)⟩

/-- What a request comes to without a machine: the program cannot be loaded, or is only listed. -/
def settle (r : Request) (loaded : Logged (Except Fault Playfield)) : Except Outcome Playfield :=
  match loaded.value with
  | .error fault => .error ⟨1, [], r.logText loaded.records ++ fault.message ++ "\n"⟩
  | .ok field =>
    if r.dump then .error ⟨0, field.listing, r.logText loaded.records⟩ else .ok field

def perform {σ : Type} [DirectionSource σ] (r : Request) (fuel : Nat)
    (contents : String → Except String (List UInt8)) (stdin : Input) (directions : σ) :
    Option Outcome :=
  match r.program with
  | none => some (printed usageLine)
  | some path =>
    let loaded := Playfield.loadFile path (contents path)
    match r.settle loaded with
    | .error o => some o
    | .ok field => r.execute fuel loaded.records (.start field stdin .unlimited directions)

end Request

/-- The whole session. The files are given by their contents, or by why they cannot be read. -/
def session (fuel : Nat) (contents : String → Except String (List UInt8)) (input : List UInt8)
    (otherSeed : UInt64) (arguments : List String) : Option Outcome :=
  match Command.ofArguments arguments with
  | .error fault => some fault.outcome
  | .ok .help => some (printed helpText)
  | .ok (.run r) => r.perform fuel contents (.ofBytes input) (r.directions otherSeed)

end Befunge.CommandLine
