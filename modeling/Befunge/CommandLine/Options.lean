import Befunge.CommandLine.Number

/-! The options of the command line. Arguments are read from left to right; a value that is
given as an argument of its own is judged only when the next option, or the end, shows that the
argument before it is complete. -/

namespace Befunge.CommandLine

structure Request where
  program : Option String
  seed : Option Nat
  stepLimit : Option Nat
  dump : Bool
  verbose : Bool
deriving DecidableEq, Repr

def Request.default : Request := ⟨none, none, none, false, false⟩

inductive Command where
  | help
  | run (request : Request)
deriving DecidableEq, Repr

/-- Options that are followed by a value. -/
inductive Setting where
  | seed
  | stepLimit
deriving DecidableEq, Repr

def Setting.usage : Setting → String
  | .seed => "--seed <SEED>"
  | .stepLimit => "--step-limit <STEP_LIMIT>"

/-- Options that stand alone. -/
inductive Switch where
  | dump
  | verbose
  | help
deriving DecidableEq, Repr

def Switch.usage : Switch → String
  | .dump => "--dump"
  | .verbose => "--verbose"
  | .help => "--help"

inductive OptionFault where
  | unexpectedArgument (argument : String)
  | unexpectedValue (v usage : String)
  | missingValue (usage : String)
  | repeated (usage : String)
  | invalidValue (v usage : String) (fault : NumberFault)
deriving DecidableEq, Repr

def OptionFault.message : OptionFault → String
  | .unexpectedArgument argument =>
    "error: unexpected argument '" ++ argument ++ "' found"
  | .unexpectedValue v usage =>
    "error: unexpected value '" ++ v ++ "' for '" ++ usage ++ "' found; no more were expected"
  | .missingValue usage =>
    "error: a value is required for '" ++ usage ++ "' but none was supplied"
  | .repeated usage =>
    "error: the argument '" ++ usage ++ "' cannot be used multiple times"
  | .invalidValue v usage fault =>
    "error: invalid value '" ++ v ++ "' for '" ++ usage ++ "': " ++ fault.message

/-- Gives a setting its value; it can be given only once. -/
def Request.assign (r : Request) (s : Setting) (v : String) : Except OptionFault Request := do
  let present := match s with
    | .seed => r.seed.isSome
    | .stepLimit => r.stepLimit.isSome
  if present then throw (.repeated s.usage)
  match readNumber v.toList with
  | .error fault => throw (.invalidValue v s.usage fault)
  | .ok n =>
    match s with
    | .seed => return { r with seed := some n }
    | .stepLimit => return { r with stepLimit := some n }

inductive Shape where
  /-- Two dashes alone: everything after them is a plain argument. -/
  | separator
  | long (name : String) (attached : Option String)
  | letters (letters : List Char)
  | plain
deriving DecidableEq, Repr

def Shape.ofArgument (argument : String) : Shape :=
  match argument.toList with
  | ['-', '-'] => .separator
  | '-' :: '-' :: rest =>
    let name := String.ofList (rest.takeWhile (· != '='))
    match rest.dropWhile (· != '=') with
    | [] => .long name none
    | _ :: attached => .long name (some (String.ofList attached))
  | '-' :: c :: rest => .letters (c :: rest)
  | _ => .plain

/-- An argument that has been seen but not judged. -/
inductive Unsettled where
  | setting (s : Setting) (v : Option String)
  | program (path : String)
deriving DecidableEq, Repr

structure Scan where
  request : Request
  unsettled : Option Unsettled
  afterSeparator : Bool
deriving DecidableEq, Repr

namespace Scan

def start : Scan := ⟨.default, none, false⟩

def settle (s : Scan) : Except OptionFault Scan := do
  match s.unsettled with
  | none => return s
  | some (.setting o none) => throw (.missingValue o.usage)
  | some (.setting o (some v)) =>
    return { s with request := ← s.request.assign o v, unsettled := none }
  | some (.program path) =>
    if path.isEmpty then throw (.missingValue "[PROGRAM]")
    return { s with request := { s.request with program := some path }, unsettled := none }

def hasProgram (s : Scan) : Bool :=
  match s.unsettled with
  | some (.program _) => true
  | _ => s.request.program.isSome

/-- A plain argument names the program; there is only one. -/
def plain (s : Scan) (argument : String) : Except OptionFault Scan := do
  if s.hasProgram then throw (.unexpectedArgument argument)
  let s ← s.settle
  return { s with unsettled := some (.program argument) }

/-- Sets a switch; after a request for help nothing else matters, and `none` is returned. -/
def switch (s : Scan) (w : Switch) : Except OptionFault (Option Scan) := do
  let s ← s.settle
  match w with
  | .help => return none
  | .dump =>
    if s.request.dump then throw (.repeated w.usage)
    return some { s with request := { s.request with dump := true } }
  | .verbose =>
    if s.request.verbose then throw (.repeated w.usage)
    return some { s with request := { s.request with verbose := true } }

/-- Begins a setting; an attached value is judged at once. -/
def setting (s : Scan) (o : Setting) (attached : Option String) : Except OptionFault Scan := do
  let s ← s.settle
  let s := { s with unsettled := some (.setting o attached) }
  if attached.isSome then s.settle else return s

def long (s : Scan) (name : String) (attached : Option String) :
    Except OptionFault (Option Scan) := do
  let alone (w : Switch) : Except OptionFault (Option Scan) :=
    match attached with
    | some v => throw (.unexpectedValue v w.usage)
    | none => s.switch w
  match name with
  | "seed" => return some (← s.setting .seed attached)
  | "step-limit" => return some (← s.setting .stepLimit attached)
  | "dump" => alone .dump
  | "verbose" => alone .verbose
  | "help" => alone .help
  | _ => throw (.unexpectedArgument ("--" ++ name))

def letters (s : Scan) : List Char → Except OptionFault (Option Scan)
  | [] => return some s
  | 'v' :: rest => do
    match ← s.switch .verbose with
    | some s => letters s rest
    | none => return none
  | 'h' :: _ => s.switch .help
  | c :: _ => throw (.unexpectedArgument (String.ofList ['-', c]))

def argument (s : Scan) (text : String) : Except OptionFault (Option Scan) := do
  if s.afterSeparator then return some (← s.plain text)
  match Shape.ofArgument text with
  | .separator => return some { s with afterSeparator := true }
  | .long name attached => s.long name attached
  | .letters cs => s.letters cs
  | .plain =>
    match s.unsettled with
    | some (.setting o none) => return some { s with unsettled := some (.setting o (some text)) }
    | _ => return some (← s.plain text)

def arguments (s : Scan) : List String → Except OptionFault Command
  | [] => do
    let s ← s.settle
    return .run s.request
  | text :: rest => do
    match ← s.argument text with
    | some s => arguments s rest
    | none => return .help

end Scan

def Command.ofArguments (arguments : List String) : Except OptionFault Command :=
  Scan.start.arguments arguments

end Befunge.CommandLine
