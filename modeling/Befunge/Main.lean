import Befunge.CommandLine.Terminal

/-! The program itself: a session whose terminal is the files and the standard streams. -/

namespace Befunge.CommandLine

def causeOf : IO.Error → String
  | .noFileOrDirectory .. => "No such file or directory (os error 2)"
  | .permissionDenied .. => "Permission denied (os error 13)"
  | .inappropriateType .. => "Is a directory (os error 21)"
  | .resourceVanished .. => "Broken pipe (os error 32)"
  | e => toString e

def attempt {α : Type} (action : IO α) : IO (Except String α) :=
  return (← action.toBaseIO).mapError causeOf

def standard : Terminal IO where
  contents path := attempt do return (← IO.FS.readBinFile path).toList
  receive := attempt do return (← (← IO.getStdin).read 4096).toList
  send bytes := attempt do
    let stdout ← IO.getStdout
    stdout.write bytes.toByteArray
    stdout.flush
  complain text := do (← IO.getStderr).putStr text

partial def attend : Stage (Drawn Xoshiro) → IO UInt32
  | .working r m => do attend (← r.turn standard m)
  | .exited status => return status.toUInt32

end Befunge.CommandLine

open Befunge.CommandLine in
def main (arguments : List String) : IO UInt32 := do
  let seed ← IO.rand 0 0xffffffffffffffff
  attend (← standard.begin seed.toUInt64 arguments)
