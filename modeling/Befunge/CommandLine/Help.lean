/-! What the command line says about itself. -/

namespace Befunge.CommandLine

def usageLine : String := "Usage: befunge93 [OPTIONS] [PROGRAM]\n"

def helpText : String :=
  "Befunge-93 interpreter\n\n" ++ usageLine ++ "\n" ++
  "Arguments:\n" ++
  "  [PROGRAM]  Program file: up to 25 lines of up to 80 columns\n\n" ++
  "Options:\n" ++
  "      --seed <SEED>              Random seed for the `?` instruction\n" ++
  "      --step-limit <STEP_LIMIT>  Stop after this many steps if the program has not halted\n" ++
  "      --dump                     Print the loaded program grid and exit without running it\n" ++
  "  -v, --verbose                  Log loading and halting details to stderr\n" ++
  "  -h, --help                     Print help\n"

end Befunge.CommandLine
