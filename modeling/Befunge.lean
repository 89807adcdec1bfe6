import Befunge.Describe
import Befunge.Main
import Befunge.Proofs.PhantomZeros
import Befunge.Proofs.Failure
import Befunge.Proofs.Footprint
import Befunge.Proofs.InputCausality
import Befunge.Proofs.OutputCapacity
import Befunge.Proofs.Reachable
import Befunge.Proofs.Translation
import Befunge.Proofs.StaticChecks
import Befunge.Proofs.Replay
import Befunge.Proofs.StackFrame
import Befunge.Proofs.LastWrite
import Befunge.Proofs.Expression
import Befunge.Proofs.Lines
import Befunge.Proofs.Listing
import Befunge.Proofs.Loading
import Befunge.Proofs.Copying
import Befunge.Proofs.StepLimit
import Befunge.Proofs.Division
import Befunge.Proofs.IntegerInput
import Befunge.Proofs.PrintedIntegers
import Befunge.Proofs.Slices
import Befunge.Proofs.Checked
import Befunge.Proofs.Quotation
import Befunge.Proofs.PrintLoop
import Befunge.Proofs.Effects
import Befunge.Proofs.Retrying
import Befunge.Proofs.LoadedPositions
import Befunge.Proofs.FilteredWords
import Befunge.Proofs.Histories
import Befunge.Proofs.Halting
import Befunge.Proofs.Transcript
import Befunge.Proofs.Displacement
import Befunge.Proofs.Messages
import Befunge.Proofs.Horizon
import Befunge.Proofs.Terminal
import Befunge.Proofs.RecordMessages
import Befunge.Proofs.Arguments
