import Befunge.Directions.Drawn

/-! The xoshiro256++ generator, started from a single word. -/

namespace Befunge

structure Xoshiro where
  s0 : UInt64
  s1 : UInt64
  s2 : UInt64
  s3 : UInt64
deriving DecidableEq, Repr

namespace Xoshiro

def rotate64 (x k : UInt64) : UInt64 := (x <<< k) ||| (x >>> (64 - k))

def rotateRight32 (x k : UInt32) : UInt32 := (x >>> k) ||| (x <<< (32 - k))

/-- One step of the linear congruential generator that expands the seed. -/
def congruential (state : UInt64) : UInt64 :=
  state * 6364136223846793005 + 11634580027462260723

/-- The 32 bits taken from a state of that generator: a shifted part, rotated by the rest. -/
def permuted (state : UInt64) : UInt32 :=
  rotateRight32 (((state >>> 18) ^^^ state) >>> 27).toUInt32 (state >>> 59).toUInt32

/-- Two outputs of the expanding generator, the lower half first, and its next state. -/
def expandWord (state : UInt64) : UInt64 × UInt64 :=
  let low := congruential state
  let high := congruential low
  ((permuted low).toUInt64 ||| ((permuted high).toUInt64 <<< 32), high)

def ofSeed (seed : UInt64) : Xoshiro :=
  let (s0, state) := expandWord seed
  let (s1, state) := expandWord state
  let (s2, state) := expandWord state
  let (s3, _) := expandWord state
  ⟨s0, s1, s2, s3⟩

def output (g : Xoshiro) : UInt64 := rotate64 (g.s0 + g.s3) 23 + g.s0

def advance (g : Xoshiro) : Xoshiro :=
  let s2 := g.s2 ^^^ g.s0
  let s3 := g.s3 ^^^ g.s1
  ⟨g.s0 ^^^ s3, g.s1 ^^^ s2, s2 ^^^ (g.s1 <<< 17), rotate64 s3 45⟩

/-- The state has 256 bits, so the words repeat after `2 ^ 256` of them at the latest. -/
instance : WordSource Xoshiro where
  next g := (g.output, g.advance)
  horizon _ := Nat.pow 2 256

end Xoshiro

end Befunge
