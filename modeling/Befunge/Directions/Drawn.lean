import Befunge.Directions.Source

/-! Directions drawn from a source of random words. Only some words name a direction; the others
are rejected and drawn again. -/

namespace Befunge

/-- A source of 64-bit words, and how many of them have to be looked at to have seen all. -/
class WordSource (ρ : Type) where
  next : ρ → UInt64 × ρ
  horizon : ρ → Nat

namespace WordSource

variable {ρ : Type} [WordSource ρ]

/-- What is left of a source after `n` words. -/
def after : Nat → ρ → ρ
  | 0, s => s
  | n + 1, s => after n (next s).2

def word (n : Nat) (s : ρ) : UInt64 := (next (after n s)).1

end WordSource

/-- Every word of the source is among those before the horizon, so that waiting longer for a word
of some kind is in vain. -/
class LawfulWordSource (ρ : Type) [WordSource ρ] : Prop where
  exists_lt_horizon (s : ρ) (n : Nat) :
    ∃ k < WordSource.horizon s, WordSource.word k s = WordSource.word n s

instance : WordSource (Cycle UInt64) where
  next c := c.next?.getD (0, c)
  horizon c := c.rest.length + 1 + c.all.length

/-- The direction named by the two highest bits of a word. The bit below them must be zero:
otherwise the word is rejected, and the next one is drawn. -/
def Direction.ofWord? (w : UInt64) : Option Direction :=
  if w <<< 2 < 0x8000000000000000 then
    match w >>> 62 with
    | 0 => some .right
    | 1 => some .left
    | 2 => some .up
    | _ => some .down
  else none

/-- Draws at most `n` words until one of them names a direction. -/
def draw? {ρ : Type} [WordSource ρ] : Nat → ρ → Option (Direction × ρ)
  | 0, _ => none
  | n + 1, words =>
    let (w, rest) := WordSource.next words
    match Direction.ofWord? w with
    | some d => some (d, rest)
    | none => draw? n rest

/-- Directions drawn from random words. -/
structure Drawn (ρ : Type) where
  words : ρ

/-- A draw from words that name no direction never ends. The direction to the right stands for it
here; it is the answer only where no number of words would be enough. -/
instance {ρ : Type} [WordSource ρ] : DirectionSource (Drawn ρ) where
  next s :=
    match draw? (WordSource.horizon s.words) s.words with
    | some (d, rest) => (d, ⟨rest⟩)
    | none => (.right, s)

end Befunge
