import Befunge.Torus

/-! Sources of directions. A wandering cursor asks a source where to go next; the simplest source
is a script that repeats itself. -/

namespace Befunge

class DirectionSource (σ : Type) where
  next : σ → Direction × σ

/-- A list that starts again when its end is reached. -/
structure Cycle (α : Type) where
  rest : List α
  all : List α

namespace Cycle

variable {α : Type}

def ofList (all : List α) : Cycle α := ⟨all, all⟩

/-- Nothing comes of an empty list. -/
def next? (c : Cycle α) : Option (α × Cycle α) :=
  match c.rest, c.all with
  | a :: rest, all => some (a, ⟨rest, all⟩)
  | [], a :: rest => some (a, ⟨rest, a :: rest⟩)
  | [], [] => none

end Cycle

/-- Directions that are followed in turn, for ever; without any, it is always to the right. -/
structure Script where
  directions : Cycle Direction

namespace Script

def ofList (directions : List Direction) : Script := ⟨.ofList directions⟩

instance : DirectionSource Script where
  next s :=
    match s.directions.next? with
    | some (d, rest) => (d, ⟨rest⟩)
    | none => (.right, s)

end Script

def directionsOf {σ : Type} [DirectionSource σ] : Nat → σ → List Direction
  | 0, _ => []
  | n + 1, s =>
    let (d, rest) := DirectionSource.next s
    d :: directionsOf n rest

end Befunge
