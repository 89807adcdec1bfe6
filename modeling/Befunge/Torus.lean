/-! Positions on the playing surface and the cursor that travels over it. The surface is 80
columns wide and 25 rows high, and its opposite edges are glued together. -/

namespace Befunge

abbrev width : Nat := 80

abbrev height : Nat := 25

inductive Direction where
  | right
  | left
  | up
  | down
deriving DecidableEq, Repr

def Direction.opposite : Direction → Direction
  | .right => .left
  | .left => .right
  | .up => .down
  | .down => .up

structure Position where
  x : Fin width
  y : Fin height
deriving DecidableEq, Repr

namespace Position

def wrapped (x y : Nat) : Position :=
  ⟨Fin.ofNat width x, Fin.ofNat height y⟩

def origin : Position := ⟨0, 0⟩

/-- The neighbour on the given side; `Fin` arithmetic closes the torus. -/
def neighbour (p : Position) : Direction → Position
  | .right => { p with x := p.x + 1 }
  | .left => { p with x := p.x - 1 }
  | .up => { p with y := p.y - 1 }
  | .down => { p with y := p.y + 1 }

theorem add_one_sub_one {n : Nat} (i : Fin (n + 1)) : i + 1 - 1 = i := by grind

theorem sub_one_add_one {n : Nat} (i : Fin (n + 1)) : i - 1 + 1 = i := by grind

@[simp] theorem neighbour_opposite (p : Position) (d : Direction) :
    (p.neighbour d).neighbour d.opposite = p := by
  cases d <;> simp only [neighbour, Direction.opposite, add_one_sub_one, sub_one_add_one]

end Position

structure Cursor where
  position : Position
  heading : Direction
deriving DecidableEq, Repr

namespace Cursor

def start : Cursor := ⟨.origin, .right⟩

/-- Coordinates of any size are wrapped round the torus. -/
def placed (x y : Nat) (heading : Direction) : Cursor :=
  ⟨.wrapped x y, heading⟩

def advance (c : Cursor) : Cursor :=
  { c with position := c.position.neighbour c.heading }

def advanceBy : Nat → Cursor → Cursor
  | 0, c => c
  | n + 1, c => advanceBy n c.advance

def turn (c : Cursor) (heading : Direction) : Cursor :=
  { c with heading }

@[simp] theorem advance_heading (c : Cursor) : c.advance.heading = c.heading := rfl

@[simp] theorem turn_heading (c : Cursor) (d : Direction) : (c.turn d).heading = d := rfl

@[simp] theorem turn_position (c : Cursor) (d : Direction) : (c.turn d).position = c.position := rfl

theorem advanceBy_add (m n : Nat) (c : Cursor) :
    advanceBy (m + n) c = advanceBy n (advanceBy m c) := by
  induction m generalizing c with
  | zero => simp [advanceBy]
  | succ m ih => rw [Nat.succ_add]; exact ih c.advance

theorem advanceBy_succ (n : Nat) (c : Cursor) : advanceBy (n + 1) c = (advanceBy n c).advance :=
  advanceBy_add n 1 c

@[simp] theorem advanceBy_heading (n : Nat) (c : Cursor) :
    (advanceBy n c).heading = c.heading := by
  induction n generalizing c with
  | zero => rfl
  | succ n ih => exact ih c.advance

end Cursor

end Befunge
