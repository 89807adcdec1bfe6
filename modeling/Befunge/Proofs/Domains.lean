import Befunge.Proofs.Division
import Befunge.Proofs.Run
import Befunge.Proofs.Slices

/-! Operations and their domains. Here each operation that is not defined everywhere has no result
where it is not: an index beyond the end, an unsigned word that leaves its range, a byte that is too
large, a quotient by zero, a slice through a character. A machine whose steps are made of these
operations makes the steps of the machine, whatever it is driven through. -/

namespace Befunge

open Text Text.Decimal

namespace Unsigned

def add? (a b : Nat) : Option Nat := if a + b < 2 ^ 64 then some (a + b) else none

def sub? (a b : Nat) : Option Nat := if b ≤ a then some (a - b) else none

/-- The coordinate that follows on an edge of length `n`. -/
def next? (n v : Nat) : Option Nat := do
  let w ← add? v 1
  some (w % n)

def previous? (n v : Nat) : Option Nat := do
  let w ← add? v n
  let w ← sub? w 1
  some (w % n)

theorem add?_of_lt {a b : Nat} (h : a + b < 2 ^ 64) : add? a b = some (a + b) := if_pos h

theorem sub?_of_le {a b : Nat} (h : b ≤ a) : sub? a b = some (a - b) := if_pos h

theorem next?_eq {n : Nat} (hn : n < 2 ^ 63) (i : Fin (n + 1)) :
    next? (n + 1) i = some (i + 1 : Fin (n + 1)).val := by
  have hi := i.isLt
  have h1 : (1 : Fin (n + 1)).val = 1 % (n + 1) := rfl
  have hv : (i + 1 : Fin (n + 1)).val = (i.val + 1) % (n + 1) := by
    rw [Fin.val_add, h1, Nat.add_mod_mod]
  rw [next?, add?_of_lt (by omega), Option.bind_eq_bind, Option.bind_some, hv]

theorem previous?_eq {n : Nat} (hn : n < 2 ^ 63) (i : Fin (n + 1)) :
    previous? (n + 1) i = some (i - 1 : Fin (n + 1)).val := by
  have hi := i.isLt
  have hv : (i - 1 : Fin (n + 1)).val = (i.val + (n + 1) - 1) % (n + 1) := by
    rcases n with _ | n
    · omega
    · have h1 : (1 : Fin (n + 2)).val = 1 := rfl
      rw [Fin.val_sub, h1]
      congr 1
      omega
  rw [previous?, add?_of_lt (by omega), Option.bind_eq_bind, Option.bind_some,
    sub?_of_le (by omega), Option.bind_some, hv]

end Unsigned

open Unsigned

namespace Position

def at? (x y : Nat) : Option Position :=
  if h : x < width ∧ y < height then some ⟨⟨x, h.1⟩, ⟨y, h.2⟩⟩ else none

/-- The neighbour by its computed coordinates, which have to be on the surface. -/
def neighbour? (p : Position) : Direction → Option Position
  | .right => do at? (← next? width p.x) p.y
  | .left => do at? (← previous? width p.x) p.y
  | .up => do at? p.x (← previous? height p.y)
  | .down => do at? p.x (← next? height p.y)

theorem at?_eq (p : Position) : at? p.x p.y = some p := dif_pos ⟨p.x.isLt, p.y.isLt⟩

theorem neighbour?_eq (p : Position) (d : Direction) : p.neighbour? d = some (p.neighbour d) := by
  cases d with
  | right =>
    rw [neighbour?, next?_eq (by decide)]
    exact at?_eq (p.neighbour .right)
  | left =>
    rw [neighbour?, previous?_eq (by decide)]
    exact at?_eq (p.neighbour .left)
  | up =>
    rw [neighbour?, previous?_eq (by decide)]
    exact at?_eq (p.neighbour .up)
  | down =>
    rw [neighbour?, next?_eq (by decide)]
    exact at?_eq (p.neighbour .down)

end Position

def Cursor.advance? (c : Cursor) : Option Cursor := do
  let position ← c.position.neighbour? c.heading
  some { c with position }

theorem Cursor.advance?_eq (c : Cursor) : c.advance? = some c.advance := by
  rw [advance?, Position.neighbour?_eq]
  rfl

def byte? (i : Int) : Option UInt8 :=
  if 0 ≤ i ∧ i < 256 then some (UInt8.ofNat i.toNat) else none

def lowByte? (v : Int64) : Option UInt8 := byte? (v.toInt % 256)

theorem lowByte?_eq (v : Int64) : lowByte? v = some (lowByte v) := by
  have hl := toNat_lowByte v
  have hb : (UInt8.ofNat (v.toInt % 256).toNat) = lowByte v := by
    rw [← hl, Int.toNat_natCast, UInt8.ofNat_toNat]
  rw [lowByte?, byte?, if_pos (by omega), hb]

def Operator.apply? : Operator → Int64 → Int64 → Option Int64
  | .divide, lhs, rhs => floorDiv? lhs rhs
  | .modulo, lhs, rhs => floorMod? lhs rhs
  | op, lhs, rhs => some (op.apply lhs rhs)

theorem Operator.apply?_eq (op : Operator) (lhs rhs : Int64) :
    op.apply? lhs rhs = some (op.apply lhs rhs) := by
  cases op with
  | divide => exact floorDiv?_eq lhs rhs
  | modulo => exact floorMod?_eq lhs rhs
  | _ => rfl

namespace Playfield

def cell? (field : Playfield) (x y : Nat) : Option UInt8 := do
  let row ← field.rows[y]?
  row[x]?

def setCell? (field : Playfield) (x y : Nat) (b : UInt8) : Option Playfield :=
  if h : x < width ∧ y < height then
    some ⟨field.rows.set y (field.rows[y].set x b h.1) h.2⟩
  else none

/-- Signed coordinates as indices. -/
def indices (x y : Int64) : Except Fault (Nat × Nat) :=
  if 0 ≤ x.toInt ∧ 0 ≤ y.toInt ∧ x.toInt.toNat < width ∧ y.toInt.toNat < height then
    .ok (x.toInt.toNat, y.toInt.toNat)
  else .error (.outOfBounds x y)

def read? (field : Playfield) (x y : Int64) : Option (Except Fault UInt8) :=
  match indices x y with
  | .ok (column, row) => (field.cell? column row).map .ok
  | .error fault => some (.error fault)

def write? (field : Playfield) (x y v : Int64) : Option (Except Fault Playfield) :=
  match indices x y with
  | .ok (column, row) => do
    let b ← lowByte? v
    let field ← field.setCell? column row b
    some (.ok field)
  | .error fault => some (.error fault)

theorem cell?_eq (field : Playfield) (p : Position) : field.cell? p.x p.y = some (field.get p) := by
  simp [cell?, get]

theorem setCell?_eq (field : Playfield) (p : Position) (b : UInt8) :
    field.setCell? p.x p.y b = some (field.set p b) :=
  dif_pos ⟨p.x.isLt, p.y.isLt⟩

theorem indices_of_some {x y : Int64} {p : Position} (h : Position.ofCoordinates? x y = some p) :
    indices x y = .ok (p.x.val, p.y.val) := by
  unfold Position.ofCoordinates? at h
  split at h
  next hc =>
    cases h
    exact if_pos (by omega)
  · contradiction

theorem indices_of_none {x y : Int64} (h : Position.ofCoordinates? x y = none) :
    indices x y = .error (.outOfBounds x y) := by
  unfold Position.ofCoordinates? at h
  split at h
  · contradiction
  · exact if_neg (by omega)

theorem read?_eq (field : Playfield) (x y : Int64) : field.read? x y = some (field.read x y) := by
  cases h : Position.ofCoordinates? x y with
  | none => rw [read?, indices_of_none h, read, h]
  | some p =>
    rw [read?, indices_of_some h, read, h]
    dsimp only
    rw [cell?_eq]
    rfl

theorem write?_eq (field : Playfield) (x y v : Int64) :
    field.write? x y v = some (field.write x y v) := by
  cases h : Position.ofCoordinates? x y with
  | none => rw [write?, indices_of_none h, write, h]
  | some p =>
    rw [write?, indices_of_some h, write, h]
    dsimp only
    rw [lowByte?_eq, Option.bind_eq_bind, Option.bind_some, setCell?_eq]
    rfl

end Playfield

end Befunge
