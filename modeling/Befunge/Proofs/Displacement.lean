import Befunge.Proofs.Translation

/-! Moves over the torus. A move turns the cursor and advances it once. A list of moves translates
the position by the surplus of moves to the right and of moves downward, in whatever order they
are made. -/

namespace Befunge

section

variable {size : Nat} [NeZero size] {d e : Int} {i : Nat}

theorem natCast_translated_mod (i : Nat) :
    (translated size d (i % size) : Int) = (i + d) % size := by
  rw [natCast_translated, Int.natCast_emod, Int.emod_add_emod]

theorem translated_translated :
    translated size e (translated size d i) = translated size (d + e) i := by
  apply Int.ofNat_inj.mp
  rw [natCast_translated, natCast_translated, natCast_translated, Int.emod_add_emod, Int.add_assoc]

theorem translated_eq_self_iff (hi : i < size) : translated size d i = i ↔ (size : Int) ∣ d := by
  have hm : (i : Int) % size = i :=
    Int.emod_eq_of_lt (Int.natCast_nonneg i) (Int.ofNat_lt.mpr hi)
  have hs : (i : Int) + d - i = d := by omega
  calc translated size d i = i
    _ ↔ ((i : Int) + d) % size = i := by rw [← Int.ofNat_inj, natCast_translated]
    _ ↔ ((i : Int) + d) % size = i % size := by rw [hm]
    _ ↔ (size : Int) ∣ d := by
      rw [Int.emod_eq_emod_iff_emod_sub_eq_zero, hs, Int.dvd_iff_emod_eq_zero]

theorem translated_zero (hi : i < size) : translated size 0 i = i :=
  (translated_eq_self_iff hi).mpr (Int.dvd_zero _)

theorem translated_one {n : Nat} (i : Fin (n + 1)) : translated (n + 1) 1 i = (i + 1).val := by
  have h1 : (1 : Fin (n + 1)).val = 1 % (n + 1) := rfl
  apply Int.ofNat_inj.mp
  rw [natCast_translated, Fin.val_add, h1, Nat.add_mod_mod]
  rfl

-- Moving back is cancelled against moving on, so that subtraction in `Fin` is never computed.
theorem translated_neg_one {n : Nat} (i : Fin (n + 1)) :
    translated (n + 1) (-1) i = (i - 1).val := by
  calc translated (n + 1) (-1) i
    _ = translated (n + 1) (-1) (i - 1 + 1).val := by rw [Position.sub_one_add_one]
    _ = translated (n + 1) (-1) (translated (n + 1) 1 (i - 1).val) := by rw [translated_one]
    _ = (i - 1).val := translated_neg_translated 1 (i - 1).isLt

end

namespace Direction

/-- The columns that a move gains to the right. -/
def columns : Direction → Int
  | .right => 1
  | .left => -1
  | .up => 0
  | .down => 0

/-- The rows that a move gains downward. -/
def rows : Direction → Int
  | .right => 0
  | .left => 0
  | .up => -1
  | .down => 1

/-- The number of advances that go round the torus once. -/
def lap : Direction → Nat
  | .right => width
  | .left => width
  | .up => height
  | .down => height

theorem columns_add_count (d : Direction) (moves : List Direction) :
    d.columns + (moves.count .right - moves.count .left) =
      (d :: moves).count .right - (d :: moves).count .left := by
  cases d <;> simp [columns] <;> omega

theorem rows_add_count (d : Direction) (moves : List Direction) :
    d.rows + (moves.count .down - moves.count .up) =
      (d :: moves).count .down - (d :: moves).count .up := by
  cases d <;> simp [rows] <;> omega

end Direction

namespace Position

variable {dx dy ex ey : Int} (p : Position)

theorem translate_translate :
    (p.translate dx dy).translate ex ey = p.translate (dx + ex) (dy + ey) := by
  simp only [translate, translated_translated]

theorem translate_eq_self_iff :
    p.translate dx dy = p ↔ (width : Int) ∣ dx ∧ (height : Int) ∣ dy := by
  rw [← translated_eq_self_iff p.x.isLt, ← translated_eq_self_iff p.y.isLt]
  obtain ⟨x, y⟩ := p
  simp only [translate, mk.injEq, Fin.ext_iff]

theorem neighbour_eq_translate (d : Direction) : p.neighbour d = p.translate d.columns d.rows := by
  have hx := translated_zero p.x.isLt
  have hy := translated_zero p.y.isLt
  cases d <;> simp only [neighbour, translate, Direction.columns, Direction.rows, translated_one,
    translated_neg_one, hx, hy]

end Position

namespace Cursor

def move (d : Direction) (c : Cursor) : Cursor := (c.turn d).advance

def follow : List Direction → Cursor → Cursor
  | [], c => c
  | d :: moves, c => follow moves (c.move d)

theorem position_follow (moves : List Direction) (c : Cursor) :
    (c.follow moves).position = c.position.translate
      (moves.count .right - moves.count .left) (moves.count .down - moves.count .up) := by
  induction moves generalizing c with
  | nil => exact (c.position.translate_eq_self_iff.mpr ⟨Int.dvd_zero _, Int.dvd_zero _⟩).symm
  | cons d moves ih =>
    have hm : (c.move d).position = c.position.translate d.columns d.rows :=
      c.position.neighbour_eq_translate d
    rw [follow, ih, hm, Position.translate_translate, Direction.columns_add_count,
      Direction.rows_add_count]

theorem position_follow_perm {moves others : List Direction} (h : moves.Perm others) (c : Cursor) :
    (c.follow moves).position = (c.follow others).position := by
  rw [position_follow, position_follow, h.count_eq, h.count_eq, h.count_eq, h.count_eq]

theorem x_follow_placed (x y : Nat) (d : Direction) (moves : List Direction) :
    (((placed x y d).follow moves).position.x.val : Int) =
      (x + moves.count .right - moves.count .left) % width := by
  rw [position_follow, Int.add_sub_assoc]
  exact natCast_translated_mod x

theorem y_follow_placed (x y : Nat) (d : Direction) (moves : List Direction) :
    (((placed x y d).follow moves).position.y.val : Int) =
      (y + moves.count .down - moves.count .up) % height := by
  rw [position_follow, Int.add_sub_assoc]
  exact natCast_translated_mod y

/-- To advance is to move in the direction of travel. -/
theorem follow_replicate (n : Nat) (c : Cursor) :
    c.follow (List.replicate n c.heading) = c.advanceBy n := by
  induction n generalizing c with
  | zero => rfl
  | succ n ih =>
    have hm : c.move c.heading = c.advance := rfl
    rw [List.replicate_succ, follow, hm]
    exact ih c.advance

theorem position_advanceBy_eq_iff (n : Nat) (c : Cursor) :
    (c.advanceBy n).position = c.position ↔ c.heading.lap ∣ n := by
  have hd : (c.heading.lap : Int) ∣ n ↔ c.heading.lap ∣ n := Int.natCast_dvd_natCast
  rw [← follow_replicate, position_follow, Position.translate_eq_self_iff, ← hd]
  cases c.heading <;> simp [List.count_replicate, Direction.lap]

-- Neither the coordinates at the start nor the number of moves have a bound here.
theorem moves_add_up (x y : Nat) (d : Direction) (moves : List Direction) :
    (((placed x y d).follow moves).position.x.val : Int) =
        (x + moves.count .right - moves.count .left) % width ∧
      (((placed x y d).follow moves).position.y.val : Int) =
        (y + moves.count .down - moves.count .up) % height ∧
      (∀ (c : Cursor) (others : List Direction), moves.Perm others →
        (c.follow moves).position = (c.follow others).position) ∧
      (∀ (c : Cursor) (e : Direction), ((c.move e).move e.opposite).position = c.position) ∧
      ∀ (c : Cursor) (n : Nat), (c.advanceBy n).position = c.position ↔ c.heading.lap ∣ n :=
  ⟨x_follow_placed x y d moves, y_follow_placed x y d moves,
    fun c _ hp => position_follow_perm hp c,
    fun c e => c.position.neighbour_opposite e,
    fun c n => position_advanceBy_eq_iff n c⟩

/-- Over the left edge, and then over the upper one. -/
def winding : List Direction := List.replicate 16 .left ++ List.replicate 16 .up

/-- Both coordinates are the greatest word. -/
def farthest : Cursor := .placed 0xffffffffffffffff 0xffffffffffffffff .down

theorem moves_add_up_winding :
    (farthest.follow winding).position = ⟨79, 24⟩ ∧
    (farthest.follow winding.reverse).position = ⟨79, 24⟩ ∧
    ((placed 7 0 .up).advanceBy 75).position = ⟨7, 0⟩ ∧
    ((placed 7 0 .left).advanceBy 75).position ≠ ⟨7, 0⟩ := by
  obtain ⟨hx, hy, hp, -, hl⟩ := moves_add_up 0xffffffffffffffff 0xffffffffffffffff .down winding
  have hw : (farthest.follow winding).position = ⟨79, 24⟩ := by
    have hx : (farthest.follow winding).position.x.val = 79 :=
      Int.ofNat_inj.mp (hx.trans (by decide +kernel))
    have hy : (farthest.follow winding).position.y.val = 24 :=
      Int.ofNat_inj.mp (hy.trans (by decide +kernel))
    exact congr (congrArg Position.mk (Fin.ext hx)) (Fin.ext hy)
  refine ⟨hw, ?_, (hl (placed 7 0 .up) 75).mpr (by decide), fun h => ?_⟩
  · rw [← hp farthest winding.reverse winding.reverse_perm.symm, hw]
  · exact absurd ((hl (placed 7 0 .left) 75).mp h) (by decide)

end Cursor

end Befunge
