import Befunge.Playfield.Source
import Mathlib.Data.List.GetD

/-! The lines of a source and the rows of a surface. A source falls into pieces at its newlines as a
list is split, and a surface is the same whether it is given by its rows in full or by what is left
of them without trailing spaces. -/

namespace Befunge

section

variable {α : Type} {p : α → Bool} {d : α}

theorem withoutTrailing_cons (a : α) (l : List α) :
    withoutTrailing p (a :: l) =
      if (withoutTrailing p l).isEmpty && p a then [] else a :: withoutTrailing p l := rfl

/-- What is cut off reads like what lies past the end. -/
theorem getD_withoutTrailing (hp : ∀ a, p a = true → a = d) (l : List α) (i : Nat) :
    (withoutTrailing p l).getD i d = l.getD i d := by
  induction l generalizing i with
  | nil => rfl
  | cons a l ih =>
    rw [withoutTrailing_cons]
    split
    next h =>
      rw [Bool.and_eq_true, List.isEmpty_iff] at h
      cases i with
      | zero => simp [hp a h.2]
      | succ i => simpa [h.1] using ih i
    next =>
      cases i with
      | zero => rfl
      | succ i => simpa using ih i

theorem length_withoutTrailing_le (hp : p d = true) {l : List α} {n : Nat}
    (h : ∀ i, n ≤ i → l.getD i d = d) : (withoutTrailing p l).length ≤ n := by
  induction l generalizing n with
  | nil => exact Nat.zero_le n
  | cons a l ih =>
    rw [withoutTrailing_cons]
    split
    · exact Nat.zero_le n
    next hc =>
      have hl : (withoutTrailing p l).length ≤ n - 1 :=
        ih fun i hi => by simpa using h (i + 1) (by omega)
      cases n with
      | zero =>
        -- nothing may be left, and the first element would have been cut off
        have ha : a = d := by simpa using h 0 (Nat.le_refl 0)
        have he : withoutTrailing p l = [] := List.eq_nil_of_length_eq_zero (by omega)
        simp [he, ha, hp] at hc
      | succ n =>
        rw [List.length_cons]
        omega

theorem mem_of_mem_withoutTrailing {l : List α} {a : α} (h : a ∈ withoutTrailing p l) : a ∈ l := by
  induction l with
  | nil => exact h
  | cons b l ih =>
    rw [withoutTrailing_cons] at h
    split at h
    · contradiction
    · rcases List.mem_cons.mp h with rfl | h
      · exact List.mem_cons_self
      · exact List.mem_cons_of_mem b (ih h)

end

namespace Source

/-- A source without a newline is one line, and any other has a first line before the rest. -/
@[elab_as_elim]
theorem line_induction {motive : List UInt8 → Prop}
    (last : ∀ line, newline ∉ line → motive line)
    (more : ∀ line later, newline ∉ line → motive later → motive (line ++ newline :: later))
    (source : List UInt8) : motive source := by
  induction hn : source.length using Nat.strongRecOn generalizing source with
  | ind n ih =>
    by_cases hm : newline ∈ source
    · obtain ⟨line, later, rfl, hl⟩ := List.eq_append_cons_of_mem hm
      rw [List.length_append, List.length_cons] at hn
      exact more line later hl (ih later.length (by omega) later rfl)
    · exact last source hm

theorem pieces_eq_splitOn (source : List UInt8) : pieces source = source.splitOn newline := by
  induction source with
  | nil => rfl
  | cons b source ih =>
    have hc : pieces (b :: source) =
        if b = newline then [] :: pieces source else prepend b (pieces source) := rfl
    rw [hc, ih, List.splitOn_cons_eq_if_modifyHead]
    obtain ⟨line, later, hs⟩ := List.exists_cons_of_ne_nil (List.splitOn_ne_nil newline source)
    simp [hs, prepend]

theorem pieces_of_not_mem {source : List UInt8} (h : newline ∉ source) :
    pieces source = [source] := by
  rw [pieces_eq_splitOn]
  exact List.splitOn_eq_singleton h

theorem pieces_append {line : List UInt8} (h : newline ∉ line) (later : List UInt8) :
    pieces (line ++ newline :: later) = line :: pieces later := by
  rw [pieces_eq_splitOn, pieces_eq_splitOn, List.splitOn_append_cons_self_of_not_mem h]

theorem newline_not_mem_of_mem_pieces {source : List UInt8} :
    ∀ piece ∈ pieces source, newline ∉ piece := by
  induction source using line_induction with
  | last line h => simpa [pieces_of_not_mem h] using h
  | more line later h ih =>
    rw [pieces_append h]
    exact List.forall_mem_cons.mpr ⟨h, ih⟩

theorem unlines_cons (line : List UInt8) (lines : List (List UInt8)) :
    unlines (line :: lines) = line ++ newline :: unlines lines := by
  simp [unlines]

theorem pieces_unlines {lines : List (List UInt8)} (h : ∀ line ∈ lines, newline ∉ line) :
    pieces (unlines lines) = lines ++ [[]] := by
  induction lines with
  | nil => rfl
  | cons line lines ih =>
    obtain ⟨hl, hs⟩ := List.forall_mem_cons.mp h
    rw [unlines_cons, pieces_append hl, ih hs, List.cons_append]

theorem unlines_pieces (source : List UInt8) :
    unlines (pieces source) = source ++ [newline] := by
  induction source using line_induction with
  | last line h => simp [pieces_of_not_mem h, unlines]
  | more line later h ih => simp [pieces_append h, unlines_cons, ih]

theorem length_unlines_le {lines other : List (List UInt8)} (hl : lines.length ≤ other.length)
    (h : ∀ i, (lines.getD i []).length ≤ (other.getD i []).length) :
    (unlines lines).length ≤ (unlines other).length := by
  induction lines generalizing other with
  | nil => exact Nat.zero_le _
  | cons line lines ih =>
    obtain ⟨first, later, rfl⟩ := List.exists_cons_of_length_pos (Nat.zero_lt_of_lt hl)
    have h0 : line.length ≤ first.length := h 0
    have hi := ih (Nat.le_of_succ_le_succ hl) fun i => h (i + 1)
    simp only [unlines_cons, List.length_append, List.length_cons]
    omega

@[simp] theorem dropReturn_append_return (line : List UInt8) :
    dropReturn (line ++ [carriageReturn]) = line := by
  simp [dropReturn]

theorem dropReturn_of_getLast?_ne {line : List UInt8} (h : line.getLast? ≠ some carriageReturn) :
    dropReturn line = line := if_neg h

theorem dropReturn_prefix_self (line : List UInt8) : dropReturn line <+: line := by
  unfold dropReturn
  split
  · exact List.dropLast_prefix line
  · exact List.prefix_rfl

theorem lines_append {line : List UInt8} (h : newline ∉ line) (later : List UInt8) :
    lines (line ++ newline :: later) = dropReturn line :: lines later := by
  rw [lines, lines, pieces_append h, List.map_cons]

/-- A line that its own text can be told from: it neither contains a newline nor ends in a carriage
return. -/
def Plain (line : List UInt8) : Prop := newline ∉ line ∧ line.getLast? ≠ some carriageReturn

theorem map_dropReturn {lines : List (List UInt8)} (h : ∀ line ∈ lines, Plain line) :
    lines.map dropReturn = lines := by
  have hd : ∀ line ∈ lines, dropReturn line = id line :=
    fun line hl => dropReturn_of_getLast?_ne (h line hl).2
  rw [List.map_congr_left hd, List.map_id]

theorem lines_unlines {ls : List (List UInt8)} (h : ∀ line ∈ ls, Plain line) :
    lines (unlines ls) = ls ++ [[]] := by
  rw [lines, pieces_unlines fun line hl => (h line hl).1, List.map_append, map_dropReturn h]
  rfl

theorem lines_intercalate {ls : List (List UInt8)} (hne : ls ≠ [])
    (h : ∀ line ∈ ls, Plain line) : lines ([newline].intercalate ls) = ls := by
  rw [lines, pieces_eq_splitOn, List.splitOn_intercalate newline (fun line hl => (h line hl).1) hne,
    map_dropReturn h]

end Source

namespace Playfield

open Source

/-- The bytes of a row from left to right. -/
def fullRow (field : Playfield) (y : Fin height) : List UInt8 := field.rows[y].toList

def fullRows (field : Playfield) : List (List UInt8) := field.rows.toList.map (·.toList)

@[simp] theorem length_fullRow (field : Playfield) (y : Fin height) :
    (field.fullRow y).length = width :=
  Vector.length_toList

theorem getD_fullRows_val (field : Playfield) (y : Fin height) :
    field.fullRows.getD y [] = field.fullRow y := by
  simp [fullRows, fullRow]

theorem mem_fullRows_iff {field : Playfield} {row : List UInt8} :
    row ∈ field.fullRows ↔ ∃ y : Fin height, row = field.fullRow y := by
  constructor
  · intro h
    obtain ⟨cells, hc, rfl⟩ := List.mem_map.mp h
    obtain ⟨y, hy, rfl⟩ := Vector.mem_iff_getElem.mp (Vector.mem_toList_iff.mp hc)
    exact ⟨⟨y, hy⟩, rfl⟩
  · rintro ⟨y, rfl⟩
    exact List.mem_map.mpr ⟨_, Vector.mem_toList_iff.mpr (Vector.getElem_mem y.isLt), rfl⟩

theorem getD_fullRows (field : Playfield) (p : Position) :
    (field.fullRows.getD p.y []).getD p.x space = field.get p := by
  have hx : p.x < (field.fullRow p.y).length := by simp
  rw [getD_fullRows_val, List.getD_eq_getElem _ _ hx]
  rfl

theorem getD_fullRows_of_not {field : Playfield} {x y : Nat} (h : ¬ (x < width ∧ y < height)) :
    (field.fullRows.getD y []).getD x space = space := by
  by_cases hy : y < height
  · have hx : ¬ x < width := fun hx => h ⟨hx, hy⟩
    rw [getD_fullRows_val field ⟨y, hy⟩]
    exact List.getD_eq_default _ _ (by simpa using hx)
  · rw [List.getD_eq_default field.fullRows [] (by simpa [fullRows] using hy)]
    rfl

theorem forall_mem_fullRows {field : Playfield} {P : UInt8 → Prop} (h : ∀ p, P (field.get p)) :
    ∀ row ∈ field.fullRows, ∀ b ∈ row, P b := by
  intro row hr b hb
  obtain ⟨y, rfl⟩ := mem_fullRows_iff.mp hr
  obtain ⟨x, hx, rfl⟩ := Vector.mem_iff_getElem.mp (Vector.mem_toList_iff.mp hb)
  exact h ⟨⟨x, hx⟩, y⟩

theorem trimmedRows_eq (field : Playfield) :
    field.trimmedRows =
      withoutTrailing List.isEmpty (field.fullRows.map (withoutTrailing (· == space))) := by
  rw [trimmedRows, fullRows, List.map_map]
  rfl

theorem getD_trimmedRows (field : Playfield) (y : Nat) :
    field.trimmedRows.getD y [] = withoutTrailing (· == space) (field.fullRows.getD y []) := by
  rw [trimmedRows_eq, getD_withoutTrailing fun _ => List.isEmpty_iff.mp]
  exact List.getD_map field.fullRows [] (withoutTrailing (· == space))

theorem ofLines_fullRows (field : Playfield) : ofLines field.fullRows = field :=
  Playfield.ext fun p => (get_ofLines _ p).trans (getD_fullRows field p)

theorem ofLines_append_nil (lines : List (List UInt8)) :
    ofLines (lines ++ [[]]) = ofLines lines := by
  refine Playfield.ext fun p => ?_
  have hl : (lines ++ [[]]).getD p.y [] = lines.getD p.y [] := by
    by_cases h : p.y < lines.length
    · exact List.getD_append lines [[]] [] p.y h
    · rw [List.getD_append_right _ _ _ _ (Nat.le_of_not_lt h),
        List.getD_eq_default _ _ (Nat.le_of_not_lt h)]
      cases p.y.val - lines.length <;> rfl
  rw [get_ofLines, get_ofLines, hl]

end Playfield

end Befunge
