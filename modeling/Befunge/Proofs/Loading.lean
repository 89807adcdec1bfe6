import Befunge.Proofs.Lines
import Mathlib.Data.List.Infix

/-! What can be loaded. A newline never comes onto a surface, and everything else does: a row keeps
a carriage return in its last column when another one follows that is dropped in its place. -/

namespace Befunge

namespace Source

/-- The source with a carriage return before each of its newlines. -/
def withReturns (source : List UInt8) : List UInt8 :=
  source.flatMap fun b => if b = newline then [carriageReturn, newline] else [b]

theorem withReturns_of_not_mem {line : List UInt8} (h : newline ∉ line) :
    withReturns line = line := by
  induction line with
  | nil => rfl
  | cons b line ih =>
    rw [List.mem_cons, not_or] at h
    have hc : withReturns (b :: line) = [b] ++ withReturns line := by
      simp [withReturns, Ne.symm h.1]
    rw [hc, ih h.2, List.singleton_append]

theorem withReturns_append {line : List UInt8} (h : newline ∉ line) (later : List UInt8) :
    withReturns (line ++ newline :: later) =
      line ++ [carriageReturn] ++ newline :: withReturns later := by
  have hl : withReturns (line ++ newline :: later) =
      withReturns line ++ ([carriageReturn, newline] ++ withReturns later) := by
    simp [withReturns]
  rw [hl, withReturns_of_not_mem h]
  simp

theorem newline_not_mem_append_return {line : List UInt8} (h : newline ∉ line) :
    newline ∉ line ++ [carriageReturn] := by
  rw [List.mem_append, not_or]
  exact ⟨h, by decide⟩

theorem lines_withReturns {source : List UInt8} (h : ¬ [carriageReturn, newline] <:+: source) :
    lines (withReturns source) = lines source := by
  induction source using line_induction with
  | last line hl => rw [withReturns_of_not_mem hl]
  | more line later hl ih =>
    have hr : line.getLast? ≠ some carriageReturn := by
      intro hr
      obtain ⟨before, rfl⟩ := List.getLast?_eq_some_iff.mp hr
      exact h ⟨before, later, by simp⟩
    have hi : ¬ [carriageReturn, newline] <:+: later := by
      intro hi
      have hs : later <:+ line ++ newline :: later := ⟨line ++ [newline], by simp⟩
      exact h (hi.trans hs.isInfix)
    rw [withReturns_append hl, lines_append (newline_not_mem_append_return hl), lines_append hl,
      dropReturn_append_return, dropReturn_of_getLast?_ne hr, ih hi]

theorem newline_not_mem_of_mem_lines {source : List UInt8} :
    ∀ line ∈ lines source, newline ∉ line := by
  intro line hl hn
  obtain ⟨piece, hp, rfl⟩ := List.mem_map.mp hl
  exact newline_not_mem_of_mem_pieces piece hp ((dropReturn_prefix_self piece).subset hn)

end Source

namespace Playfield

open Source

/-- All the rows in full, with a newline between each and the next. -/
def text (field : Playfield) : List UInt8 := [newline].intercalate field.fullRows

theorem get_ofLines_mem (lines : List (List UInt8)) (p : Position) :
    (ofLines lines).get p = space ∨ ∃ line ∈ lines, (ofLines lines).get p ∈ line := by
  rw [get_ofLines]
  by_cases hy : p.y < lines.length
  · rw [List.getD_eq_getElem lines [] hy]
    by_cases hx : p.x < lines[p.y.val].length
    · rw [List.getD_eq_getElem _ _ hx]
      exact .inr ⟨_, List.getElem_mem hy, List.getElem_mem hx⟩
    · exact .inl (List.getD_eq_default _ _ (Nat.le_of_not_lt hx))
  · rw [List.getD_eq_default lines [] (Nat.le_of_not_lt hy)]
    exact .inl rfl

theorem get_parse_ne_newline (source : List UInt8) (p : Position) :
    (parse source).get p ≠ newline := by
  intro hn
  have h := get_ofLines_mem (lines source) p
  rw [parse] at hn
  rw [hn] at h
  rcases h with hs | ⟨line, hl, hm⟩
  · exact absurd hs (by decide)
  · exact newline_not_mem_of_mem_lines line hl hm

theorem newline_not_mem_fullRows {field : Playfield} (h : ∀ p, field.get p ≠ newline) :
    ∀ row ∈ field.fullRows, newline ∉ row :=
  fun row hr hn => forall_mem_fullRows (P := (· ≠ newline)) h row hr newline hn rfl

theorem exists_parse_eq_iff {field : Playfield} :
    (∃ source, parse source = field) ↔ ∀ p, field.get p ≠ newline := by
  constructor
  · rintro ⟨source, rfl⟩
    exact get_parse_ne_newline source
  · intro h
    have hn : ∀ line ∈ field.fullRows.map (· ++ [carriageReturn]), newline ∉ line := by
      intro line hl
      obtain ⟨row, hr, rfl⟩ := List.mem_map.mp hl
      exact newline_not_mem_append_return (newline_not_mem_fullRows h row hr)
    have hl : lines (unlines (field.fullRows.map (· ++ [carriageReturn]))) =
        field.fullRows ++ [[]] := by
      rw [lines, pieces_unlines hn]
      simp [Function.comp_def, dropReturn]
    exact ⟨_, by rw [parse, hl, ofLines_append_nil, ofLines_fullRows]⟩

theorem getLast?_fullRow (field : Playfield) (y : Fin height) :
    (field.fullRow y).getLast? = some (field.get ⟨79, y⟩) := by
  rw [List.getLast?_eq_getElem?, length_fullRow]
  exact List.getElem?_eq_getElem _

theorem fullRows_ne_nil (field : Playfield) : field.fullRows ≠ [] := by
  intro h
  have hl : field.fullRows.length = 0 := by rw [h, List.length_nil]
  rw [fullRows, List.length_map, Vector.length_toList] at hl
  contradiction

/-- The full text loses a carriage return in the last column, and nothing else. -/
theorem parse_text_eq_iff {field : Playfield} :
    parse field.text = field ↔
      (∀ p, field.get p ≠ newline) ∧ ∀ y, field.get ⟨79, y⟩ ≠ carriageReturn := by
  constructor
  · intro h
    have hn := exists_parse_eq_iff.mp ⟨_, h⟩
    refine ⟨hn, fun y hr => ?_⟩
    have hl : lines field.text = field.fullRows.map dropReturn := by
      rw [lines, text, pieces_eq_splitOn,
        List.splitOn_intercalate newline (newline_not_mem_fullRows hn) field.fullRows_ne_nil]
    have hd : (field.fullRows.map dropReturn).getD y [] = (field.fullRow y).dropLast := by
      have hm : (field.fullRows.map dropReturn).getD y [] = dropReturn (field.fullRows.getD y []) :=
        List.getD_map field.fullRows [] dropReturn
      rw [hm, getD_fullRows_val, dropReturn, getLast?_fullRow, hr, if_pos rfl]
    have hx : (field.fullRow y).dropLast.length = 79 := by simp
    have hs : (parse field.text).get ⟨79, y⟩ = space := by
      rw [parse, hl, get_ofLines, hd]
      exact List.getD_eq_default _ _ (Nat.le_of_eq hx)
    rw [h, hr] at hs
    exact absurd hs (by decide)
  · rintro ⟨hn, hr⟩
    have hp : ∀ row ∈ field.fullRows, Plain row := by
      refine fun row hm => ⟨newline_not_mem_fullRows hn row hm, fun hc => ?_⟩
      obtain ⟨y, rfl⟩ := mem_fullRows_iff.mp hm
      rw [getLast?_fullRow] at hc
      exact hr y (Option.some.inj hc)
    rw [parse, text, lines_intercalate field.fullRows_ne_nil hp, ofLines_fullRows]

theorem parse_intercalate {lines : List (List UInt8)} (h : ∀ line ∈ lines, Plain line) :
    parse ([newline].intercalate lines) = ofLines lines := by
  by_cases hne : lines = []
  · subst hne
    exact ofLines_append_nil []
  · rw [parse, lines_intercalate hne h]

theorem loading_image :
    (∀ field : Playfield, (∃ source, parse source = field) ↔ ∀ p, field.get p ≠ newline) ∧
    (∀ field : Playfield, parse field.text = field ↔
      (∀ p, field.get p ≠ newline) ∧ ∀ y, field.get ⟨79, y⟩ ≠ carriageReturn) ∧
    (∀ lines : List (List UInt8),
      (∀ line ∈ lines, newline ∉ line ∧ line.getLast? ≠ some carriageReturn) →
        parse ([newline].intercalate lines) = ofLines lines) ∧
    ∀ source, ¬ [carriageReturn, newline] <:+: source →
      parse (withReturns source) = parse source := by
  refine ⟨fun _ => exists_parse_eq_iff, fun _ => parse_text_eq_iff, fun _ => parse_intercalate,
    fun source h => ?_⟩
  rw [parse, lines_withReturns h, parse]

theorem loading_image_returning :
    parse ([newline].intercalate [[carriageReturn, 0x31], [], [0x32]]) =
      ofLines [[carriageReturn, 0x31], [], [0x32]] ∧
    parse (withReturns [0x31, newline, carriageReturn, 0x32, newline, carriageReturn]) =
      parse [0x31, newline, carriageReturn, 0x32, newline, carriageReturn] := by
  obtain ⟨-, -, hl, hr⟩ := loading_image
  exact ⟨hl _ (by decide), hr _ (by decide)⟩

end Playfield

end Befunge
