import Befunge.Playfield.Loading
import Befunge.Proofs.Lines
import Mathlib.Data.List.NodupEquivFin
import Mathlib.Data.Set.Card

/-! Loading position by position. A line starts after a newline and ends before the next one, and
each position takes the byte that lies as far from the start of its line as its column says. -/

namespace Befunge

namespace Source

/-- Where line `y` starts: at the beginning, or just after newline number `y`. -/
def lineStart? (source : List UInt8) : Nat → Option Nat
  | 0 => some 0
  | y + 1 => (source.idxsOf newline)[y]?.map (· + 1)

/-- The first newline from there on, or the end of the source. -/
def lineBreak (source : List UInt8) (start : Nat) : Nat :=
  start + (source.drop start).idxOf newline

/-- Where the line ends that starts there; a carriage return as its last byte is left out. -/
def lineEnd (source : List UInt8) (start : Nat) : Nat :=
  if start < lineBreak source start ∧ source[lineBreak source start - 1]? = some carriageReturn then
    lineBreak source start - 1
  else lineBreak source start

theorem lineEnd_le_lineBreak (source : List UInt8) (start : Nat) :
    lineEnd source start ≤ lineBreak source start := by
  unfold lineEnd
  split <;> omega

/-- The byte with this index is the one that is loaded onto the position. -/
def LoadedFrom (source : List UInt8) (p : Position) (i : Nat) : Prop :=
  ∃ start, lineStart? source p.y = some start ∧ i = start + p.x ∧ i < lineEnd source start

/-- A source in three parts: the lines before number `y`, that line, and what follows from its
newline on. -/
structure CutAt (source : List UInt8) (y start : Nat) (earlier : List (List UInt8))
    (text rest : List UInt8) : Prop where
  eq : source = unlines earlier ++ (text ++ rest)
  number : earlier.length = y
  start_eq : (unlines earlier).length = start
  plain : ∀ l ∈ earlier, newline ∉ l
  unbroken : newline ∉ text
  broken : rest = [] ∨ ∃ later, rest = newline :: later

section

variable {source text text' rest : List UInt8} {earlier : List (List UInt8)} {y start : Nat}

theorem idxsOf_newline_of_not_mem (h : newline ∉ text) : text.idxsOf newline = [] :=
  List.idxsOf_eq_nil_iff.mpr fun _ hb => beq_false_of_ne (ne_of_mem_of_not_mem hb h)

theorem lineStart?_of_not_mem (h : newline ∉ text) (y : Nat) :
    lineStart? text y = if y = 0 then some 0 else none := by
  cases y with
  | zero => rfl
  | succ y => simp [lineStart?, idxsOf_newline_of_not_mem h]

theorem lineStart?_append (h : newline ∉ text) (later : List UInt8) (y : Nat) :
    lineStart? (text ++ newline :: later) (y + 1) =
      (lineStart? later y).map (text.length + 1 + ·) := by
  have hi : (text ++ newline :: later).idxsOf newline =
      text.length :: (later.idxsOf newline).map (· + (text.length + 1)) := by
    rw [List.idxsOf_append, idxsOf_newline_of_not_mem h, List.nil_append, List.idxsOf_cons,
      if_pos (beq_self_eq_true newline), List.idxsOf_start, Nat.zero_add]
  rw [lineStart?, hi]
  cases y with
  | zero => rfl
  | succ y =>
    rw [List.getElem?_cons_succ, List.getElem?_map, lineStart?, Option.map_map, Option.map_map]
    congr 1
    funext i
    simp only [Function.comp_apply]
    omega

theorem lineStart?_eq_none_iff : lineStart? source y = none ↔ (lines source).length ≤ y := by
  rw [lines, List.length_map]
  induction source using line_induction generalizing y with
  | last text hl =>
    rw [pieces_of_not_mem hl, lineStart?_of_not_mem hl, List.length_singleton,
      Nat.one_le_iff_ne_zero]
    simp
  | more text later hl ih =>
    rw [pieces_append hl, List.length_cons]
    cases y with
    | zero => simp [lineStart?]
    | succ y => rw [lineStart?_append hl, Option.map_eq_none_iff, ih, Nat.succ_le_succ_iff]

theorem exists_cutAt (h : lineStart? source y = some start) :
    ∃ earlier text rest, CutAt source y start earlier text rest := by
  induction source using line_induction generalizing y start with
  | last text hl =>
    rw [lineStart?_of_not_mem hl] at h
    obtain ⟨rfl, hs⟩ := Option.ite_none_right_eq_some.mp h
    cases hs
    exact ⟨[], text, [], by simp [unlines], rfl, rfl, nofun, hl, .inl rfl⟩
  | more text later hl ih =>
    cases y with
    | zero =>
      cases h
      exact ⟨[], text, newline :: later, rfl, rfl, rfl, nofun, hl, .inr ⟨later, rfl⟩⟩
    | succ y =>
      rw [lineStart?_append hl] at h
      obtain ⟨start, hs, rfl⟩ := Option.map_eq_some_iff.mp h
      obtain ⟨earlier, text', rest, hc⟩ := ih hs
      refine ⟨text :: earlier, text', rest, ?_, ?_, ?_, ?_, hc.unbroken, hc.broken⟩
      · rw [unlines_cons, hc.eq, List.append_assoc, List.cons_append]
      · rw [List.length_cons, hc.number]
      · rw [unlines_cons, List.length_append, List.length_cons, hc.start_eq]
        omega
      · exact List.forall_mem_cons.mpr ⟨hl, hc.plain⟩

theorem lines_unlines_append (h : ∀ l ∈ earlier, newline ∉ l) (source : List UInt8) :
    lines (unlines earlier ++ source) = earlier.map dropReturn ++ lines source := by
  induction earlier with
  | nil => rfl
  | cons text earlier ih =>
    obtain ⟨hl, hs⟩ := List.forall_mem_cons.mp h
    rw [unlines_cons, List.append_assoc, List.cons_append, lines_append hl, ih hs, List.map_cons,
      List.cons_append]

theorem count_unlines (h : ∀ l ∈ earlier, newline ∉ l) :
    (unlines earlier).count newline = earlier.length := by
  induction earlier with
  | nil => rfl
  | cons text earlier ih =>
    obtain ⟨hl, hs⟩ := List.forall_mem_cons.mp h
    rw [unlines_cons, List.count_append, List.count_cons_self, ih hs,
      List.count_eq_zero_of_not_mem hl, List.length_cons, Nat.zero_add]

/-- A line loses its last byte if that is a carriage return, and reads the same otherwise. -/
theorem getD_dropReturn (text : List UInt8) (x : Nat) (d : UInt8) :
    (dropReturn text).getD x d =
      if x + 1 = text.length ∧ text[x]? = some carriageReturn then d else text.getD x d := by
  have hl : text.getLast? = text[text.length - 1]? := List.getLast?_eq_getElem?
  unfold dropReturn
  rw [List.getD_eq_getElem?_getD, List.getD_eq_getElem?_getD]
  grind

namespace CutAt

variable (hc : CutAt source y start earlier text rest)
include hc

theorem replace (h : newline ∉ text') :
    CutAt (unlines earlier ++ (text' ++ rest)) y start earlier text' rest :=
  ⟨rfl, hc.number, hc.start_eq, hc.plain, h, hc.broken⟩

theorem drop_eq : source.drop start = text ++ rest := by
  rw [hc.eq, ← hc.start_eq, List.drop_left]

theorem getElem?_eq {x : Nat} (hx : x < text.length) : source[start + x]? = text[x]? := by
  rw [← List.getElem?_drop, hc.drop_eq, List.getElem?_append_left hx]

theorem lineBreak_eq : lineBreak source start = start + text.length := by
  have hr : rest.idxOf newline = 0 := by
    obtain rfl | ⟨later, rfl⟩ := hc.broken
    · rfl
    · exact List.idxOf_cons_self
  rw [lineBreak, hc.drop_eq, List.idxOf_append_of_notMem hc.unbroken, hr, Nat.add_zero]

theorem lineEnd_eq : lineEnd source start = start + (dropReturn text).length := by
  have hl : text.getLast? = text[text.length - 1]? := List.getLast?_eq_getElem?
  rw [lineEnd, hc.lineBreak_eq, dropReturn, hl]
  rcases Nat.eq_zero_or_pos text.length with hz | hp
  · simp [List.eq_nil_of_length_eq_zero hz]
  · have hi : start + text.length - 1 = start + (text.length - 1) := by omega
    rw [hi, hc.getElem?_eq (by omega)]
    split <;> split <;> simp_all

theorem exists_lines_eq : ∃ more, ∀ text', newline ∉ text' →
    lines (unlines earlier ++ (text' ++ rest)) =
      earlier.map dropReturn ++ dropReturn text' :: more := by
  obtain rfl | ⟨later, rfl⟩ := hc.broken
  · refine ⟨[], fun text' hl => ?_⟩
    rw [lines_unlines_append hc.plain, List.append_nil, lines, pieces_of_not_mem hl]
    rfl
  · refine ⟨lines later, fun text' hl => ?_⟩
    rw [lines_unlines_append hc.plain, lines_append hl]

theorem getD_lines : (lines source).getD y [] = dropReturn text := by
  obtain ⟨more, hm⟩ := hc.exists_lines_eq
  rw [hc.eq, hm text hc.unbroken, ← hc.number]
  simp

theorem getD_lines_replace (h : newline ∉ text') {i : Nat} (hi : i ≠ y) :
    (lines (unlines earlier ++ (text' ++ rest))).getD i [] = (lines source).getD i [] := by
  obtain ⟨more, hm⟩ := hc.exists_lines_eq
  have hn := hc.number
  rw [hm text' h, hc.eq, hm text hc.unbroken]
  rw [List.getD_eq_getElem?_getD, List.getD_eq_getElem?_getD]
  grind

/-- As many newlines lie before a byte as there are lines before its own. -/
theorem count_take {i : Nat} (hl : start ≤ i) (hu : i ≤ lineBreak source start) :
    (source.take i).count newline = y := by
  rw [hc.lineBreak_eq] at hu
  have hs := hc.start_eq
  have ht : source.take i = unlines earlier ++ text.take (i - start) := by
    rw [hc.eq, List.take_append, hs, List.take_of_length_le (by omega), List.take_append,
      Nat.sub_eq_zero_of_le (by omega : i - start ≤ text.length), List.take_zero, List.append_nil]
  have hz : (text.take (i - start)).count newline = 0 :=
    List.count_eq_zero_of_not_mem fun hm => hc.unbroken (List.mem_of_mem_take hm)
  rw [ht, List.count_append, count_unlines hc.plain, hz, hc.number, Nat.add_zero]

end CutAt

/-- No column of a line is loaded twice, and none of its bytes is loaded onto another row. -/
theorem LoadedFrom.eq_of_le {p : Position} {i : Nat} (h : LoadedFrom source p i)
    (hs : lineStart? source y = some start) (hl : start ≤ i) (hu : i ≤ lineBreak source start) :
    p.y = y ∧ i = start + p.x := by
  obtain ⟨start', hs', he, hi⟩ := h
  obtain ⟨_, _, _, hc⟩ := exists_cutAt hs
  obtain ⟨_, _, _, hc'⟩ := exists_cutAt hs'
  have hb := lineEnd_le_lineBreak source start'
  -- both numbers count the newlines before the byte
  have hy : (p.y : Nat) = y :=
    (hc'.count_take (by omega) (by omega)).symm.trans (hc.count_take hl hu)
  rw [hy, hs] at hs'
  exact ⟨hy, Option.some.inj hs' ▸ he⟩

end

end Source

namespace Playfield

open Source

section

variable {source text text' rest : List UInt8} {earlier : List (List UInt8)} {y start : Nat}

theorem ofLines_append_of_le {ls : List (List UInt8)} (h : height ≤ ls.length)
    (more : List (List UInt8)) : ofLines (ls ++ more) = ofLines ls := by
  refine Playfield.ext fun p => ?_
  rw [get_ofLines, get_ofLines, List.getD_append _ _ _ _ (Nat.lt_of_lt_of_le p.y.isLt h)]

theorem get_parse_of_cutAt (hc : CutAt source y start earlier text rest) {p : Position}
    (hp : p.y = y) : (parse source).get p = (dropReturn text).getD p.x space := by
  rw [parse, get_ofLines, hp, hc.getD_lines]

theorem get_parse_of_loadedFrom {p : Position} {i : Nat} (h : LoadedFrom source p i) :
    source[i]? = some ((parse source).get p) := by
  obtain ⟨start, hs, rfl, hi⟩ := h
  obtain ⟨earlier, text, rest, hc⟩ := exists_cutAt hs
  rw [hc.lineEnd_eq, Nat.add_lt_add_iff_left] at hi
  have hp : dropReturn text <+: text := dropReturn_prefix_self text
  rw [hc.getElem?_eq (Nat.lt_of_lt_of_le hi hp.length_le), get_parse_of_cutAt hc rfl,
    List.getD_eq_getElem _ _ hi, hp.getElem hi, List.getElem?_eq_getElem]

theorem get_parse_of_not_loadedFrom {p : Position} (h : ∀ i, ¬ LoadedFrom source p i) :
    (parse source).get p = space := by
  cases hs : lineStart? source p.y with
  | none =>
    have hy : (lines source).getD p.y [] = [] :=
      List.getD_eq_default _ _ (lineStart?_eq_none_iff.mp hs)
    rw [parse, get_ofLines, hy]
    rfl
  | some start =>
    obtain ⟨earlier, text, rest, hc⟩ := exists_cutAt hs
    have hl : (dropReturn text).length ≤ p.x := by
      have hi := h (start + p.x)
      refine Nat.le_of_not_lt fun hx => hi ⟨start, hs, rfl, ?_⟩
      rw [hc.lineEnd_eq]
      omega
    rw [get_parse_of_cutAt hc rfl, List.getD_eq_default _ _ hl]

theorem parse_take_append (h : lineStart? source height = some start) (later : List UInt8) :
    parse (source.take start ++ later) = parse source := by
  obtain ⟨earlier, text, rest, hc⟩ := exists_cutAt h
  have ht : source.take start = unlines earlier := by rw [hc.eq, ← hc.start_eq, List.take_left]
  have hl : height ≤ (earlier.map dropReturn).length := by rw [List.length_map, hc.number]
  rw [ht, hc.eq, parse, parse, lines_unlines_append hc.plain, lines_unlines_append hc.plain,
    ofLines_append_of_le hl, ofLines_append_of_le hl]

theorem get_parse_replace (hc : CutAt source y start earlier text rest) (hn : newline ∉ text')
    (p : Position) : (parse (unlines earlier ++ (text' ++ rest))).get p =
      if p.y = y then (dropReturn text').getD p.x space else (parse source).get p := by
  split
  next hy => exact get_parse_of_cutAt (hc.replace hn) hy
  next hy => rw [parse, get_ofLines, hc.getD_lines_replace hn hy, parse, get_ofLines]

theorem parse_set {i : Nat} {b : UInt8} (hs : lineStart? source y = some start)
    (hl : start + 80 ≤ i) (hu : i < lineBreak source start) (hb : b ≠ newline) :
    parse (source.set i b) = parse source := by
  obtain ⟨earlier, text, rest, hc⟩ := exists_cutAt hs
  rw [hc.lineBreak_eq] at hu
  have hn : newline ∉ text.set (i - start) b := fun hm =>
    (List.mem_or_eq_of_mem_set hm).elim hc.unbroken (Ne.symm hb)
  have he : source.set i b = unlines earlier ++ (text.set (i - start) b ++ rest) := by
    have hst := hc.start_eq
    rw [hc.eq, List.set_append_right _ _ (by omega), hst, List.set_append_left _ _ (by omega)]
  refine Playfield.ext fun p => ?_
  have hx : p.x.val < 80 := p.x.isLt
  rw [he, get_parse_replace hc hn]
  split
  next hy =>
    rw [get_parse_of_cutAt hc hy, getD_dropReturn, getD_dropReturn, List.length_set,
      List.getElem?_set_ne (by omega), List.getD_eq_getElem?_getD, List.getD_eq_getElem?_getD,
      List.getElem?_set_ne (by omega)]
  next => rfl

/-- Without a byte past the last column, a carriage return in the last column can be dropped that
is not dropped with it. Nothing else is different. -/
theorem of_get_parse_eraseIdx_ne {i : Nat} (hs : lineStart? source y = some start)
    (hl : start + 80 ≤ i) (hu : i < lineBreak source start) {p : Position}
    (hne : (parse source).get p ≠ (parse (source.eraseIdx i)).get p) :
    p.x.val = 79 ∧ p.y = y ∧ i = start + 80 ∧ lineBreak source start = i + 1 ∧
      (parse source).get p = carriageReturn ∧ (parse (source.eraseIdx i)).get p = space := by
  obtain ⟨earlier, text, rest, hc⟩ := exists_cutAt hs
  rw [hc.lineBreak_eq] at hu ⊢
  have hn : newline ∉ text.eraseIdx (i - start) := fun hm =>
    hc.unbroken (List.mem_of_mem_eraseIdx hm)
  have he : source.eraseIdx i = unlines earlier ++ (text.eraseIdx (i - start) ++ rest) := by
    have hst := hc.start_eq
    rw [hc.eq, List.eraseIdx_append_of_length_le (by omega), hst,
      List.eraseIdx_append_of_lt_length (by omega)]
  have hx : p.x.val < 80 := p.x.isLt
  rw [he, get_parse_replace hc hn] at hne ⊢
  by_cases hy : (p.y : Nat) = y
  · have hk : text[p.x.val]? = (text.eraseIdx (i - start))[p.x.val]? := by
      rw [List.getElem?_eraseIdx, if_pos (by omega)]
    have hd : text.getD p.x space = (text.eraseIdx (i - start)).getD p.x space := by
      rw [List.getD_eq_getElem?_getD, List.getD_eq_getElem?_getD, hk]
    rw [if_pos hy, get_parse_of_cutAt hc hy, getD_dropReturn, getD_dropReturn, ← hd, ← hk,
      List.length_eraseIdx_of_lt (by omega), if_neg (by omega)] at hne ⊢
    split at hne
    next hr =>
      have hv : text.getD p.x space = carriageReturn := by
        rw [List.getD_eq_getElem?_getD, hr.2, Option.getD_some]
      rw [if_pos hr]
      exact ⟨by omega, hy, by omega, by omega, hv, rfl⟩
    next => exact absurd rfl hne
  · rw [if_neg hy] at hne
    exact absurd rfl hne

end

def positions : List Position :=
  (List.finRange height).flatMap fun y => (List.finRange width).map fun x => ⟨x, y⟩

theorem mem_positions (p : Position) : p ∈ positions :=
  List.mem_flatMap.mpr ⟨p.y, List.mem_finRange p.y,
    List.mem_map.mpr ⟨p.x, List.mem_finRange p.x, rfl⟩⟩

theorem nodup_positions : positions.Nodup := by
  refine List.nodup_flatMap.mpr ⟨fun y _ => ?_, ?_⟩
  · exact (List.nodup_finRange width).map fun x x' h => (Position.mk.inj h).1
  · refine (List.nodup_finRange height).imp fun {y y'} hy => List.disjoint_left.mpr ?_
    intro p hp hp'
    obtain ⟨x, -, rfl⟩ := List.mem_map.mp hp
    obtain ⟨x', -, he⟩ := List.mem_map.mp hp'
    exact hy (Position.mk.inj he).2.symm

theorem toList_eq_map_finRange {α : Type} {n : Nat} (v : Vector α n) :
    v.toList = (List.finRange n).map fun i => v[i] := by
  rw [← List.ofFn_eq_map, ← Vector.toList_ofFn]
  exact congrArg Vector.toList (by simp)

theorem flatMap_rows (field : Playfield) :
    field.rows.toList.flatMap (·.toList) = positions.map field.get := by
  have hc (y : Fin height) :
      field.rows[y].toList = (List.finRange width).map fun x => field.get ⟨x, y⟩ :=
    toList_eq_map_finRange field.rows[y]
  rw [toList_eq_map_finRange field.rows, positions, List.flatMap_map, List.map_flatMap]
  simp only [hc, List.map_map, Function.comp_def]

theorem occupied_eq_ncard (field : Playfield) :
    field.occupied = Set.ncard {p | field.get p ≠ space} := by
  classical
  let taken : Finset Position := (positions.filter fun p => field.get p != space).toFinset
  have hs : {p | field.get p ≠ space} = (taken : Set Position) := by
    ext p
    simp [taken, mem_positions]
  rw [hs, Set.ncard_coe_finset, List.toFinset_card_of_nodup (nodup_positions.filter _), occupied,
    flatMap_rows, List.countP_map, List.countP_eq_length_filter]
  rfl

theorem occupied_parse (source : List UInt8) :
    (parse source).occupied =
      Set.ncard {p | ∃ i b, LoadedFrom source p i ∧ source[i]? = some b ∧ b ≠ space} := by
  rw [occupied_eq_ncard]
  congr 1
  ext p
  constructor
  · intro hp
    by_cases h : ∃ i, LoadedFrom source p i
    · obtain ⟨i, hi⟩ := h
      exact ⟨i, _, hi, get_parse_of_loadedFrom hi, hp⟩
    · exact absurd (get_parse_of_not_loadedFrom fun i hi => h ⟨i, hi⟩) hp
  · rintro ⟨i, b, hi, hb, hne⟩
    rw [get_parse_of_loadedFrom hi, Option.some_inj] at hb
    rwa [Set.mem_ofPred_eq, hb]

theorem loading_by_position (source : List UInt8) :
    (∀ p i, LoadedFrom source p i → source[i]? = some ((parse source).get p)) ∧
    (∀ p, (∀ i, ¬ LoadedFrom source p i) → (parse source).get p = space) ∧
    (∀ stop later, lineStart? source 25 = some stop →
      parse (source.take stop ++ later) = parse source) ∧
    (∀ y start i, lineStart? source y = some start → start + 80 ≤ i → i < lineBreak source start →
      (∀ p, ¬ LoadedFrom source p i) ∧
      (∀ b, b ≠ newline → parse (source.set i b) = parse source) ∧
      ∀ p, (parse source).get p ≠ (parse (source.eraseIdx i)).get p →
        p.x.val = 79 ∧ p.y = y ∧ i = start + 80 ∧ lineBreak source start = i + 1 ∧
          (parse source).get p = carriageReturn ∧ (parse (source.eraseIdx i)).get p = space) ∧
    (loadSource source).records = [.fieldLoaded
      (Set.ncard {p | ∃ i b, LoadedFrom source p i ∧ source[i]? = some b ∧ b ≠ space})] := by
  refine ⟨fun _ _ => get_parse_of_loadedFrom, fun _ => get_parse_of_not_loadedFrom,
    fun _ later h => parse_take_append h later, fun y start i hs hl hu => ⟨fun p hp => ?_,
      fun _ => parse_set hs hl hu, fun _ => of_get_parse_eraseIdx_ne hs hl hu⟩, ?_⟩
  · have hx : p.x.val < 80 := p.x.isLt
    have hi := (hp.eq_of_le hs (by omega) (Nat.le_of_lt hu)).2
    omega
  · rw [← occupied_parse]
    rfl

/-- One byte more than fits into the first row after a carriage return in its last column, and one
byte after the last row. -/
def overlong : List UInt8 :=
  List.replicate 79 0x31 ++ [carriageReturn, 0x32] ++ List.replicate 25 newline ++ [0x33]

theorem loading_by_position_overlong :
    (parse overlong).get ⟨79, 0⟩ = carriageReturn ∧
    (parse (overlong.eraseIdx 80)).get ⟨79, 0⟩ = space ∧
    parse (overlong.set 80 0x34) = parse overlong ∧
    (∀ p, ¬ LoadedFrom overlong p 80) ∧
    (parse overlong).get ⟨0, 1⟩ = space ∧
    parse (overlong.take 106 ++ [0x34, 0x35]) = parse overlong := by
  obtain ⟨hl, hb, ht, hp, -⟩ := loading_by_position overlong
  obtain ⟨hn, hs, he⟩ := hp 0 0 80 rfl (by decide) (by decide +kernel)
  have hr : overlong[79]? = some ((parse overlong).get ⟨79, 0⟩) :=
    hl ⟨79, 0⟩ 79 ⟨0, rfl, rfl, by decide +kernel⟩
  have hz : (parse overlong).get ⟨79, 0⟩ ≠ (parse (overlong.eraseIdx 80)).get ⟨79, 0⟩ := by
    decide +kernel
  obtain ⟨-, -, -, -, -, hd⟩ := he _ hz
  refine ⟨(Option.some.inj hr).symm, hd, hs _ (by decide), hn, hb _ ?_,
    ht 106 _ (by decide +kernel)⟩
  rintro i ⟨start, hs, hi, hu⟩
  have h1 : lineStart? overlong 1 = some 82 := by decide +kernel
  obtain rfl : 82 = start := Option.some.inj (h1.symm.trans hs)
  have he : lineEnd overlong 82 = 82 := by decide +kernel
  omega

end Playfield

end Befunge
