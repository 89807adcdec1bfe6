import Befunge.Proofs.Lines

/-! Listings as sources. The listing of a surface loads as the surface that it shows, and a source
that loads as the same surface can do without the last newline, but not with fewer bytes. -/

namespace Befunge.Playfield

open Source

theorem ofLines_trimmedRows (field : Playfield) : ofLines field.trimmedRows = field := by
  refine Playfield.ext fun p => ?_
  rw [get_ofLines, getD_trimmedRows, getD_withoutTrailing fun _ => eq_of_beq, getD_fullRows]

theorem forall_mem_trimmedRows {field : Playfield} {P : UInt8 → Prop}
    (h : ∀ p, P (field.get p)) : ∀ row ∈ field.trimmedRows, ∀ b ∈ row, P b := by
  intro row hr b hb
  rw [trimmedRows_eq] at hr
  obtain ⟨full, hf, rfl⟩ := List.mem_map.mp (mem_of_mem_withoutTrailing hr)
  exact forall_mem_fullRows h full hf b (mem_of_mem_withoutTrailing hb)

/-- Beyond the end of its line a row holds spaces, which are not listed. -/
theorem length_getD_trimmedRows_le (lines : List (List UInt8)) (y : Nat) :
    ((ofLines lines).trimmedRows.getD y []).length ≤ (lines.getD y []).length := by
  rw [getD_trimmedRows]
  refine length_withoutTrailing_le (d := space) (by simp) fun x hx => ?_
  by_cases hp : x < width ∧ y < height
  · have hg := getD_fullRows (ofLines lines) ⟨⟨x, hp.1⟩, ⟨y, hp.2⟩⟩
    rw [hg, get_ofLines]
    exact List.getD_eq_default _ _ hx
  · exact getD_fullRows_of_not hp

theorem length_trimmedRows_le (lines : List (List UInt8)) :
    (ofLines lines).trimmedRows.length ≤ lines.length := by
  rw [trimmedRows_eq]
  refine length_withoutTrailing_le (d := []) rfl fun y hy => ?_
  rw [← getD_withoutTrailing fun _ => List.isEmpty_iff.mp, ← trimmedRows_eq]
  have hl := length_getD_trimmedRows_le lines y
  rw [List.getD_eq_default lines [] hy] at hl
  exact List.eq_nil_of_length_eq_zero (Nat.le_zero.mp hl)

theorem shown_range (b : UInt8) : 0x20 ≤ shown b ∧ shown b ≤ 0x7e := by
  unfold shown
  split
  next h => exact h
  next => decide

theorem shown_eq_self_iff {b : UInt8} : shown b = b ↔ 0x20 ≤ b ∧ b ≤ 0x7e := by
  constructor
  · intro h
    rw [← h]
    exact shown_range b
  · exact fun h => if_pos h

theorem mask_eq_self_iff {field : Playfield} :
    field.mask = field ↔ ∀ p, 0x20 ≤ field.get p ∧ field.get p ≤ 0x7e := by
  rw [Playfield.ext_iff]
  simp only [get_mask, shown_eq_self_iff]

theorem mask_ofLines (lines : List (List UInt8)) :
    (ofLines lines).mask = ofLines (lines.map (·.map shown)) := by
  refine Playfield.ext fun p => ?_
  have hr : (lines.map (·.map shown)).getD p.y [] = (lines.getD p.y []).map shown :=
    List.getD_map lines [] (·.map shown)
  have hs : shown space = space := rfl
  rw [get_mask, get_ofLines, get_ofLines, hr, ← hs, List.getD_map, hs]

theorem mask_mask (field : Playfield) : field.mask.mask = field.mask := by
  refine mask_eq_self_iff.mpr fun p => ?_
  rw [get_mask]
  exact shown_range (field.get p)

theorem plain_of_mem_listed (field : Playfield) : ∀ row ∈ field.mask.trimmedRows, Plain row := by
  have hs : ∀ row ∈ field.mask.trimmedRows, ∀ b ∈ row, 0x20 ≤ b ∧ b ≤ 0x7e :=
    forall_mem_trimmedRows (P := fun b => 0x20 ≤ b ∧ b ≤ 0x7e)
      (mask_eq_self_iff.mp (mask_mask field))
  refine fun row hr => ⟨fun hn => ?_, fun hc => ?_⟩
  · exact absurd (hs row hr _ hn) (by decide)
  · exact absurd (hs row hr _ (List.mem_of_mem_getLast? hc)) (by decide)

theorem parse_listing (field : Playfield) : parse field.listing = field.mask := by
  rw [parse, listing, lines_unlines (plain_of_mem_listed field), ofLines_append_nil,
    ofLines_trimmedRows]

theorem length_unlines_lines_le (source : List UInt8) :
    (unlines (lines source)).length ≤ source.length + 1 := by
  have hp : (unlines (pieces source)).length = source.length + 1 := by
    rw [unlines_pieces, List.length_append, List.length_singleton]
  rw [← hp, lines]
  refine length_unlines_le (Nat.le_of_eq (List.length_map _)) fun y => ?_
  rw [show ([] : List UInt8) = dropReturn [] from rfl, List.getD_map]
  exact (dropReturn_prefix_self _).length_le

theorem length_listing_le {field : Playfield} {source : List UInt8}
    (h : parse source = field.mask) : field.listing.length ≤ source.length + 1 := by
  rw [listing, ← h, parse]
  have hr : (unlines (ofLines (lines source)).trimmedRows).length ≤
      (unlines (lines source)).length :=
    length_unlines_le (length_trimmedRows_le _) (length_getD_trimmedRows_le _)
  exact Nat.le_trans hr (length_unlines_lines_le source)

theorem listing_inverse_up_to_mask (field : Playfield) :
    parse field.listing = field.mask ∧
    (parse field.listing = field ↔ ∀ p, 0x20 ≤ field.get p ∧ field.get p ≤ 0x7e) ∧
    (parse field.listing).listing = field.listing ∧
    (∀ other : Playfield, field.listing = other.listing ↔ field.mask = other.mask) ∧
    ∀ source, parse source = field.mask → field.listing.length - 1 ≤ source.length := by
  have hl : field.mask.listing = field.listing := by rw [listing, mask_mask, listing]
  refine ⟨parse_listing field, ?_, ?_, fun other => ⟨fun h => ?_, fun h => ?_⟩, fun source h => ?_⟩
  · rw [parse_listing, mask_eq_self_iff]
  · rw [parse_listing, hl]
  · rw [← parse_listing, h, parse_listing]
  · rw [listing, h, listing]
  · exact Nat.sub_le_of_le_add (length_listing_le h)

/-- The rows of a surface that has an empty row between two others, and a byte that is not shown. -/
def blotted : List (List UInt8) := ["v".toList.map Char.toUInt8, [], [0x3e, 0x20, 0x07]]

theorem listing_inverse_up_to_mask_blotted :
    parse ("v\n\n> .".toList.map Char.toUInt8) = (ofLines blotted).mask ∧
    (ofLines blotted).listing.length - 1 ≤ 6 := by
  have hl : lines ("v\n\n> .".toList.map Char.toUInt8) = blotted.map (·.map shown) := by decide
  have hp : parse ("v\n\n> .".toList.map Char.toUInt8) = (ofLines blotted).mask := by
    rw [parse, hl, mask_ofLines]
  obtain ⟨-, -, -, -, h⟩ := listing_inverse_up_to_mask (ofLines blotted)
  exact ⟨hp, h _ hp⟩

end Befunge.Playfield
