import Befunge.Directions.Drawn
import Mathlib.Data.List.Infix

/-! Random directions are a script. Drawing from words that repeat follows the directions that the
accepted words name, in their order and again and again, wherever the rejected words stand. -/

namespace Befunge

namespace Direction

def all : Vector Direction 4 := #v[.right, .left, .up, .down]

theorem index_lt (w : UInt64) : (w >>> 62).toNat < 4 := by
  have hw := w.toNat_lt
  rw [UInt64.toNat_shiftRight, Nat.shiftRight_eq_div_pow]
  exact Nat.div_lt_of_lt_mul (by simpa using hw)

/-- The directions that the two highest bits name of the words in which bit 61 is clear. -/
def namedBy (words : List UInt64) : List Direction :=
  (words.filter fun w => !w.toNat.testBit 61).map fun w : UInt64 =>
    all.get ⟨(w >>> 62).toNat, index_lt w⟩

theorem shiftLeft_lt_iff (w : UInt64) :
    w <<< 2 < 0x8000000000000000 ↔ w.toNat.testBit 61 = false := by
  have hw := w.toNat_lt
  rw [UInt64.lt_iff_toNat_lt, UInt64.toNat_shiftLeft, Nat.shiftLeft_eq,
    Nat.testBit_eq_decide_div_mod_eq, decide_eq_false_iff_not]
  simp only [UInt64.reduceToNat, Nat.reduceMod, Nat.reducePow]
  omega

theorem ofWord?_eq (w : UInt64) :
    ofWord? w =
      if w.toNat.testBit 61 then none else some (all.get ⟨(w >>> 62).toNat, index_lt w⟩) := by
  have hi := index_lt w
  have hv : w >>> 62 = 0 ∨ w >>> 62 = 1 ∨ w >>> 62 = 2 ∨ w >>> 62 = 3 := by
    simp only [← UInt64.toNat_inj, UInt64.reduceToNat]
    omega
  simp only [ofWord?, shiftLeft_lt_iff]
  cases w.toNat.testBit 61 with
  | true => rfl
  | false => rcases hv with hv | hv | hv | hv <;> simp only [hv] <;> rfl

theorem namedBy_eq_filterMap (words : List UInt64) : namedBy words = words.filterMap ofWord? := by
  induction words with
  | nil => rfl
  | cons w words ih =>
    rw [List.filterMap_cons, ofWord?_eq, ← ih, namedBy, namedBy, List.filter_cons]
    cases w.toNat.testBit 61 <;> rfl

end Direction

namespace Cycle

variable {α : Type} {all rest : List α}

theorem next?_nil (h : all ≠ []) : (Cycle.mk [] all).next? = (Cycle.mk all all).next? := by
  obtain ⟨a, later, rfl⟩ := List.exists_cons_of_ne_nil h
  rfl

end Cycle

/-- What is left of a source after `k` directions. -/
def sourceAfter {σ : Type} [DirectionSource σ] (k : Nat) (s : σ) : σ :=
  (fun s => (DirectionSource.next s).2)^[k] s

open Direction

section

variable {words rest skipped later : List UInt64} {w : UInt64} {d : Direction} {n : Nat}

theorem draw?_cons_of_none (h : ofWord? w = none) (n : Nat) (rest words : List UInt64) :
    draw? (n + 1) (Cycle.mk (w :: rest) words) = draw? n (Cycle.mk rest words) := by
  have hn : WordSource.next (Cycle.mk (w :: rest) words) = (w, ⟨rest, words⟩) := rfl
  simp only [draw?, hn, h]

theorem draw?_cons_of_some (h : ofWord? w = some d) (n : Nat) (rest words : List UInt64) :
    draw? (n + 1) (Cycle.mk (w :: rest) words) = some (d, ⟨rest, words⟩) := by
  have hn : WordSource.next (Cycle.mk (w :: rest) words) = (w, ⟨rest, words⟩) := rfl
  simp only [draw?, hn, h]

theorem draw?_nil (h : words ≠ []) (n : Nat) :
    draw? n (Cycle.mk [] words) = draw? n (Cycle.mk words words) := by
  have hn : WordSource.next (Cycle.mk [] words) = WordSource.next (Cycle.mk words words) := by
    simp only [WordSource.next, Cycle.next?_nil h]
    obtain ⟨a, later, rfl⟩ := List.exists_cons_of_ne_nil h
    rfl
  cases n with
  | zero => rfl
  | succ n => rw [draw?, draw?, hn]

/-- Words that name nothing are skipped, one after the other. -/
theorem draw?_append_of_rejected (h : ∀ w ∈ skipped, ofWord? w = none) (n : Nat)
    (rest words : List UInt64) :
    draw? (skipped.length + n) (Cycle.mk (skipped ++ rest) words) =
      draw? n (Cycle.mk rest words) := by
  induction skipped with
  | nil => rw [List.length_nil, Nat.zero_add, List.nil_append]
  | cons w skipped ih =>
    obtain ⟨hw, hs⟩ := List.forall_mem_cons.mp h
    rw [List.length_cons, Nat.succ_add, List.cons_append, draw?_cons_of_none hw, ih hs]

theorem draw?_mono {ρ : Type} [WordSource ρ] {source : ρ} {result : Direction × ρ} {n k : Nat}
    (h : draw? n source = some result) (hk : n ≤ k) : draw? k source = some result := by
  induction n generalizing source k with
  | zero => contradiction
  | succ n ih =>
    obtain ⟨k, rfl⟩ := Nat.exists_eq_add_one.mpr (Nat.zero_lt_of_lt hk)
    rw [draw?] at h ⊢
    dsimp only at h ⊢
    split
    next hd => rwa [hd] at h
    next hd =>
      rw [hd] at h
      exact ih h (Nat.le_of_succ_le_succ hk)

theorem namedBy_append (words later : List UInt64) :
    namedBy (words ++ later) = namedBy words ++ namedBy later := by
  simp only [namedBy_eq_filterMap, List.filterMap_append]

theorem namedBy_eq_cons_iff {ds : List Direction} :
    namedBy words = d :: ds ↔ ∃ skipped w later, words = skipped ++ w :: later ∧
      (∀ w ∈ skipped, ofWord? w = none) ∧ ofWord? w = some d ∧ namedBy later = ds := by
  simp only [namedBy_eq_filterMap, List.filterMap_eq_cons_iff]

theorem namedBy_eq_nil_iff : namedBy words = [] ↔ ∀ w ∈ words, ofWord? w = none := by
  rw [namedBy_eq_filterMap, List.filterMap_eq_nil_iff]

/-- A draw ends before it has gone round once, and takes the next direction that is named. -/
theorem exists_draw (h : namedBy words ≠ []) (hr : rest <:+ words) :
    ∃ d later, later <:+ words ∧
      draw? words.length (Cycle.mk rest words) = some (d, ⟨later, words⟩) ∧
      (Cycle.mk (namedBy rest) (namedBy words)).next? =
        some (d, ⟨namedBy later, namedBy words⟩) := by
  obtain ⟨before, hb⟩ := hr
  have hl : before.length + rest.length = words.length := by rw [← hb, List.length_append]
  cases hn : namedBy rest with
  | cons d ds =>
    obtain ⟨skipped, w, later, rfl, hs, hw, rfl⟩ := namedBy_eq_cons_iff.mp hn
    rw [List.length_append, List.length_cons] at hl
    refine ⟨d, later, ⟨before ++ (skipped ++ [w]), by simp [← hb]⟩, ?_, rfl⟩
    have hd : draw? (skipped.length + 1) (Cycle.mk (skipped ++ w :: later) words) =
        some (d, ⟨later, words⟩) := by
      rw [draw?_append_of_rejected hs, draw?_cons_of_some hw]
    exact draw?_mono hd (by omega)
  | nil =>
    -- nothing is accepted up to the end, so the next accepted word lies before `rest`
    have hw : namedBy words = namedBy before := by
      rw [← hb, namedBy_append, hn, List.append_nil]
    obtain ⟨d, ds, hc⟩ := List.exists_cons_of_ne_nil h
    obtain ⟨skipped, w, later, rfl, hs, hd, rfl⟩ := namedBy_eq_cons_iff.mp (hw.symm.trans hc)
    rw [List.length_append, List.length_cons] at hl
    have hne : words ≠ [] := by
      rintro rfl
      exact h rfl
    have ha : words = skipped ++ w :: (later ++ rest) := by simp [← hb]
    have hdraw : draw? (rest.length + (skipped.length + 1)) (Cycle.mk rest words) =
        some (d, ⟨later ++ rest, words⟩) := by
      have hz := draw?_append_of_rejected (namedBy_eq_nil_iff.mp hn) (skipped.length + 1) [] words
      have hc := draw?_append_of_rejected hs 1 (w :: (later ++ rest)) words
      rw [List.append_nil, draw?_nil hne] at hz
      rw [← ha, draw?_cons_of_some hd] at hc
      rw [hz, hc]
    refine ⟨d, later ++ rest, ⟨skipped ++ [w], by simp [ha]⟩, draw?_mono hdraw (by omega), ?_⟩
    rw [hc, namedBy_append, hn, List.append_nil]
    rfl

theorem namedBy_ne_nil_iff : namedBy words ≠ [] ↔ ∃ w ∈ words, w.toNat.testBit 61 = false := by
  simp [namedBy]

theorem next_drawn (h : namedBy words ≠ []) (hr : rest <:+ words) :
    ∃ d later, later <:+ words ∧
      draw? words.length (Cycle.mk rest words) = some (d, ⟨later, words⟩) ∧
      DirectionSource.next (Drawn.mk (Cycle.mk rest words)) = (d, ⟨⟨later, words⟩⟩) ∧
      DirectionSource.next (Script.mk ⟨namedBy rest, namedBy words⟩) =
        (d, ⟨⟨namedBy later, namedBy words⟩⟩) := by
  obtain ⟨d, later, hl, hd, hs⟩ := exists_draw h hr
  refine ⟨d, later, hl, hd, ?_, ?_⟩
  · have hh : words.length ≤ WordSource.horizon (Cycle.mk rest words) := Nat.le_add_left _ _
    simp only [DirectionSource.next, draw?_mono hd hh]
  · simp only [DirectionSource.next, hs]

theorem directionsOf_drawn (h : namedBy words ≠ []) (hr : rest <:+ words) (m : Nat) :
    directionsOf m (Drawn.mk (Cycle.mk rest words)) =
      directionsOf m (Script.mk ⟨namedBy rest, namedBy words⟩) := by
  induction m generalizing rest with
  | zero => rfl
  | succ m ih =>
    obtain ⟨d, later, hl, -, hd, hs⟩ := next_drawn h hr
    rw [directionsOf, directionsOf, hd, hs]
    exact congrArg (d :: ·) (ih hl)

theorem exists_sourceAfter_eq (h : namedBy words ≠ []) (k : Nat) :
    ∃ rest, rest <:+ words ∧ sourceAfter k (Drawn.mk (Cycle.ofList words)) = ⟨⟨rest, words⟩⟩ := by
  induction k with
  | zero => exact ⟨words, List.suffix_rfl, rfl⟩
  | succ k ih =>
    obtain ⟨rest, hr, hk⟩ := ih
    obtain ⟨d, later, hl, -, hd, -⟩ := next_drawn h hr
    exact ⟨later, hl, by rw [sourceAfter, Function.iterate_succ_apply', ← sourceAfter, hk, hd]⟩

theorem draw?_eq_none (hne : words ≠ []) (h : ∀ w ∈ words, ofWord? w = none) (hr : rest <:+ words)
    (n : Nat) : draw? n (Cycle.mk rest words) = none := by
  induction n generalizing rest with
  | zero => rfl
  | succ n ih =>
    have hs : ∀ {rest}, rest <:+ words → rest ≠ [] →
        draw? (n + 1) (Cycle.mk rest words) = none := by
      intro rest hr hn
      obtain ⟨w, later, rfl⟩ := List.exists_cons_of_ne_nil hn
      rw [draw?_cons_of_none (h w (hr.subset List.mem_cons_self))]
      exact ih ((List.suffix_cons w later).trans hr)
    by_cases hn : rest = []
    · rw [hn, draw?_nil hne]
      exact hs List.suffix_rfl hne
    · exact hs hr hn

end

namespace Script

variable {all before rest : List Direction}

theorem directionsOf_nil (h : all ≠ []) (m : Nat) :
    directionsOf m (Script.mk ⟨[], all⟩) = directionsOf m (Script.mk ⟨all, all⟩) := by
  cases m with
  | zero => rfl
  | succ m =>
    have hn : DirectionSource.next (Script.mk ⟨[], all⟩) =
        DirectionSource.next (Script.mk ⟨all, all⟩) := by
      simp only [DirectionSource.next, Cycle.next?_nil h]
      obtain ⟨d, later, rfl⟩ := List.exists_cons_of_ne_nil h
      rfl
    rw [directionsOf, directionsOf, hn]

theorem directionsOf_add (rest all : List Direction) (m : Nat) :
    directionsOf (rest.length + m) (Script.mk ⟨rest, all⟩) =
      rest ++ directionsOf m (Script.mk ⟨[], all⟩) := by
  induction rest with
  | nil => rw [List.length_nil, Nat.zero_add, List.nil_append]
  | cons d rest ih =>
    rw [List.length_cons, Nat.succ_add]
    exact congrArg (d :: ·) ih

theorem directionsOf_length_add (h : all ≠ []) (m : Nat) :
    directionsOf (all.length + m) (ofList all) = all ++ directionsOf m (ofList all) := by
  rw [ofList, Cycle.ofList, directionsOf_add, directionsOf_nil h]

/-- The directions of a script are found by their number modulo its length. -/
theorem getElem?_directionsOf (h : all ≠ []) (hb : before ++ rest = all) {k m : Nat} (hk : k < m) :
    (directionsOf m (Script.mk ⟨rest, all⟩))[k]? = all[(before.length + k) % all.length]? := by
  induction m generalizing before rest k with
  | zero => contradiction
  | succ m ih =>
    have hs : ∀ {before rest}, before ++ rest = all → rest ≠ [] →
        (directionsOf (m + 1) (Script.mk ⟨rest, all⟩))[k]? =
          all[(before.length + k) % all.length]? := by
      intro before rest hb hn
      obtain ⟨d, later, rfl⟩ := List.exists_cons_of_ne_nil hn
      have hd : directionsOf (m + 1) (Script.mk ⟨d :: later, all⟩) =
          d :: directionsOf m (Script.mk ⟨later, all⟩) := rfl
      rw [hd]
      cases k with
      | zero =>
        have hl : before.length < all.length := by simp [← hb]
        rw [Nat.add_zero, Nat.mod_eq_of_lt hl, ← hb]
        simp
      | succ k =>
        have ha : (before ++ [d]) ++ later = all := by simp [← hb]
        rw [List.getElem?_cons_succ, ih ha (Nat.lt_of_succ_lt_succ hk), List.length_append,
          List.length_singleton, Nat.add_assoc, Nat.add_comm 1 k]
    by_cases hn : rest = []
    · have he : before.length = all.length := by rw [← hb, hn, List.append_nil]
      have hz := hs (List.nil_append all) h
      rw [List.length_nil, Nat.zero_add] at hz
      rw [hn, directionsOf_nil h, hz, he, Nat.add_mod_left]
    · exact hs hb hn

end Script

-- The position in a script has no bound here, so neither has the number of directions.
theorem drawn_directions_are_script {words : List UInt64} (hne : words ≠ []) :
    ((∃ w ∈ words, w.toNat.testBit 61 = false) →
      (∀ m, directionsOf m (Drawn.mk (Cycle.ofList words)) =
        directionsOf m (Script.ofList (namedBy words))) ∧
      (∀ m k, k < m → (directionsOf m (Script.ofList (namedBy words)))[k]? =
        (namedBy words)[k % (namedBy words).length]?) ∧
      (∀ m, directionsOf ((namedBy words).length + m) (Drawn.mk (Cycle.ofList words)) =
        namedBy words ++ directionsOf m (Drawn.mk (Cycle.ofList words))) ∧
      ∀ k, ∃ d left,
        draw? words.length (sourceAfter k (Drawn.mk (Cycle.ofList words))).words =
          some (d, left) ∧
        DirectionSource.next (sourceAfter k (Drawn.mk (Cycle.ofList words))) = (d, ⟨left⟩)) ∧
    ((∀ w ∈ words, w.toNat.testBit 61 = true) →
      ∀ rest, rest <:+ words → ∀ n, draw? n (Cycle.mk rest words) = none) := by
  refine ⟨fun ha => ?_, fun hr rest hs n => ?_⟩
  · have hn := namedBy_ne_nil_iff.mpr ha
    have hd : ∀ m, directionsOf m (Drawn.mk (Cycle.ofList words)) =
        directionsOf m (Script.ofList (namedBy words)) :=
      directionsOf_drawn hn List.suffix_rfl
    refine ⟨hd, fun m k hk => ?_, fun m => ?_, fun k => ?_⟩
    · have hk := Script.getElem?_directionsOf hn (List.nil_append _) hk
      rwa [List.length_nil, Nat.zero_add] at hk
    · rw [hd, hd, Script.directionsOf_length_add hn]
    · obtain ⟨rest, hr, he⟩ := exists_sourceAfter_eq hn k
      obtain ⟨d, later, -, hw, hx, -⟩ := next_drawn hn hr
      exact ⟨d, ⟨later, words⟩, by rw [he, hw], by rw [he, hx]⟩
  · refine draw?_eq_none hne (fun w hw => ?_) hs n
    rw [ofWord?_eq, hr w hw, if_pos rfl]

/-- Three directions, and a rejected word where the list starts again. -/
def wordsAround : List UInt64 :=
  [0x2000000000000000, 0xc000000000000000, 0x40000000000000ff, 0x9fffffffffffffff,
    0xe000000000000000]

def wordsRejected : List UInt64 := [0x2000000000000000, 0xffffffffffffffff]

theorem drawn_directions_are_script_around :
    namedBy wordsAround = [.down, .left, .up] ∧
    directionsOf 7 (Drawn.mk (Cycle.ofList wordsAround)) =
      [.down, .left, .up, .down, .left, .up, .down] ∧
    ∀ n, draw? n (Cycle.ofList wordsRejected) = none := by
  have hw : namedBy wordsAround = [.down, .left, .up] := by decide +kernel
  have hna : wordsAround ≠ [] := by decide
  have hnr : wordsRejected ≠ [] := by decide
  obtain ⟨he, -⟩ := (drawn_directions_are_script hna).1
    ⟨0xc000000000000000, by decide, by decide +kernel⟩
  have hr : ∀ w ∈ wordsRejected, w.toNat.testBit 61 = true :=
    List.all_eq_true.mp (by decide +kernel)
  refine ⟨hw, ?_, (drawn_directions_are_script hnr).2 hr _ List.suffix_rfl⟩
  rw [he, hw]
  rfl

end Befunge
