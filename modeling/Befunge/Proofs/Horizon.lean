import Befunge.Directions.Xoshiro
import Befunge.Proofs.FilteredWords
import Mathlib.Data.Fintype.Pigeonhole
import Mathlib.Data.Fintype.Prod

/-! How long a draw has to wait. The states of a source of words repeat sooner or later, and a draw
that has met no word to its liking by then never ends. -/

namespace Befunge

open WordSource

section

variable {ρ : Type} [WordSource ρ] {s : ρ}

theorem after_add (n k : Nat) (s : ρ) : after (n + k) s = after k (after n s) := by
  induction n generalizing s with
  | zero => rw [Nat.zero_add]; rfl
  | succ n ih => rw [Nat.succ_add, after, after, ih]

/-- From the first repetition on, a source has nothing new to give. -/
theorem exists_lt_of_after_eq {i j : Nat} (hij : i < j) (h : after i s = after j s) (n : Nat) :
    ∃ k < j, after k s = after n s := by
  induction n using Nat.strongRecOn with
  | ind n ih =>
    by_cases hn : n < j
    · exact ⟨n, hn, rfl⟩
    · obtain ⟨d, rfl⟩ := Nat.exists_eq_add_of_le (Nat.le_of_not_lt hn)
      obtain ⟨k, hk, he⟩ := ih (i + d) (by omega)
      exact ⟨k, hk, by rw [he, after_add, after_add, h]⟩

theorem exists_lt_horizon_of_after_eq {i j : Nat} (hij : i < j) (hj : j ≤ horizon s)
    (h : after i s = after j s) (n : Nat) : ∃ k < horizon s, word k s = word n s := by
  obtain ⟨k, hk, he⟩ := exists_lt_of_after_eq hij h n
  exact ⟨k, Nat.lt_of_lt_of_le hk hj, by rw [word, word, he]⟩

theorem draw?_eq_none_iff {n : Nat} :
    draw? n s = none ↔ ∀ k < n, Direction.ofWord? (word k s) = none := by
  induction n generalizing s with
  | zero => simp [draw?]
  | succ n ih =>
    have hw : ∀ k, word (k + 1) s = word k (next s).2 := fun _ => rfl
    rw [Nat.forall_lt_succ_left]
    simp only [hw, draw?]
    cases h : Direction.ofWord? (next s).1 with
    | some d => simp [word, after, h]
    | none => simp [word, after, h, ih]

variable [LawfulWordSource ρ]

/-- A draw that waits for all words up to the horizon in vain would wait for ever. -/
theorem draw?_horizon_eq_none_iff : draw? (horizon s) s = none ↔ ∀ n, draw? n s = none := by
  refine ⟨fun h n => draw?_eq_none_iff.mpr fun k _ => ?_, fun h => h _⟩
  obtain ⟨i, hi, hw⟩ := LawfulWordSource.exists_lt_horizon s k
  rw [← hw]
  exact draw?_eq_none_iff.mp h i hi

theorem next_drawn_of_draw? {n : Nat} {d : Direction} {rest : ρ} (h : draw? n s = some (d, rest)) :
    DirectionSource.next (Drawn.mk s) = (d, ⟨rest⟩) := by
  cases hs : draw? (horizon s) s with
  | none =>
    rw [draw?_horizon_eq_none_iff.mp hs n] at h
    contradiction
  | some result =>
    have hr := draw?_mono hs (Nat.le_max_right n (horizon s))
    rw [draw?_mono h (Nat.le_max_left n (horizon s))] at hr
    cases hr
    simp only [DirectionSource.next, hs]

end

namespace Cycle

theorem after_length (rest all : List UInt64) :
    after rest.length (Cycle.mk rest all) = Cycle.mk [] all := by
  induction rest with
  | nil => rfl
  | cons w rest ih => exact ih

/-- Once round a list that is not empty. -/
theorem after_lap (w : UInt64) (words : List UInt64) :
    after (words.length + 1) (Cycle.mk [] (w :: words)) = Cycle.mk [] (w :: words) :=
  after_length words (w :: words)

instance : LawfulWordSource (Cycle UInt64) where
  exists_lt_horizon := by
    rintro ⟨rest, all⟩
    cases all with
    | nil =>
      refine exists_lt_horizon_of_after_eq (i := rest.length) (j := rest.length + 1)
        (Nat.lt_succ_self _) Nat.le.refl ?_
      rw [after_add, after_length]
      rfl
    | cons w words =>
      have hj : rest.length + (words.length + 1) ≤ rest.length + 1 + (words.length + 1) := by omega
      refine exists_lt_horizon_of_after_eq (i := rest.length) (by omega) hj ?_
      rw [after_add, after_length, after_lap]

end Cycle

namespace Xoshiro

def parts (g : Xoshiro) : (Fin (2 ^ 64) × Fin (2 ^ 64)) × Fin (2 ^ 64) × Fin (2 ^ 64) :=
  ((g.s0.toFin, g.s1.toFin), g.s2.toFin, g.s3.toFin)

theorem parts_inj {g g' : Xoshiro} (h : g.parts = g'.parts) : g = g' := by
  cases g
  cases g'
  simpa [parts, UInt64.toFin_inj, and_assoc] using h

/-- There are no more states than the horizon counts. -/
theorem exists_after_eq (g : Xoshiro) :
    ∃ i j, i < j ∧ j ≤ horizon g ∧ after i g = after j g := by
  have hc : Fintype.card ((Fin (2 ^ 64) × Fin (2 ^ 64)) × Fin (2 ^ 64) × Fin (2 ^ 64)) <
      Fintype.card (Fin (2 ^ 256 + 1)) := by
    simp only [Fintype.card_prod, Fintype.card_fin]
    decide
  obtain ⟨i, j, hne, hp⟩ :=
    Fintype.exists_ne_map_eq_of_card_lt (fun n : Fin (2 ^ 256 + 1) => (after n.val g).parts) hc
  have he : after i.val g = after j.val g := parts_inj hp
  rcases Nat.lt_or_gt_of_ne (Fin.val_ne_of_ne hne) with h | h
  · exact ⟨i, j, h, Nat.le_of_lt_succ j.isLt, he⟩
  · exact ⟨j, i, h, Nat.le_of_lt_succ i.isLt, he.symm⟩

instance : LawfulWordSource Xoshiro where
  exists_lt_horizon g := by
    obtain ⟨i, j, hij, hj, he⟩ := exists_after_eq g
    exact exists_lt_horizon_of_after_eq hij hj he

end Xoshiro

end Befunge
