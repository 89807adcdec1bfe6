import Befunge.Proofs.Step
import Befunge.Proofs.Words
import Mathlib.Data.Rat.Floor

/-! Division of words and division of integers. The quotient is the exact one rounded down for every
pair of words but one, the remainder is always exact, and nothing on the way to them overflows. -/

namespace Befunge

open Text.Decimal (word? word?_toInt)

theorem floor_div_of_nonneg (a : Int) {b : Int} (hb : 0 ≤ b) : ⌊(a : ℚ) / b⌋ = a.fdiv b := by
  obtain ⟨d, rfl⟩ := Int.eq_ofNat_of_zero_le hb
  rw [Int.cast_natCast, Rat.floor_intCast_div_natCast, Int.fdiv_eq_ediv_of_nonneg a hb]

theorem floor_div_eq_fdiv (a b : Int) : ⌊(a : ℚ) / b⌋ = a.fdiv b := by
  rcases Int.le_total 0 b with hb | hb
  · exact floor_div_of_nonneg a hb
  · have h := floor_div_of_nonneg (-a) (Int.neg_nonneg.mpr hb)
    rwa [Int.cast_neg, Int.cast_neg, neg_div_neg_eq, Int.neg_fdiv_neg] at h

theorem fmod_range (a : Int) {b : Int} (hb : b ≠ 0) :
    (0 ≤ a.fmod b ∧ a.fmod b < b) ∨ (b < a.fmod b ∧ a.fmod b ≤ 0) := by
  rcases Int.lt_or_gt_of_ne hb with hn | hp
  · have h0 := Int.fmod_nonneg_of_pos (-a) (Int.neg_pos.mpr hn)
    have hl := Int.fmod_lt_of_pos (-a) (Int.neg_pos.mpr hn)
    rw [Int.neg_fmod_neg] at h0 hl
    omega
  · exact .inl ⟨Int.fmod_nonneg_of_pos a hp, Int.fmod_lt_of_pos a hp⟩

/-- Only one quotient of integers from the range of the words lies outside of it. -/
theorem fdiv_fits_iff {a b : Int} (hl : -2 ^ 63 ≤ a) (hu : a < 2 ^ 63) (hb : b ≠ 0) :
    (-2 ^ 63 ≤ a.fdiv b ∧ a.fdiv b < 2 ^ 63) ↔ ¬ (a = -2 ^ 63 ∧ b = -1) := by
  rcases Int.lt_or_gt_of_ne hb with hn | hp
  · have hp := Int.neg_pos.mpr hn
    rw [← Int.neg_fdiv_neg, Int.fdiv_eq_ediv_of_nonneg _ (Int.le_of_lt hp),
      Int.le_ediv_iff_mul_le hp, Int.ediv_lt_iff_lt_mul hp]
    omega
  · rw [Int.fdiv_eq_ediv_of_nonneg _ (Int.le_of_lt hp), Int.le_ediv_iff_mul_le hp,
      Int.ediv_lt_iff_lt_mul hp]
    omega

variable {lhs rhs : Int64}

theorem toInt_ne_zero (h : rhs ≠ 0) : rhs.toInt ≠ 0 := fun hr => h ((eq_zero_iff rhs).mpr hr)

theorem minValue_and_neg_one_iff :
    (lhs = Int64.minValue ∧ rhs = -1) ↔ (lhs.toInt = -2 ^ 63 ∧ rhs.toInt = -1) := by
  rw [← Int64.toInt_inj, ← Int64.toInt_inj]
  exact Iff.rfl

theorem quotient_fits_iff (h : rhs ≠ 0) :
    (-2 ^ 63 ≤ lhs.toInt.fdiv rhs.toInt ∧ lhs.toInt.fdiv rhs.toInt < 2 ^ 63) ↔
      ¬ (lhs = Int64.minValue ∧ rhs = -1) := by
  rw [minValue_and_neg_one_iff]
  exact fdiv_fits_iff lhs.le_toInt lhs.toInt_lt (toInt_ne_zero h)

theorem toInt_floorDiv (h : rhs ≠ 0) (hx : ¬ (lhs = Int64.minValue ∧ rhs = -1)) :
    (floorDiv lhs rhs).toInt = lhs.toInt.fdiv rhs.toInt := by
  obtain ⟨hl, hu⟩ := (quotient_fits_iff h).mpr hx
  rw [floorDiv_eq_ofInt, Int64.toInt_ofInt_of_le hl hu]

theorem toInt_floorMod (h : rhs ≠ 0) :
    (floorMod lhs rhs).toInt = lhs.toInt.fmod rhs.toInt := by
  have hl := rhs.le_toInt
  have hu := rhs.toInt_lt
  have hr := fmod_range lhs.toInt (toInt_ne_zero h)
  rw [floorMod_eq_ofInt h, Int64.toInt_ofInt_of_le (by omega) (by omega)]

/-- Multiplied out in words, in which the one quotient that does not fit has wrapped. -/
theorem floorDiv_mul_add_floorMod (h : rhs ≠ 0) :
    floorDiv lhs rhs * rhs + floorMod lhs rhs = lhs := by
  have hr : rhs = Int64.ofInt rhs.toInt := (Int64.ofInt_toInt rhs).symm
  calc floorDiv lhs rhs * rhs + floorMod lhs rhs
      = Int64.ofInt (lhs.toInt.fdiv rhs.toInt) * Int64.ofInt rhs.toInt +
          Int64.ofInt (lhs.toInt.fmod rhs.toInt) := by
        rw [← floorDiv_eq_ofInt, ← floorMod_eq_ofInt h, ← hr]
    _ = Int64.ofInt (lhs.toInt.fdiv rhs.toInt * rhs.toInt + lhs.toInt.fmod rhs.toInt) := by
        rw [Int64.ofInt_add, Int64.ofInt_mul]
    _ = lhs := by rw [Int.fdiv_mul_add_fmod, Int64.ofInt_toInt]

/-- What a division that rounds down has for its results. -/
structure RoundsDown (lhs rhs quotient remainder : Int64) : Prop where
  quotient_eq : ¬ (lhs = Int64.minValue ∧ rhs = -1) →
    quotient.toInt = ⌊(lhs.toInt : ℚ) / rhs.toInt⌋
  quotient_of_overflow : lhs = Int64.minValue → rhs = -1 → quotient = Int64.minValue
  fits_iff : (-2 ^ 63 ≤ ⌊(lhs.toInt : ℚ) / rhs.toInt⌋ ∧ ⌊(lhs.toInt : ℚ) / rhs.toInt⌋ < 2 ^ 63) ↔
    ¬ (lhs = Int64.minValue ∧ rhs = -1)
  remainder_eq : remainder.toInt = lhs.toInt - rhs.toInt * ⌊(lhs.toInt : ℚ) / rhs.toInt⌋
  remainder_sign : remainder = 0 ∨ remainder.toInt.sign = rhs.toInt.sign
  remainder_lt : remainder.toInt.natAbs < rhs.toInt.natAbs
  identity : quotient * rhs + remainder = lhs

theorem roundsDown (h : rhs ≠ 0) : RoundsDown lhs rhs (floorDiv lhs rhs) (floorMod lhs rhs) := by
  have hr := fmod_range lhs.toInt (toInt_ne_zero h)
  refine ⟨fun hx => ?_, ?_, ?_, ?_, ?_, ?_, floorDiv_mul_add_floorMod h⟩
  · rw [floor_div_eq_fdiv, toInt_floorDiv h hx]
  · rintro rfl rfl
    decide
  · rw [floor_div_eq_fdiv]
    exact quotient_fits_iff h
  · rw [floor_div_eq_fdiv, toInt_floorMod h, Int.fmod_def]
  · rw [eq_zero_iff, toInt_floorMod h]
    rcases hr with ⟨h0, hl⟩ | ⟨hl, h0⟩
    · rcases Int.lt_or_eq_of_le h0 with hp | he
      · rw [Int.sign_eq_one_of_pos hp, Int.sign_eq_one_of_pos (Int.lt_trans hp hl)]
        exact .inr rfl
      · exact .inl he.symm
    · rcases Int.lt_or_eq_of_le h0 with hn | he
      · rw [Int.sign_eq_neg_one_of_neg hn, Int.sign_eq_neg_one_of_neg (Int.lt_trans hl hn)]
        exact .inr rfl
      · exact .inl he
  · rw [toInt_floorMod h]
    omega

/-- The quotient of words rounded toward zero, which a zero divisor does not have. -/
def quotient? (lhs rhs : Int64) : Option Int64 := if rhs = 0 then none else some (lhs / rhs)

def remainder? (lhs rhs : Int64) : Option Int64 := if rhs = 0 then none else some (lhs % rhs)

/-- The quotient rounded down, where a difference that does not fit has no result. -/
def floorDiv? (lhs rhs : Int64) : Option Int64 :=
  if rhs = 0 then some 0
  else do
    let q ← quotient? lhs rhs
    let r ← remainder? lhs rhs
    if r ≠ 0 ∧ (lhs < 0 ↔ ¬ rhs < 0) then word? (q.toInt - 1) else some q

/-- The remainder that goes with it, where a sum that does not fit has no result. -/
def floorMod? (lhs rhs : Int64) : Option Int64 :=
  if rhs = 0 then some 0
  else do
    let r ← remainder? lhs rhs
    if r ≠ 0 ∧ (r < 0 ↔ ¬ rhs < 0) then word? (r.toInt + rhs.toInt) else some r

/-- A quotient that is corrected leaves something over, so it is none of a division by minus one. -/
theorem toInt_floorDiv_of_correction (h : rhs ≠ 0)
    (hc : lhs % rhs ≠ 0 ∧ (lhs < 0 ↔ ¬ rhs < 0)) :
    (floorDiv lhs rhs).toInt = (lhs / rhs).toInt - 1 := by
  have hne : rhs ≠ -1 := by
    rintro rfl
    have hm : (lhs % -1).toInt = lhs.toInt.tmod (-1) := Int64.toInt_mod lhs (-1)
    rw [Int.tmod_neg, Int.tmod_one] at hm
    exact hc.1 ((eq_zero_iff _).mpr hm)
  have hi : lhs.toInt.tmod rhs.toInt ≠ 0 ∧ (lhs.toInt < 0 ↔ ¬ rhs.toInt < 0) := by
    simpa only [ne_eq, eq_zero_iff, lt_zero_iff, Int64.toInt_mod] using hc
  rw [toInt_floorDiv h fun hx => hne hx.2, fdiv_eq_ite (toInt_ne_zero h), if_pos hi,
    Int64.toInt_div_of_ne_right lhs rhs hne]

theorem toInt_floorMod_of_correction (h : rhs ≠ 0)
    (hc : lhs % rhs ≠ 0 ∧ (lhs % rhs < 0 ↔ ¬ rhs < 0)) :
    (floorMod lhs rhs).toInt = (lhs % rhs).toInt + rhs.toInt := by
  have hi : lhs.toInt.tmod rhs.toInt ≠ 0 ∧ (lhs.toInt.tmod rhs.toInt < 0 ↔ ¬ rhs.toInt < 0) := by
    simpa only [ne_eq, eq_zero_iff, lt_zero_iff, Int64.toInt_mod] using hc
  rw [toInt_floorMod h, fmod_eq_ite, if_pos hi, Int64.toInt_mod]

theorem floorDiv?_eq (lhs rhs : Int64) : floorDiv? lhs rhs = some (floorDiv lhs rhs) := by
  by_cases h : rhs = 0
  · rw [floorDiv?, floorDiv, if_pos h, if_pos h]
  · have hd : floorDiv? lhs rhs = if lhs % rhs ≠ 0 ∧ (lhs < 0 ↔ ¬ rhs < 0) then
        word? ((lhs / rhs).toInt - 1) else some (lhs / rhs) := by
      rw [floorDiv?, quotient?, remainder?, if_neg h, if_neg h, if_neg h]
      rfl
    by_cases hc : lhs % rhs ≠ 0 ∧ (lhs < 0 ↔ ¬ rhs < 0)
    · rw [hd, if_pos hc, ← toInt_floorDiv_of_correction h hc, word?_toInt]
    · rw [hd, if_neg hc, floorDiv, if_neg h, if_neg hc]

theorem floorMod?_eq (lhs rhs : Int64) : floorMod? lhs rhs = some (floorMod lhs rhs) := by
  by_cases h : rhs = 0
  · rw [floorMod?, floorMod, if_pos h, if_pos h]
  · have hd : floorMod? lhs rhs = if lhs % rhs ≠ 0 ∧ (lhs % rhs < 0 ↔ ¬ rhs < 0) then
        word? ((lhs % rhs).toInt + rhs.toInt) else some (lhs % rhs) := by
      rw [floorMod?, remainder?, if_neg h, if_neg h]
      rfl
    by_cases hc : lhs % rhs ≠ 0 ∧ (lhs % rhs < 0 ↔ ¬ rhs < 0)
    · rw [hd, if_pos hc, ← toInt_floorMod_of_correction h hc, word?_toInt]
    · rw [hd, if_neg hc, floorMod, if_neg h, if_neg hc]

namespace Machine

variable {σ ι ω : Type} [DirectionSource σ] [InputSource ι] [OutputSink ω]

theorem step_of_operate {m : Machine σ ι ω} {op : Operator} (ho : m.order = some (.operate op)) :
    m.step.answer = .ok () ∧ m.step.machine = (m.mapStack (·.operate op)).proceed := by
  rw [step_of_order ho]
  exact ⟨rfl, rfl⟩

theorem division_rounds_down :
    (∀ lhs rhs : Int64, rhs ≠ 0 →
      RoundsDown lhs rhs (floorDiv lhs rhs) (floorMod lhs rhs)) ∧
    (∀ lhs : Int64, floorDiv lhs 0 = 0 ∧ floorMod lhs 0 = 0) ∧
    (∀ lhs rhs : Int64, floorDiv? lhs rhs = some (floorDiv lhs rhs) ∧
      floorMod? lhs rhs = some (floorMod lhs rhs)) ∧
    ∀ {σ ι ω : Type} [DirectionSource σ] [InputSource ι] [OutputSink ω] (m : Machine σ ι ω),
      (m.order = some (.operate .divide) → m.step.answer = .ok () ∧ m.step.machine =
        (m.mapStack fun s => s.pop.pop.push (floorDiv s.pop.top s.top)).proceed) ∧
      (m.order = some (.operate .modulo) → m.step.answer = .ok () ∧ m.step.machine =
        (m.mapStack fun s => s.pop.pop.push (floorMod s.pop.top s.top)).proceed) :=
  ⟨fun _ _ => roundsDown, fun lhs => ⟨floorDiv_zero lhs, floorMod_zero lhs⟩,
    fun lhs rhs => ⟨floorDiv?_eq lhs rhs, floorMod?_eq lhs rhs⟩,
    fun _ => ⟨step_of_operate, step_of_operate⟩⟩

/-- Has the one quotient before it that does not fit, and then a remainder that is corrected. -/
def dividing : Machine Script :=
  { start (.ofLines ["/%".toList.map Char.toUInt8]) (.ofBytes []) .unlimited (.ofList []) with
    stack := .ofList [7, Int64.minValue, -1] }

theorem division_rounds_down_dividing :
    (-1 : Int64) ≠ 0 ∧ RoundsDown Int64.minValue (-1) Int64.minValue 0 ∧
    dividing.order = some (.operate .divide) ∧
    dividing.step.machine.stack.toList = [7, Int64.minValue] ∧
    dividing.step.machine.order = some (.operate .modulo) ∧
    dividing.step.machine.step.machine.stack.toList = [Int64.minValue + 7] := by
  obtain ⟨hr, -, -, hs⟩ := division_rounds_down
  have hd : dividing.order = some (.operate .divide) := by decide +kernel
  have hm : dividing.step.machine.order = some (.operate .modulo) := by decide +kernel
  refine ⟨by decide, hr Int64.minValue (-1) (by decide), hd, ?_, hm, ?_⟩
  · rw [((hs dividing).1 hd).2]
    decide +kernel
  · rw [((hs dividing.step.machine).2 hm).2, ((hs dividing).1 hd).2]
    decide +kernel

end Machine

end Befunge
