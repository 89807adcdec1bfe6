import Befunge.Text.Blank

/-! Decimal numerals. Writing gives the shortest numeral of an integer; reading takes the
numeral at the head of a text and ignores what follows it. -/

namespace Befunge.Text.Decimal

def ofInt (i : Int) : List Char :=
  (if i < 0 then ['-'] else []) ++ Nat.toDigits 10 i.natAbs

def text (i : Int) : String := String.ofList (ofInt i)

def pair (x y : Int) : String := "(" ++ text x ++ ", " ++ text y ++ ")"

/-- The sign before a numeral and the rest; a missing sign counts as plus. -/
def splitSign : List Char → Bool × List Char
  | '-' :: rest => (true, rest)
  | '+' :: rest => (false, rest)
  | rest => (false, rest)

/-- The integer at the head of the text, after blanks and at most one sign, as far as its
digits reach. -/
def leading? (text : List Char) : Option Int :=
  let (negative, unsigned) := splitSign (trimStart text)
  match unsigned.takeWhile Char.isDigit with
  | [] => none
  | digits =>
    let magnitude : Int := Nat.ofDigitChars 10 digits 0
    some (if negative then -magnitude else magnitude)

def word? (i : Int) : Option Int64 :=
  if Int64.minValue.toInt ≤ i ∧ i ≤ Int64.maxValue.toInt then some (Int64.ofInt i) else none

def leadingWord? (text : List Char) : Option Int64 :=
  (leading? text).bind word?

theorem takeWhile_append_of_head? {α : Type} {p : α → Bool} {l rest : List α}
    (hl : ∀ a ∈ l, p a = true) (hr : ∀ a ∈ rest.head?, p a = false) :
    (l ++ rest).takeWhile p = l := by
  rw [List.takeWhile_append_of_pos hl]
  cases rest with
  | nil => simp
  | cons a rest => simp [hr a rfl]

theorem splitSign_of_isDigit {c : Char} {rest : List Char} (h : c.isDigit = true) :
    splitSign (c :: rest) = (false, c :: rest) := by
  unfold splitSign
  split
  case h_1 heq => cases heq; contradiction
  case h_2 heq => cases heq; contradiction
  case h_3 => rfl

theorem leading?_of_splitSign {text digits rest : List Char} {negative : Bool}
    (hs : splitSign (trimStart text) = (negative, digits ++ rest)) (hn : digits ≠ [])
    (hd : ∀ c ∈ digits, c.isDigit = true) (hr : ∀ c ∈ rest.head?, c.isDigit = false) :
    leading? text = some (if negative then -(Nat.ofDigitChars 10 digits 0 : Int)
      else Nat.ofDigitChars 10 digits 0) := by
  unfold leading?
  rw [hs]
  dsimp only
  rw [takeWhile_append_of_head? hd hr]
  split
  · exact absurd rfl hn
  · rfl

/-- A numeral is read back whatever follows it, unless it continues with a digit. -/
theorem leading?_ofInt_append (i : Int) {rest : List Char}
    (h : ∀ c ∈ rest.head?, c.isDigit = false) : leading? (ofInt i ++ rest) = some i := by
  have hd : ∀ c ∈ Nat.toDigits 10 i.natAbs, c.isDigit = true := fun c hc =>
    Nat.isDigit_of_mem_toDigits (by decide) (by decide) hc
  by_cases hi : i < 0
  · have hb : isBlank '-' = false := rfl
    have hs : splitSign (trimStart (ofInt i ++ rest)) =
        (true, Nat.toDigits 10 i.natAbs ++ rest) := by
      simp [ofInt, hi, trimStart, hb, splitSign]
    rw [leading?_of_splitSign hs Nat.toDigits_ne_nil hd h, if_pos rfl,
      Nat.ofDigitChars_ten_toDigits, Int.ofNat_natAbs_of_nonpos (Int.le_of_lt hi), Int.neg_neg]
  · obtain ⟨c, cs, hcs⟩ :=
      List.exists_cons_of_ne_nil (Nat.toDigits_ne_nil (n := i.natAbs) (b := 10))
    have hc : c.isDigit = true := hd c (hcs ▸ List.mem_cons_self)
    have hs : splitSign (trimStart (ofInt i ++ rest)) =
        (false, Nat.toDigits 10 i.natAbs ++ rest) := by
      simp [ofInt, hi, trimStart, hcs, isBlank_eq_false_of_isDigit hc, splitSign_of_isDigit hc]
    rw [leading?_of_splitSign hs Nat.toDigits_ne_nil hd h, if_neg Bool.false_ne_true,
      Nat.ofDigitChars_ten_toDigits, Int.natAbs_of_nonneg (Int.not_lt.mp hi)]

/-- Between the minus sign and the digit nine. -/
theorem toNat_range_of_mem_ofInt {i : Int} {c : Char} (h : c ∈ ofInt i) :
    45 ≤ c.toNat ∧ c.toNat ≤ 57 := by
  rw [ofInt, List.mem_append] at h
  rcases h with hs | hd
  · split at hs
    · obtain rfl := List.mem_singleton.mp hs
      decide
    · contradiction
  · have hn : 48 ≤ c.toNat ∧ c.toNat ≤ 57 := Char.isDigit_iff_toNat.mp
      (Nat.isDigit_of_mem_toDigits (by decide) (by decide) hd)
    omega

@[simp] theorem word?_toInt (v : Int64) : word? v.toInt = some v := by
  rw [word?, if_pos ⟨v.minValue_le_toInt, v.toInt_le⟩, Int64.ofInt_toInt]

end Befunge.Text.Decimal
