import Befunge.Proofs.IntegerInput

/-! Slices of a text. A text is cut at a number of bytes, which has to fall between two of its
characters. The numeral at the head of a line is cut out of it in this way, by the length of its
sign and the number of its digits, and no line makes one of the cuts fail. -/

namespace Befunge

namespace Text

def bytes (text : List Char) : List UInt8 := text.flatMap String.utf8EncodeChar

/-- The text before the given number of bytes and the text from there on; `none` inside of a
character and beyond the end. -/
def cut? : Nat → List Char → Option (List Char × List Char)
  | 0, text => some ([], text)
  | _ + 1, [] => none
  | n + 1, c :: text =>
    if c.utf8Size ≤ n + 1 then (cut? (n + 1 - c.utf8Size) text).map fun (l, r) => (c :: l, r)
    else none

theorem length_bytes_cons (c : Char) (text : List Char) :
    (bytes (c :: text)).length = c.utf8Size + (bytes text).length := by
  simp [bytes]

theorem bytes_append (text rest : List Char) : bytes (text ++ rest) = bytes text ++ bytes rest :=
  List.flatMap_append

theorem cut?_length_bytes (before rest : List Char) :
    cut? (bytes before).length (before ++ rest) = some (before, rest) := by
  induction before with
  | nil => cases rest <;> rfl
  | cons c before ih =>
    have hc := c.utf8Size_pos
    obtain ⟨n, hn⟩ : ∃ n, (bytes (c :: before)).length = n + 1 :=
      ⟨c.utf8Size + (bytes before).length - 1, by rw [length_bytes_cons]; omega⟩
    have hr : n + 1 - c.utf8Size = (bytes before).length := by
      rw [← hn, length_bytes_cons, Nat.add_sub_cancel_left]
    have hl : c.utf8Size ≤ n + 1 := by
      rw [← hn, length_bytes_cons]
      exact Nat.le_add_right _ _
    rw [hn, List.cons_append, cut?, if_pos hl, hr, ih]
    rfl

/-- A text can be cut exactly where some of its characters end. -/
theorem cut?_eq_some_iff {n : Nat} {text before rest : List Char} :
    cut? n text = some (before, rest) ↔ text = before ++ rest ∧ (bytes before).length = n := by
  constructor
  · intro h
    induction text generalizing n before with
    | nil =>
      cases n with
      | zero =>
        cases h
        exact ⟨rfl, rfl⟩
      | succ n => cases h
    | cons c text ih =>
      cases n with
      | zero =>
        cases h
        exact ⟨rfl, rfl⟩
      | succ n =>
        rw [cut?] at h
        split at h
        next hl =>
          obtain ⟨⟨l, r⟩, hc, he⟩ := Option.map_eq_some_iff.mp h
          cases he
          obtain ⟨rfl, hn⟩ := ih hc
          refine ⟨rfl, ?_⟩
          rw [length_bytes_cons, hn, Nat.add_sub_cancel' hl]
        · contradiction
  · rintro ⟨rfl, rfl⟩
    exact cut?_length_bytes before rest

def isDigitByte (b : UInt8) : Bool := 0x30 ≤ b && b ≤ 0x39

/-- A character of seven bits is its own byte, and the first byte of any other has the eighth. -/
theorem utf8EncodeChar_eq_cons (c : Char) :
    ∃ b later, String.utf8EncodeChar c = b :: later ∧
      (b.toNat = c.toNat ∧ later = [] ∨ 128 ≤ b.toNat ∧ 128 ≤ c.toNat) := by
  have hn : c.toNat = c.val.toNat := rfl
  unfold String.utf8EncodeChar
  dsimp only
  split
  next hv => exact ⟨_, _, rfl, .inl ⟨Nat.mod_eq_of_lt (by omega), rfl⟩⟩
  next hv =>
    split
    · exact ⟨_, _, rfl, .inr ⟨by simp; omega, by omega⟩⟩
    · split
      · exact ⟨_, _, rfl, .inr ⟨by simp; omega, by omega⟩⟩
      · exact ⟨_, _, rfl, .inr ⟨by simp; omega, by omega⟩⟩

theorem exists_digit_byte (c : Char) :
    ∃ b later, String.utf8EncodeChar c = b :: later ∧ isDigitByte b = c.isDigit ∧
      (c.isDigit = true → later = []) := by
  have hd : c.isDigit = true ↔ 48 ≤ c.toNat ∧ c.toNat ≤ 57 := Char.isDigit_iff_toNat
  obtain ⟨b, later, he, hb⟩ := utf8EncodeChar_eq_cons c
  have hi : isDigitByte b = true ↔ 48 ≤ b.toNat ∧ b.toNat ≤ 57 := by
    simp [isDigitByte, UInt8.le_iff_toNat_le]
  refine ⟨b, later, he, ?_, fun hc => ?_⟩
  · rw [Bool.eq_iff_iff, hi, hd]
    omega
  · rcases hb with ⟨-, hl⟩ | ⟨-, hl⟩
    · exact hl
    · have := hd.mp hc
      omega

theorem length_takeWhile_bytes (text : List Char) :
    ((bytes text).takeWhile isDigitByte).length = (text.takeWhile Char.isDigit).length := by
  induction text with
  | nil => rfl
  | cons c text ih =>
    obtain ⟨b, later, he, hb, hl⟩ := exists_digit_byte c
    rw [bytes, List.flatMap_cons, he, ← bytes, List.cons_append, List.takeWhile_cons, hb,
      List.takeWhile_cons]
    cases hd : c.isDigit with
    | true => simp [hl hd, ih]
    | false => rfl

theorem length_bytes_of_isDigit {digits : List Char} (h : ∀ c ∈ digits, c.isDigit = true) :
    (bytes digits).length = digits.length := by
  induction digits with
  | nil => rfl
  | cons c digits ih =>
    obtain ⟨b, later, he, -, hl⟩ := exists_digit_byte c
    have hc : c.utf8Size = 1 := by
      rw [← String.length_utf8EncodeChar, he, hl (h c List.mem_cons_self)]
      rfl
    rw [length_bytes_cons, hc, ih fun d hd => h d (List.mem_cons_of_mem c hd), List.length_cons,
      Nat.add_comm]

namespace Decimal

/-- The word that the text as a whole is a numeral of. -/
def wholeWord? (text : List Char) : Option Int64 :=
  let (negative, digits) := splitSign text
  if !digits.isEmpty && digits.all Char.isDigit then
    let magnitude : Int := Nat.ofDigitChars 10 digits 0
    word? (if negative then -magnitude else magnitude)
  else none

def signLength : List Char → Nat
  | '+' :: _ => 1
  | '-' :: _ => 1
  | _ => 0

/-- The word at the head of the text, cut out of it; `none` when the text cannot be cut. -/
def slicedWord? (text : List Char) : Option (Option Int64) := do
  let text := trimStart text
  let (_, unsigned) ← cut? (signLength text) text
  let count := ((bytes unsigned).takeWhile isDigitByte).length
  if count = 0 then some none
  else
    let (numeral, _) ← cut? (signLength text + count) text
    some (wholeWord? numeral)

theorem signLength_add_length (text : List Char) :
    signLength text + (splitSign text).2.length = text.length := by
  unfold splitSign
  split
  case h_1 => exact Nat.add_comm 1 _
  case h_2 => exact Nat.add_comm 1 _
  case h_3 hm hp =>
    unfold signLength
    split
    case h_1 => exact absurd rfl (hp _)
    case h_2 => exact absurd rfl (hm _)
    case h_3 => exact Nat.zero_add _

theorem length_bytes_sign {text : List Char} {sign : Sign}
    (h : text = sign.text ++ (splitSign text).2) : (bytes sign.text).length = signLength text := by
  have hs := signLength_add_length text
  have hl : text.length = sign.text.length + (splitSign text).2.length := by
    rw [← List.length_append, ← h]
  have hb : (bytes sign.text).length = sign.text.length := by cases sign <;> rfl
  omega

theorem wholeWord?_signed {sign : Sign} {digits : List Char} (hn : digits ≠ [])
    (hd : ∀ c ∈ digits, c.isDigit = true) :
    wholeWord? (sign.text ++ digits) =
      word? (if sign = .minus then -(Nat.ofDigitChars 10 digits 0 : Int)
        else Nat.ofDigitChars 10 digits 0) := by
  have hs : splitSign (sign.text ++ (digits ++ [])) = (decide (sign = .minus), digits ++ []) :=
    splitSign_text_append hn hd
  rw [List.append_nil] at hs
  have hb : (!digits.isEmpty && digits.all Char.isDigit) = true := by
    rw [List.all_eq_true.mpr hd]
    simp [hn]
  unfold wholeWord?
  rw [hs]
  dsimp only
  rw [if_pos hb]
  simp only [decide_eq_true_eq]

theorem leadingWord?_of_split {text digits rest : List Char} {sign : Sign}
    (hs : splitSign (trimStart text) = (decide (sign = .minus), digits ++ rest))
    (hn : digits ≠ []) (hd : ∀ c ∈ digits, c.isDigit = true)
    (hr : ∀ c ∈ rest.head?, c.isDigit = false) :
    leadingWord? text = wholeWord? (sign.text ++ digits) := by
  rw [leadingWord?, leading?_of_splitSign hs hn hd hr, wholeWord?_signed hn hd]
  simp only [decide_eq_true_eq, Option.bind_some]

theorem leadingWord?_of_no_digits {text : List Char}
    (h : (splitSign (trimStart text)).2.takeWhile Char.isDigit = []) :
    leadingWord? text = none := by
  rw [leadingWord?, leading?]
  generalize splitSign (trimStart text) = split at h
  obtain ⟨negative, unsigned⟩ := split
  dsimp only at h ⊢
  rw [h]
  rfl

theorem exists_digits_append (text : List Char) :
    ∃ digits rest, text = digits ++ rest ∧ (∀ c ∈ digits, c.isDigit = true) ∧
      (∀ c ∈ rest.head?, c.isDigit = false) ∧ text.takeWhile Char.isDigit = digits :=
  ⟨text.takeWhile Char.isDigit, text.dropWhile Char.isDigit,
    List.takeWhile_append_dropWhile.symm, List.all_eq_true.mp List.all_takeWhile,
    head?_dropWhile _ _, rfl⟩

/-- Neither of the two cuts falls inside of a character or beyond the end of the text. -/
theorem slicedWord?_eq (text : List Char) : slicedWord? text = some (leadingWord? text) := by
  obtain ⟨sign, ht, hs⟩ := exists_splitSign_eq (trimStart text)
  have hl := length_bytes_sign ht
  rcases hp : splitSign (trimStart text) with ⟨negative, unsigned⟩
  obtain ⟨digits, rest, rfl, hd, hr, htake⟩ := exists_digits_append unsigned
  rw [hp] at ht hs
  dsimp only at ht hs
  subst hs
  have hu : cut? (signLength (trimStart text)) (trimStart text) =
      some (sign.text, digits ++ rest) := cut?_eq_some_iff.mpr ⟨ht, hl⟩
  have hc : ((bytes (digits ++ rest)).takeWhile isDigitByte).length = digits.length := by
    rw [length_takeWhile_bytes, htake]
  have hb : (bytes (sign.text ++ digits)).length =
      signLength (trimStart text) + digits.length := by
    rw [bytes_append, List.length_append, hl, length_bytes_of_isDigit hd]
  have hv : cut? (signLength (trimStart text) + digits.length) (trimStart text) =
      some (sign.text ++ digits, rest) := by
    refine cut?_eq_some_iff.mpr ⟨?_, hb⟩
    rw [ht, List.append_assoc]
  unfold slicedWord?
  dsimp only
  rw [hu, Option.bind_eq_bind, Option.bind_some]
  dsimp only
  rw [hc]
  by_cases hn : digits = []
  · have hw : leadingWord? text = none := leadingWord?_of_no_digits (by rw [hp, htake, hn])
    rw [if_pos (by simp [hn]), hw]
  · have hw : leadingWord? text = wholeWord? (sign.text ++ digits) :=
      leadingWord?_of_split hp hn hd hr
    rw [if_neg (by simpa using hn), hv, Option.bind_some, hw]

end Decimal

end Text

end Befunge
