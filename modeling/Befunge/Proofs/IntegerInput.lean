import Befunge.Proofs.InputCausality
import Mathlib.Data.Nat.Digits.Defs

/-! The integers that are accepted as input. Reading the head of a text accepts exactly the blanks,
the sign and the digits of a grammar, as far as the number is a word, and `&` applies it to one line
of the input. -/

namespace Befunge

namespace Text.Decimal

inductive Sign where
  | omitted
  | plus
  | minus
deriving DecidableEq, Repr

def Sign.text : Sign → List Char
  | .omitted => []
  | .plus => ['+']
  | .minus => ['-']

def Sign.apply (sign : Sign) (n : Nat) : Int := if sign = .minus then -n else n

/-- The number that the digits stand for, of which the last one counts the ones. -/
def magnitude (digits : List Char) : Nat :=
  Nat.ofDigits 10 (digits.reverse.map fun c => c.toNat - '0'.toNat)

/-- The text is any number of blanks, at most one sign, digits up to the last one, of which there
must be some, and anything else; the integer is what the sign makes of the digits. -/
inductive BeginsWith : List Char → Int → Prop where
  | intro {blanks digits rest : List Char} (sign : Sign) (hb : ∀ c ∈ blanks, isBlank c = true)
      (hd : ∀ c ∈ digits, c.isDigit = true) (hn : digits ≠ [])
      (hr : ∀ c ∈ rest.head?, c.isDigit = false) :
      BeginsWith (blanks ++ (sign.text ++ (digits ++ rest))) (sign.apply (magnitude digits))

theorem ofDigitChars_eq_magnitude (digits : List Char) :
    Nat.ofDigitChars 10 digits 0 = magnitude digits := by
  induction digits using List.reverseRecOn with
  | nil => rfl
  | append_singleton digits c ih =>
    have hm : magnitude (digits ++ [c]) = (c.toNat - '0'.toNat) + 10 * magnitude digits := by
      rw [magnitude, List.reverse_append, List.reverse_singleton, List.singleton_append,
        List.map_cons, Nat.ofDigits_cons]
      rfl
    rw [Nat.ofDigitChars_append, ih, hm, Nat.ofDigitChars_cons, Nat.ofDigitChars_nil, Nat.add_comm]

theorem head?_dropWhile {α : Type} (p : α → Bool) (l : List α) :
    ∀ a ∈ (l.dropWhile p).head?, p a = false := by
  intro a ha
  have h := List.head?_dropWhile_not p l
  rwa [ha] at h

theorem splitSign_text_append {sign : Sign} {digits rest : List Char} (hn : digits ≠ [])
    (hd : ∀ c ∈ digits, c.isDigit = true) :
    splitSign (sign.text ++ (digits ++ rest)) = (decide (sign = .minus), digits ++ rest) := by
  obtain ⟨d, ds, rfl⟩ := List.exists_cons_of_ne_nil hn
  cases sign with
  | omitted => exact splitSign_of_isDigit (hd d List.mem_cons_self)
  | plus => rfl
  | minus => rfl

theorem exists_splitSign_eq (text : List Char) :
    ∃ sign : Sign, text = sign.text ++ (splitSign text).2 ∧
      (splitSign text).1 = decide (sign = .minus) := by
  unfold splitSign
  split
  case h_1 => exact ⟨.minus, rfl, rfl⟩
  case h_2 => exact ⟨.plus, rfl, rfl⟩
  case h_3 => exact ⟨.omitted, rfl, rfl⟩

theorem head?_signed {sign : Sign} {digits rest : List Char} (hn : digits ≠ [])
    (hd : ∀ c ∈ digits, c.isDigit = true) :
    ∃ c later, sign.text ++ (digits ++ rest) = c :: later ∧ isBlank c = false := by
  obtain ⟨d, ds, rfl⟩ := List.exists_cons_of_ne_nil hn
  cases sign with
  | omitted => exact ⟨d, _, rfl, isBlank_eq_false_of_isDigit (hd d List.mem_cons_self)⟩
  | plus => exact ⟨'+', _, rfl, rfl⟩
  | minus => exact ⟨'-', _, rfl, rfl⟩

theorem beginsWith_of_leading? {text : List Char} {i : Int} (h : leading? text = some i) :
    BeginsWith text i := by
  obtain ⟨sign, ht, hs⟩ := exists_splitSign_eq (trimStart text)
  unfold leading? at h
  generalize splitSign (trimStart text) = split at ht hs h
  obtain ⟨negative, unsigned⟩ := split
  subst hs
  have hb : text = text.takeWhile isBlank ++
      (sign.text ++ (unsigned.takeWhile Char.isDigit ++ unsigned.dropWhile Char.isDigit)) := by
    rw [List.takeWhile_append_dropWhile, ← ht, trimStart, List.takeWhile_append_dropWhile]
  dsimp only at h
  split at h
  · contradiction
  next hn =>
    simp only [ofDigitChars_eq_magnitude, decide_eq_true_eq] at h
    cases h
    rw [hb]
    exact .intro sign (List.all_eq_true.mp List.all_takeWhile)
      (List.all_eq_true.mp List.all_takeWhile) hn (head?_dropWhile _ _)

theorem leading?_of_beginsWith {text : List Char} {i : Int} (h : BeginsWith text i) :
    leading? text = some i := by
  obtain ⟨sign, hb, hd, hn, hr⟩ := h
  next blanks digits rest =>
  have hh : ∃ c later, sign.text ++ (digits ++ rest) = c :: later ∧ isBlank c = false :=
    head?_signed hn hd
  obtain ⟨c, later, hc, hf⟩ := hh
  have ht : trimStart (blanks ++ (sign.text ++ (digits ++ rest))) =
      sign.text ++ (digits ++ rest) := by
    rw [trimStart, List.dropWhile_append_of_pos hb, hc, List.dropWhile_cons_of_neg (by simp [hf])]
  have hs : splitSign (trimStart (blanks ++ (sign.text ++ (digits ++ rest)))) =
      (decide (sign = .minus), digits ++ rest) := by
    rw [ht, splitSign_text_append hn hd]
  rw [leading?_of_splitSign hs hn hd hr]
  simp only [ofDigitChars_eq_magnitude, decide_eq_true_eq, Sign.apply]

theorem leading?_eq_some_iff {text : List Char} {i : Int} :
    leading? text = some i ↔ BeginsWith text i :=
  ⟨beginsWith_of_leading?, leading?_of_beginsWith⟩

theorem word?_eq_some_iff {i : Int} {v : Int64} : word? i = some v ↔ v.toInt = i := by
  constructor
  · intro h
    unfold word? at h
    split at h
    next hi =>
      cases h
      exact Int64.toInt_ofInt_of_le hi.1 (Int.lt_of_le_of_lt hi.2 (by decide))
    · contradiction
  · rintro rfl
    exact word?_toInt v

theorem leadingWord?_eq_some_iff {text : List Char} {v : Int64} :
    leadingWord? text = some v ↔ BeginsWith text v.toInt := by
  simp only [leadingWord?, Option.bind_eq_some_iff, leading?_eq_some_iff, word?_eq_some_iff]
  constructor
  · rintro ⟨i, hi, rfl⟩
    exact hi
  · exact fun h => ⟨_, h, rfl⟩

/-- The integer that is read is the one at the head of the text, if that is a word. -/
theorem toInt_leadingWord?_iff {text : List Char} {i : Int} :
    (leadingWord? text).map Int64.toInt = some i ↔
      BeginsWith text i ∧ -2 ^ 63 ≤ i ∧ i ≤ 2 ^ 63 - 1 := by
  simp only [Option.map_eq_some_iff, leadingWord?_eq_some_iff]
  constructor
  · rintro ⟨v, hv, rfl⟩
    have hu := v.toInt_lt
    exact ⟨hv, v.le_toInt, by omega⟩
  · rintro ⟨hi, hl, hu⟩
    have hv : (Int64.ofInt i).toInt = i := Int64.toInt_ofInt_of_le hl (by omega)
    exact ⟨.ofInt i, by rwa [hv], hv⟩

theorem leadingWord?_eq_none_iff {text : List Char} :
    leadingWord? text = none ↔ ∀ i, BeginsWith text i → i < -2 ^ 63 ∨ 2 ^ 63 - 1 < i := by
  constructor
  · intro h i hi
    by_contra hr
    have hw : (leadingWord? text).map Int64.toInt = some i :=
      toInt_leadingWord?_iff.mpr ⟨hi, by omega, by omega⟩
    rw [h] at hw
    contradiction
  · intro h
    rw [Option.eq_none_iff_forall_ne_some]
    intro v hv
    have hl := v.le_toInt
    have hu := v.toInt_lt
    have hr := h v.toInt (leadingWord?_eq_some_iff.mp hv)
    omega

end Text.Decimal

open Source Text Text.Decimal

/-- The line at the head of the bytes, with its newline, or all of them if there is no newline. -/
def FirstLine (bytes line rest : List UInt8) : Prop :=
  bytes = line ++ rest ∧
    ((∃ head, newline ∉ head ∧ line = head ++ [newline]) ∨ (newline ∉ line ∧ rest = []))

theorem exists_firstLine (bytes : List UInt8) : ∃ line rest, FirstLine bytes line rest := by
  by_cases hn : newline ∈ bytes
  · obtain ⟨head, rest, rfl, hh⟩ := List.eq_append_cons_of_mem hn
    exact ⟨head ++ [newline], rest, by simp, .inl ⟨head, hh, rfl⟩⟩
  · exact ⟨bytes, [], (List.append_nil bytes).symm, .inr ⟨hn, rfl⟩⟩

theorem Input.takeLine_of_firstLine {bytes line rest : List UInt8} (h : FirstLine bytes line rest) :
    takeLine ⟨bytes, none⟩ = (if line = [] then .ended else .got line, ⟨rest, none⟩) := by
  obtain ⟨rfl, ⟨head, hh, rfl⟩ | ⟨hl, rfl⟩⟩ := h
  · have hne : head ++ [newline] ≠ [] := List.append_ne_nil_of_right_ne_nil head nofun
    rw [if_neg hne, List.append_assoc]
    exact takeLine_append hh rest none
  · have hp := ne_newline_of_not_mem hl
    have ht : line.takeWhile (· != newline) = line := List.takeWhile_eq_self_iff.mpr hp
    have hd : line.dropWhile (· != newline) = [] := List.dropWhile_eq_nil_iff.mpr hp
    simp only [takeLine, List.append_nil, ht, hd, atEnd, Option.isSome_none, Bool.false_or,
      List.isEmpty_iff]

namespace Machine

variable {σ ι ω : Type}

/-- The value that is pushed for a line, or for the end of the input. -/
def integerRead : Reading (List UInt8) → Int64
  | .got line => (leadingWord? (Utf8.decode line)).getD 0
  | _ => 0

theorem integerOnLine_fst (line : List UInt8) :
    (integerOnLine line).1 = integerRead (.got line) := by
  unfold integerOnLine integerRead
  dsimp only
  cases leadingWord? (Utf8.decode line) <;> rfl

variable [DirectionSource σ] [InputSource ι] [OutputSink ω]

theorem step_of_readInteger {m : Machine σ ι ω} (ho : m.order = some .readInteger)
    (hf : ∀ cause, (InputSource.takeLine m.input).1 ≠ .failed cause) :
    m.step.answer = .ok () ∧ m.step.machine =
      ((m.onInput (InputSource.takeLine m.input).2).push
        (integerRead (InputSource.takeLine m.input).1)).proceed := by
  rw [step_of_order ho, perform, readInteger]
  cases hr : (InputSource.takeLine m.input).1 with
  | got line => rw [← integerOnLine_fst]; exact ⟨rfl, rfl⟩
  | ended => exact ⟨rfl, rfl⟩
  | failed cause => exact absurd hr (hf cause)

theorem step_of_firstLine {m : Machine σ Input ω} {line rest : List UInt8}
    (ho : m.order = some .readInteger) (hf : m.input.failure = none)
    (hl : FirstLine m.input.pending line rest) :
    m.step.answer = .ok () ∧ m.step.machine =
      ((m.onInput (Input.mk rest none)).push
        ((leadingWord? (Utf8.decode line)).getD 0)).proceed := by
  have hi : m.input = ⟨m.input.pending, none⟩ := by rw [← hf]
  have ht : InputSource.takeLine m.input =
      (if line = [] then .ended else .got line, ⟨rest, none⟩) := by
    rw [hi]
    exact Input.takeLine_of_firstLine hl
  obtain ⟨ha, hm⟩ := step_of_readInteger ho (by rw [ht]; split <;> nofun)
  refine ⟨ha, ?_⟩
  rw [hm, ht]
  by_cases hn : line = []
  · subst hn
    rfl
  · rw [if_neg hn]
    rfl

theorem integer_input_accepts_grammar :
    (∀ text i, (leadingWord? text).map Int64.toInt = some i ↔
      BeginsWith text i ∧ -2 ^ 63 ≤ i ∧ i ≤ 2 ^ 63 - 1) ∧
    (∀ text, leadingWord? text = none ↔
      ∀ i, BeginsWith text i → i < -2 ^ 63 ∨ 2 ^ 63 - 1 < i) ∧
    (∀ bytes, ∃ line rest, FirstLine bytes line rest) ∧
    (∀ {σ ω : Type} [DirectionSource σ] [OutputSink ω] {m : Machine σ Input ω} {line rest},
      m.order = some .readInteger → m.input.failure = none →
      FirstLine m.input.pending line rest →
        m.step.answer = .ok () ∧ m.step.machine =
          ((m.onInput (Input.mk rest none)).push
            ((leadingWord? (Utf8.decode line)).getD 0)).proceed) ∧
    ∀ {σ ι ω : Type} [DirectionSource σ] [InputSource ι] [OutputSink ω] {m : Machine σ ι ω},
      m.order = some .readInteger →
      (∀ cause, (InputSource.takeLine m.input).1 ≠ .failed cause) →
        m.step.answer = .ok () ∧ m.step.machine =
          ((m.onInput (InputSource.takeLine m.input).2).push
            (integerRead (InputSource.takeLine m.input).1)).proceed :=
  ⟨fun _ _ => toInt_leadingWord?_iff, fun _ => leadingWord?_eq_none_iff, exists_firstLine,
    step_of_firstLine, step_of_readInteger⟩

/-- Has a line before it with the least word, after a blank of three bytes and many zeros. -/
def counting : Machine Script :=
  .start (.ofLines ["&".toList.map Char.toUInt8])
    (.ofBytes ([0xe3, 0x80, 0x80] ++ "-0009223372036854775808;\n7".toList.map Char.toUInt8))
    .unlimited (.ofList [])

theorem integer_input_accepts_grammar_counting :
    counting.order = some .readInteger ∧ counting.step.answer = .ok () ∧
    counting.step.machine.stack.toList = [Int64.minValue] ∧
    counting.step.machine.input.pending = "7".toList.map Char.toUInt8 := by
  let line := [0xe3, 0x80, 0x80] ++ "-0009223372036854775808;\n".toList.map Char.toUInt8
  obtain ⟨hg, -, -, hs, -⟩ := integer_input_accepts_grammar
  have ho : counting.order = some .readInteger := by decide +kernel
  have hl : FirstLine counting.input.pending line ("7".toList.map Char.toUInt8) :=
    ⟨by decide +kernel, .inl ⟨line.dropLast, by decide +kernel, by decide +kernel⟩⟩
  have ht : Utf8.decode line = ['\u3000'] ++
      (Sign.minus.text ++ ("0009223372036854775808".toList ++ [';', '\n'])) := by decide +kernel
  have hw : (leadingWord? (Utf8.decode line)).map Int64.toInt = some (-2 ^ 63) := by
    rw [hg, ht]
    have hb : ∀ c ∈ ['\u3000'], isBlank c = true := List.all_eq_true.mp (by decide)
    have hd : ∀ c ∈ "0009223372036854775808".toList, c.isDigit = true :=
      List.all_eq_true.mp (by decide +kernel)
    have hr : ∀ c ∈ [';', '\n'].head?, c.isDigit = false := by
      rintro c ⟨⟩
      rfl
    exact ⟨.intro .minus hb hd (by decide) hr, by decide⟩
  obtain ⟨v, hv, hi⟩ := Option.map_eq_some_iff.mp hw
  obtain rfl : v = Int64.minValue := Int64.toInt_inj.mp hi
  obtain ⟨ha, hm⟩ := hs ho rfl hl
  rw [hm, hv]
  exact ⟨ho, ha, rfl, rfl⟩

end Machine

end Befunge
