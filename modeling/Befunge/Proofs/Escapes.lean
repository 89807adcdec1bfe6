import Befunge.Text.Quoted
import Mathlib.Tactic.SplitIfs

/-! Quotations can be undone. An escape sequence tells the character that it stands for and where
it ends, and none of them begins with the mark that ends the quotation. -/

namespace Befunge.Text

def hexDigitValue (c : Char) : Nat := if c.isDigit then c.toNat - 48 else c.toNat - 87

def hexValue (digits : List Char) : Nat := digits.foldl (fun n c => 16 * n + hexDigitValue c) 0

theorem hexDigitValue_digitChar : ∀ d < 16, hexDigitValue (Nat.digitChar d) = d := by decide

theorem hexValue_toDigits (n : Nat) : hexValue (Nat.toDigits 16 n) = n := by
  induction n using Nat.strongRecOn with
  | ind n ih =>
    rw [Nat.toDigits_eq_if (by decide)]
    split
    next h => simp [hexValue, hexDigitValue_digitChar n h]
    next h =>
      have hd := hexDigitValue_digitChar (n % 16) (Nat.mod_lt n (by decide))
      have hq := ih (n / 16) (by omega)
      rw [hexValue] at hq
      simp only [hexValue, List.foldl_append, List.foldl_cons, List.foldl_nil, hq, hd]
      omega

theorem brace_not_mem_toDigits (n : Nat) : '\x7d' ∉ Nat.toDigits 16 n := by
  have hc : ∀ d, Nat.digitChar d ≠ '\x7d' := fun d => Nat.digitChar_ne '\x7d' (by decide)
  induction n using Nat.strongRecOn with
  | ind n ih =>
    rw [Nat.toDigits_eq_if (by decide)]
    split
    next h => simp [(hc n).symm]
    next h =>
      rw [List.mem_append, List.mem_singleton, not_or]
      exact ⟨ih (n / 16) (by omega), (hc _).symm⟩

/-- The character at the head of a quotation, and what follows it. -/
def unescape : List Char → Option (Char × List Char)
  | '\\' :: '0' :: rest => some ('\x00', rest)
  | '\\' :: 't' :: rest => some ('\t', rest)
  | '\\' :: 'n' :: rest => some ('\n', rest)
  | '\\' :: 'r' :: rest => some ('\r', rest)
  | '\\' :: 'u' :: '\x7b' :: rest =>
    some (Char.ofNat (hexValue (rest.takeWhile (· != '\x7d'))),
      (rest.dropWhile (· != '\x7d')).tail)
  | '\\' :: c :: rest => some (c, rest)
  | c :: rest => some (c, rest)
  | [] => none

variable {mark c d : Char} {rest rest' text text' : List Char}

theorem unescape_cons (h : c ≠ '\\') (rest : List Char) :
    unescape (c :: rest) = some (c, rest) := by
  unfold unescape
  split
  case h_7 heq =>
    cases heq
    rfl
  case h_8 heq => contradiction
  all_goals
    rename_i heq
    exact absurd (List.cons.inj heq).1 h

theorem unescape_code (c : Char) (rest : List Char) :
    unescape (['\\', 'u', '\x7b'] ++ Nat.toDigits 16 c.toNat ++ ['\x7d'] ++ rest) =
      some (c, rest) := by
  have hd : ∀ a ∈ Nat.toDigits 16 c.toNat, (a != '\x7d') = true := fun a ha =>
    bne_iff_ne.mpr fun he => brace_not_mem_toDigits c.toNat (he ▸ ha)
  simp [unescape, List.takeWhile_append_of_pos hd, List.dropWhile_append_of_pos hd,
    hexValue_toDigits]

theorem unescape_escape_append (hm : mark = '\x27' ∨ mark = '\x22') (c : Char)
    (rest : List Char) : unescape (escape mark c ++ rest) = some (c, rest) := by
  unfold escape
  split
  case h_6 hb =>
    split_ifs with he hv
    · rcases hm with rfl | rfl <;> cases he <;> rfl
    · exact unescape_cons hb rest
    · exact unescape_code c rest
  all_goals rfl

theorem escape_append_inj (hm : mark = '\x27' ∨ mark = '\x22')
    (h : escape mark c ++ rest = escape mark d ++ rest') : c = d ∧ rest = rest' := by
  have hu := congrArg unescape h
  rw [unescape_escape_append hm, unescape_escape_append hm] at hu
  exact Prod.mk.inj (Option.some.inj hu)

theorem escape_append_ne (hm : mark = '\x27' ∨ mark = '\x22') :
    escape mark c ++ rest ≠ mark :: rest' := by
  intro h
  have hb : mark ≠ '\\' := by rcases hm with rfl | rfl <;> decide
  have hu := congrArg unescape h
  rw [unescape_escape_append hm, unescape_cons hb] at hu
  obtain ⟨rfl, rfl⟩ := Prod.mk.inj (Option.some.inj hu)
  -- the mark itself is escaped
  rcases hm with rfl | rfl <;> cases h

/-- A quotation tells the text that it quotes, and where it ends. -/
theorem quote_append_inj (hm : mark = '\x27' ∨ mark = '\x22')
    (h : quote mark text ++ rest = quote mark text' ++ rest') : text = text' ∧ rest = rest' := by
  have hq : ∀ text rest, quote mark text ++ rest =
      mark :: (text.flatMap (escape mark) ++ mark :: rest) := by
    simp [quote]
  rw [hq, hq] at h
  replace h := (List.cons.inj h).2
  induction text generalizing text' with
  | nil =>
    cases text' with
    | nil => exact ⟨rfl, (List.cons.inj h).2⟩
    | cons d text' =>
      rw [List.flatMap_cons, List.append_assoc] at h
      exact absurd h.symm (escape_append_ne hm)
  | cons c text ih =>
    cases text' with
    | nil =>
      rw [List.flatMap_cons, List.append_assoc] at h
      exact absurd h (escape_append_ne hm)
    | cons d text' =>
      rw [List.flatMap_cons, List.flatMap_cons, List.append_assoc, List.append_assoc] at h
      obtain ⟨rfl, hr⟩ := escape_append_inj hm h
      obtain ⟨rfl, he⟩ := ih hr
      exact ⟨rfl, he⟩

theorem quotedChar_append_inj {s t : String} (h : quotedChar c ++ s = quotedChar d ++ t) :
    c = d ∧ s = t := by
  have hl : quote '\x27' [c] ++ s.toList = quote '\x27' [d] ++ t.toList := by
    simpa [quotedChar] using congrArg String.toList h
  obtain ⟨hc, hs⟩ := quote_append_inj (.inl rfl) hl
  exact ⟨(List.cons.inj hc).1, String.toList_inj.mp hs⟩

theorem quotedText_append_inj {s t : String} (h : quotedText text ++ s = quotedText text' ++ t) :
    text = text' ∧ s = t := by
  have hl : quote '\x22' text ++ s.toList = quote '\x22' text' ++ t.toList := by
    simpa [quotedText] using congrArg String.toList h
  obtain ⟨hc, hs⟩ := quote_append_inj (.inr rfl) hl
  exact ⟨hc, String.toList_inj.mp hs⟩

end Befunge.Text
