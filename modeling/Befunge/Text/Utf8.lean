/-! Decoding of UTF-8 that accepts every byte string: each longest piece that begins no
character becomes one replacement character. -/

namespace Befunge.Text

namespace Utf8

def replacement : Char := '\ufffd'

/-- A character of which some bytes have been read: the bits so far, the range in which the
next byte must lie, and how many bytes follow that one. -/
structure Pending where
  bits : Nat
  least : UInt8
  greatest : UInt8
  following : Nat

/-- What the first byte of a longer sequence announces. The narrowed ranges exclude overlong
sequences, surrogates and code points above the last plane. -/
def Pending.ofLead? (b : UInt8) : Option Pending :=
  if b < 0xc2 then none
  else if b < 0xe0 then some ⟨b.toNat - 0xc0, 0x80, 0xbf, 0⟩
  else if b < 0xf0 then
    some ⟨b.toNat - 0xe0, if b = 0xe0 then 0xa0 else 0x80, if b = 0xed then 0x9f else 0xbf, 1⟩
  else if b < 0xf5 then
    some ⟨b.toNat - 0xf0, if b = 0xf0 then 0x90 else 0x80, if b = 0xf4 then 0x8f else 0xbf, 2⟩
  else none

/-- Text decoded so far, the last character first, and the character being read. -/
structure Decoder where
  text : List Char
  pending : Option Pending

namespace Decoder

def start : Decoder := ⟨[], none⟩

def emit (d : Decoder) (c : Char) : Decoder := ⟨c :: d.text, none⟩

def abandon (d : Decoder) : Decoder :=
  if d.pending.isSome then d.emit replacement else d

def lead (d : Decoder) (b : UInt8) : Decoder :=
  if b < 0x80 then d.emit (Char.ofUInt8 b)
  else
    match Pending.ofLead? b with
    | some p => { d with pending := some p }
    | none => d.emit replacement

def read (d : Decoder) (b : UInt8) : Decoder :=
  match d.pending with
  | none => d.lead b
  | some p =>
    if p.least ≤ b ∧ b ≤ p.greatest then
      let bits := p.bits * 64 + (b.toNat - 0x80)
      match p.following with
      | 0 => d.emit (Char.ofNat bits)
      | n + 1 => { d with pending := some ⟨bits, 0x80, 0xbf, n⟩ }
    else d.abandon.lead b

def finish (d : Decoder) : List Char := d.abandon.text.reverse

end Decoder

def decode (bytes : List UInt8) : List Char :=
  (bytes.foldl Decoder.read .start).finish

namespace Decoder

def after (earlier : List Char) (d : Decoder) : Decoder :=
  { d with text := d.text ++ earlier }

theorem emit_after (earlier : List Char) (d : Decoder) (c : Char) :
    (d.after earlier).emit c = (d.emit c).after earlier := rfl

theorem abandon_after (earlier : List Char) (d : Decoder) :
    (d.after earlier).abandon = d.abandon.after earlier := by
  unfold abandon
  rw [emit_after, apply_ite (after earlier)]
  rfl

theorem lead_after (earlier : List Char) (d : Decoder) (b : UInt8) :
    (d.after earlier).lead b = (d.lead b).after earlier := by
  by_cases h : b < 0x80
  · simp [lead, h, emit_after]
  · cases hp : Pending.ofLead? b <;> simp [lead, h, hp, emit, after]

theorem read_after (earlier : List Char) (d : Decoder) (b : UInt8) :
    (d.after earlier).read b = (d.read b).after earlier := by
  cases hp : d.pending with
  | none => simp only [read, after, hp]; exact lead_after earlier d b
  | some p =>
    by_cases h : p.least ≤ b ∧ b ≤ p.greatest
    · cases hf : p.following <;> simp [read, after, hp, h, hf, emit]
    · have ha : ({ d with text := d.text ++ earlier } : Decoder) = d.after earlier := rfl
      simp only [read, hp, h, if_false]
      rw [← lead_after, ← abandon_after]
      simp [after, hp, h]

theorem foldl_read_after (earlier : List Char) (d : Decoder) (bytes : List UInt8) :
    bytes.foldl read (d.after earlier) = (bytes.foldl read d).after earlier := by
  induction bytes generalizing d with
  | nil => rfl
  | cons b bytes ih => rw [List.foldl_cons, List.foldl_cons, read_after, ih]

theorem finish_after (earlier : List Char) (d : Decoder) :
    (d.after earlier).finish = earlier.reverse ++ d.finish := by
  cases h : d.pending <;> simp [finish, abandon, after, emit, h]

end Decoder

theorem decode_cons_of_lt {b : UInt8} (h : b < 0x80) (bytes : List UInt8) :
    decode (b :: bytes) = Char.ofUInt8 b :: decode bytes := by
  have hr : Decoder.start.read b = Decoder.start.after [Char.ofUInt8 b] := by
    simp [Decoder.read, Decoder.lead, Decoder.start, Decoder.emit, Decoder.after, h]
  rw [decode, List.foldl_cons, hr, Decoder.foldl_read_after, Decoder.finish_after]
  rfl

theorem ofUInt8_toUInt8_of_lt {c : Char} (h : c.toNat < 0x80) :
    Char.ofUInt8 c.toUInt8 = c ∧ c.toUInt8 < 0x80 := by
  have hn : c.toUInt8.toNat = c.toNat := Nat.mod_eq_of_lt (Nat.lt_trans h (by decide))
  refine ⟨Char.toNat_inj.mp hn, UInt8.lt_iff_toNat_lt.mpr ?_⟩
  rw [hn]
  exact h

/-- Text of seven-bit characters is decoded to itself, whatever bytes follow it. -/
theorem decode_map_toUInt8_append {text : List Char} (h : ∀ c ∈ text, c.toNat < 0x80)
    (bytes : List UInt8) : decode (text.map Char.toUInt8 ++ bytes) = text ++ decode bytes := by
  induction text with
  | nil => rfl
  | cons c text ih =>
    obtain ⟨hc, hl⟩ := ofUInt8_toUInt8_of_lt (h c List.mem_cons_self)
    rw [List.map_cons, List.cons_append, decode_cons_of_lt hl, hc,
      ih fun d hd => h d (List.mem_cons_of_mem c hd)]
    rfl

end Utf8

end Befunge.Text
