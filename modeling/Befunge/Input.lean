import Befunge.Playfield.Source

/-! What the machine reads from: any source that hands out bytes and lines. The source at hand
is a list of the bytes still to be read, with what happens after them. -/

namespace Befunge

inductive Reading (α : Type) where
  | got (a : α)
  | ended
  | failed (cause : String)
deriving DecidableEq, Repr

/-- What reading a line gives after its first byte has been taken. -/
def Reading.lineAfter (b : UInt8) : Reading (List UInt8) → Reading (List UInt8)
  | .got line => .got (b :: line)
  | .ended => .got [b]
  | .failed cause => .failed cause

class InputSource (ι : Type) where
  takeByte : ι → Reading UInt8 × ι
  /-- Takes everything through the next newline, or what is left when there is none. -/
  takeLine : ι → Reading (List UInt8) × ι

open InputSource in
/-- Lines are made of the bytes that could have been taken one by one, up to a newline and with
it. -/
class LawfulInputSource (ι : Type) [InputSource ι] : Prop where
  takeLine_of_newline {source rest : ι} (h : takeByte source = (.got Source.newline, rest)) :
    takeLine source = (.got [Source.newline], rest)
  takeLine_of_byte {source rest : ι} {b : UInt8} (h : takeByte source = (.got b, rest))
    (hb : b ≠ Source.newline) :
    takeLine source = ((takeLine rest).1.lineAfter b, (takeLine rest).2)
  takeLine_of_ended {source rest : ι} (h : takeByte source = (.ended, rest)) :
    takeLine source = (.ended, rest)
  takeLine_of_failed {source rest : ι} {cause : String}
    (h : takeByte source = (.failed cause, rest)) : takeLine source = (.failed cause, rest)

structure Input where
  pending : List UInt8
  /-- Why reading fails once nothing is pending; without a cause the input simply ends. -/
  failure : Option String
deriving DecidableEq, Repr

namespace Input

def ofBytes (bytes : List UInt8) : Input := ⟨bytes, none⟩

def atEnd {α : Type} (i : Input) : Reading α :=
  match i.failure with
  | some cause => .failed cause
  | none => .ended

def takeByte (i : Input) : Reading UInt8 × Input :=
  match i.pending with
  | b :: rest => (.got b, { i with pending := rest })
  | [] => (i.atEnd, i)

/-- Takes everything through the next newline. When there is none, the remaining bytes are the
last line of an input that ends, and are lost in one that fails. -/
def takeLine (i : Input) : Reading (List UInt8) × Input :=
  let line := i.pending.takeWhile (· != Source.newline)
  match i.pending.dropWhile (· != Source.newline) with
  | b :: rest => (.got (line ++ [b]), { i with pending := rest })
  | [] =>
    (if i.failure.isSome || line.isEmpty then i.atEnd else .got line, { i with pending := [] })

instance : InputSource Input where
  takeByte := takeByte
  takeLine := takeLine

theorem takeLine_cons {b : UInt8} (hb : b ≠ Source.newline) (bytes : List UInt8)
    (failure : Option String) :
    takeLine ⟨b :: bytes, failure⟩ =
      ((takeLine ⟨bytes, failure⟩).1.lineAfter b, (takeLine ⟨bytes, failure⟩).2) := by
  have hn : (b != Source.newline) = true := bne_iff_ne.mpr hb
  simp only [takeLine, List.takeWhile_cons, List.dropWhile_cons, hn, if_true]
  cases bytes.dropWhile (· != Source.newline) with
  | cons c later => rfl
  | nil =>
    cases failure with
    | some cause => rfl
    | none => cases bytes.takeWhile (· != Source.newline) <;> rfl

instance : LawfulInputSource Input where
  takeLine_of_newline {source rest} h := by
    obtain ⟨_ | ⟨b, bytes⟩, failure⟩ := source
    · cases failure <;> cases h
    · cases h
      rfl
  takeLine_of_byte {source rest b} h hb := by
    obtain ⟨_ | ⟨c, bytes⟩, failure⟩ := source
    · cases failure <;> cases h
    · cases h
      exact takeLine_cons hb bytes failure
  takeLine_of_ended {source rest} h := by
    obtain ⟨_ | ⟨b, bytes⟩, failure⟩ := source
    · cases failure <;> cases h
      rfl
    · cases h
  takeLine_of_failed {source rest cause} h := by
    obtain ⟨_ | ⟨b, bytes⟩, failure⟩ := source
    · cases failure <;> cases h
      rfl
    · cases h

end Input

end Befunge
