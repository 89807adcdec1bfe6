import Befunge.Instruction
import Befunge.Proofs.Escapes
import Befunge.Proofs.Messages
import Befunge.Record

/-! What a message tells of the record that it renders: all of it. The kinds differ in how their
messages begin, and within one kind the data are read from the left, each ending where the wording
goes on. -/

namespace Befunge

open Text Decimal

namespace Text

theorem take_append {s t : String} {letters : List Char} (h : s.toList.take 2 = letters)
    (hl : letters.length = 2) : (s ++ t).toList.take 2 = letters := by
  have hs : 2 ≤ s.toList.length := by
    rw [← h, List.length_take] at hl
    omega
  rw [String.toList_append, List.take_append_of_le_length hs, h]

namespace Decimal

/-- A numeral ends where something follows that is no digit. -/
theorem text_append_inj {i j : Int} {l s t : String} {c : Char} (hl : l.toList.head? = some c)
    (hc : c.isDigit = false) (h : text i ++ (l ++ s) = text j ++ (l ++ t)) : i = j ∧ s = t := by
  have hd : ∀ s, ∀ a ∈ (l ++ s).toList.head?, a.isDigit = false := by
    intro s a ha
    rw [head?_append hl] at ha
    obtain rfl := Option.some.inj ha
    exact hc
  have he : ofInt i ++ (l ++ s).toList = ofInt j ++ (l ++ t).toList := by
    simpa [text] using congrArg String.toList h
  have hi := congrArg leading? he
  rw [leading?_ofInt_append i (hd s), leading?_ofInt_append j (hd t)] at hi
  obtain rfl := Option.some.inj hi
  exact ⟨rfl, (String.append_right_inj l).mp ((String.append_right_inj _).mp h)⟩

theorem text_between_inj {i j : Int} {s t : String} (h : s ++ text i ++ t = s ++ text j ++ t) :
    i = j :=
  ofInt_inj (String.ofList_inj.mp
    ((String.append_right_inj s).mp ((String.append_left_inj t).mp h)))

end Decimal

end Text

namespace Direction

def initial : Direction → Char
  | right => 'R'
  | left => 'L'
  | up => 'U'
  | down => 'D'

theorem initial_inj {d e : Direction} (h : d.initial = e.initial) : d = e := by
  revert h
  cases d <;> cases e <;> decide

theorem name_append_inj {d e : Direction} {s t : String} (h : d.name ++ s = e.name ++ t) :
    d = e ∧ s = t := by
  have hn (d : Direction) (s : String) : (d.name ++ s).toList.head? = some d.initial := by
    cases d <;> exact head?_append rfl
  have hd := congrArg (fun s : String => s.toList.head?) h
  simp only [hn] at hd
  obtain rfl := initial_inj (Option.some.inj hd)
  exact ⟨rfl, (String.append_right_inj _).mp h⟩

end Direction

namespace Record

/-- The kinds of records, but for the two that tell of an input that has ended. -/
inductive Kind where
  | fileRead
  | fieldLoaded
  | stepBegun
  | divisionByZero
  | moduloByZero
  | inputEnded
  | integerInputMalformed
  | halted
deriving DecidableEq, Repr

def kind : Record → Kind
  | fileRead .. => .fileRead
  | fieldLoaded _ => .fieldLoaded
  | stepBegun .. => .stepBegun
  | divisionByZero _ => .divisionByZero
  | moduloByZero _ => .moduloByZero
  | integerInputEnded => .inputEnded
  | characterInputEnded => .inputEnded
  | integerInputMalformed _ => .integerInputMalformed
  | halted _ => .halted

/-- The first two letters of the messages of a kind. -/
def Kind.initials : Kind → List Char
  | fileRead => ['r', 'e']
  | fieldLoaded => ['l', 'o']
  | stepBegun => ['s', 't']
  | divisionByZero => ['d', 'i']
  | moduloByZero => ['m', 'o']
  | inputEnded => ['e', 'n']
  | integerInputMalformed => ['m', 'a']
  | halted => ['h', 'a']

theorem Kind.initials_inj {k l : Kind} (h : k.initials = l.initials) : k = l := by
  revert h
  cases k <;> cases l <;> decide

theorem take_message (r : Record) : r.message.toList.take 2 = r.kind.initials := by
  cases r with
  | fileRead => exact take_append (take_append (take_append rfl rfl) rfl) rfl
  | stepBegun =>
    exact take_append (take_append (take_append (take_append (take_append (take_append
      (take_append rfl rfl) rfl) rfl) rfl) rfl) rfl) rfl
  | integerInputEnded | characterInputEnded => rfl
  | _ => exact take_append (take_append rfl rfl) rfl

theorem kind_eq_of_message_eq {r s : Record} (h : r.message = s.message) : r.kind = s.kind := by
  apply Kind.initials_inj
  rw [← take_message, h, take_message]

theorem eq_of_message_fileRead {size size' : Nat} {path path' : String}
    (h : (fileRead size path).message = (fileRead size' path').message) :
    fileRead size path = fileRead size' path' := by
  change "read " ++ text size ++ " bytes from " ++ path =
    "read " ++ text size' ++ " bytes from " ++ path' at h
  simp only [String.append_assoc, String.append_right_inj] at h
  obtain ⟨hs, rfl⟩ := text_append_inj rfl rfl h
  rw [Int.ofNat_inj.mp hs]

theorem eq_of_message_stepBegun {steps steps' : Nat} {cursor cursor' : Cursor} {code code' : UInt8}
    (h : (stepBegun steps cursor code).message = (stepBegun steps' cursor' code').message) :
    stepBegun steps cursor code = stepBegun steps' cursor' code' := by
  obtain ⟨⟨x, y⟩, heading⟩ := cursor
  obtain ⟨⟨x', y'⟩, heading'⟩ := cursor'
  change "step " ++ text steps ++ " at " ++ pair x.val y.val ++ " " ++ heading.name ++ ": " ++
      quotedChar (Char.ofUInt8 code) =
    "step " ++ text steps' ++ " at " ++ pair x'.val y'.val ++ " " ++ heading'.name ++ ": " ++
      quotedChar (Char.ofUInt8 code') at h
  simp only [pair, String.append_assoc, String.append_right_inj] at h
  obtain ⟨hs, h⟩ := text_append_inj rfl rfl h
  simp only [String.append_right_inj] at h
  obtain ⟨hx, h⟩ := text_append_inj rfl rfl h
  obtain ⟨hy, h⟩ := text_append_inj rfl rfl h
  simp only [String.append_right_inj] at h
  obtain ⟨rfl, h⟩ := Direction.name_append_inj h
  simp only [String.append_right_inj] at h
  obtain ⟨hc, -⟩ := quotedChar_append_inj (congrArg (· ++ "") h)
  have hb := congrArg Char.toUInt8 hc
  rw [Instruction.toUInt8_ofUInt8, Instruction.toUInt8_ofUInt8] at hb
  rw [Int.ofNat_inj.mp hs, Fin.ext (Int.ofNat_inj.mp hx), Fin.ext (Int.ofNat_inj.mp hy), hb]

theorem eq_of_message_integerInputMalformed {line line' : List Char}
    (h : (integerInputMalformed line).message = (integerInputMalformed line').message) :
    integerInputMalformed line = integerInputMalformed line' := by
  change "malformed integer input " ++ quotedText line ++ ", pushing 0" =
    "malformed integer input " ++ quotedText line' ++ ", pushing 0" at h
  simp only [String.append_assoc, String.append_right_inj] at h
  rw [(quotedText_append_inj h).1]

theorem message_inj {r s : Record} : r.message = s.message ↔ r = s := by
  refine ⟨fun h => ?_, congrArg message⟩
  have hk := kind_eq_of_message_eq h
  cases r with
  | fileRead =>
    cases s with
    | fileRead => exact eq_of_message_fileRead h
    | _ => contradiction
  | fieldLoaded =>
    cases s with
    | fieldLoaded => rw [Int.ofNat_inj.mp (text_between_inj h)]
    | _ => contradiction
  | stepBegun =>
    cases s with
    | stepBegun => exact eq_of_message_stepBegun h
    | _ => contradiction
  | divisionByZero =>
    cases s with
    | divisionByZero => rw [Int64.toInt_inj.mp (text_between_inj h)]
    | _ => contradiction
  | moduloByZero =>
    cases s with
    | moduloByZero => rw [Int64.toInt_inj.mp (text_between_inj h)]
    | _ => contradiction
  | integerInputEnded =>
    cases s with
    | integerInputEnded => rfl
    | characterInputEnded => exact absurd h (by decide)
    | _ => contradiction
  | characterInputEnded =>
    cases s with
    | integerInputEnded => exact absurd h (by decide)
    | characterInputEnded => rfl
    | _ => contradiction
  | integerInputMalformed =>
    cases s with
    | integerInputMalformed => exact eq_of_message_integerInputMalformed h
    | _ => contradiction
  | halted =>
    cases s with
    | halted => rw [Int.ofNat_inj.mp (text_between_inj h)]
    | _ => contradiction

end Record

end Befunge
