import Befunge.Fault

/-! What a message tells of the fault that it reports. Its first letter tells the kind. The numbers
stand at its end, each of them after a character that is part of no numeral, so that they can be
read from the end backwards, whatever character is quoted before them. -/

namespace Befunge

namespace Text

theorem head?_append {s t : String} {c : Char} (h : s.toList.head? = some c) :
    (s ++ t).toList.head? = some c := by
  rw [String.toList_append, List.head?_append, h]
  rfl

theorem eq_of_cons_eq_append_cons {c : Char} {between after after' : List Char} (hc : c ∉ after)
    (h : c :: after = between ++ c :: after') : between = [] ∧ after = after' := by
  cases between with
  | nil => exact ⟨rfl, (List.cons.inj h).2⟩
  | cons a between =>
    have ha : after = between ++ c :: after' := (List.cons.inj h).2
    exact absurd (ha ▸ List.mem_append_right between List.mem_cons_self) hc

/-- A text is cut in one way at the last `c` that it holds. -/
theorem append_cons_inj {c : Char} {before before' after after' : List Char} (hc : c ∉ after)
    (hc' : c ∉ after') (h : before ++ c :: after = before' ++ c :: after') :
    before = before' ∧ after = after' := by
  rcases List.append_eq_append_iff.mp h with ⟨between, rfl, he⟩ | ⟨between, rfl, he⟩
  · obtain ⟨rfl, ha⟩ := eq_of_cons_eq_append_cons hc he
    exact ⟨(List.append_nil before).symm, ha⟩
  · obtain ⟨rfl, ha⟩ := eq_of_cons_eq_append_cons hc' he
    exact ⟨List.append_nil before', ha.symm⟩

namespace Decimal

theorem ofInt_inj {i j : Int} (h : ofInt i = ofInt j) : i = j := by
  have hn : ∀ c ∈ ([] : List Char).head?, c.isDigit = false := nofun
  have hl : leading? (ofInt i ++ []) = leading? (ofInt j ++ []) := by rw [h]
  rw [leading?_ofInt_append i hn, leading?_ofInt_append j hn] at hl
  exact Option.some.inj hl

theorem not_mem_ofInt {c : Char} (hc : c.toNat < 45) (i : Int) : c ∉ ofInt i := by
  intro h
  have hr := toNat_range_of_mem_ofInt h
  omega

theorem append_ofInt_inj {c : Char} {before before' : List Char} {i j : Int} (hc : c.toNat < 45)
    (h : before ++ c :: ofInt i = before' ++ c :: ofInt j) : before = before' ∧ i = j := by
  obtain ⟨hb, hi⟩ := append_cons_inj (not_mem_ofInt hc i) (not_mem_ofInt hc j) h
  exact ⟨hb, ofInt_inj hi⟩

theorem append_pair_inj {s t : String} {x y u v : Int} (h : s ++ pair x y = t ++ pair u v) :
    s = t ∧ x = u ∧ y = v := by
  have hy : (s.toList ++ '(' :: ofInt x ++ [',']) ++ ' ' :: ofInt y =
      (t.toList ++ '(' :: ofInt u ++ [',']) ++ ' ' :: ofInt v := by
    apply (List.append_left_inj [')']).mp
    simpa [pair, text] using congrArg String.toList h
  obtain ⟨hx, rfl⟩ := append_ofInt_inj (by decide) hy
  obtain ⟨hs, rfl⟩ := append_ofInt_inj (by decide) (List.append_cancel_right hx)
  exact ⟨String.toList_inj.mp hs, rfl, rfl⟩

end Decimal

end Text

namespace Fault

open Text Decimal

inductive Kind where
  | unknownInstruction
  | outOfBounds
  | io
  | load
deriving DecidableEq, Repr

def kind : Fault → Kind
  | unknownInstruction .. => .unknownInstruction
  | outOfBounds .. => .outOfBounds
  | io .. => .io
  | load .. => .load

/-- The first letter of the messages of a kind. -/
def Kind.initial : Kind → Char
  | unknownInstruction => 'u'
  | outOfBounds => 'g'
  | io => 'i'
  | load => 'f'

theorem Kind.initial_inj {k l : Kind} (h : k.initial = l.initial) : k = l := by
  revert h
  cases k <;> cases l <;> decide

theorem head?_message (f : Fault) : f.message.toList.head? = some f.kind.initial := by
  cases f with
  | unknownInstruction =>
    exact head?_append (head?_append (head?_append (head?_append (head?_append rfl))))
  | outOfBounds => exact head?_append rfl
  | io => exact head?_append rfl
  | load => exact head?_append (head?_append (head?_append rfl))

theorem kind_eq_of_message_eq {f g : Fault} (h : f.message = g.message) : f.kind = g.kind := by
  apply Kind.initial_inj
  apply Option.some.inj
  rw [← head?_message, h, head?_message]

theorem append_code_inj {s t : String} {i j : Int}
    (h : s ++ " (code " ++ text i ++ ") at " = t ++ " (code " ++ text j ++ ") at ") : i = j := by
  have hc : (s ++ " (code").toList ++ ' ' :: ofInt i =
      (t ++ " (code").toList ++ ' ' :: ofInt j := by
    simpa [text] using congrArg String.toList ((String.append_left_inj ") at ").mp h)
  exact (append_ofInt_inj (by decide) hc).2

-- The code is told by its number: the quoted character is never taken apart.
theorem eq_of_message_unknownInstruction {code code' : UInt8} {x y x' y' : Nat}
    (h : (unknownInstruction code x y).message = (unknownInstruction code' x' y').message) :
    unknownInstruction code x y = unknownInstruction code' x' y' := by
  obtain ⟨hb, hx, hy⟩ := append_pair_inj h
  have hc := append_code_inj hb
  rw [UInt8.toNat_inj.mp (Int.ofNat_inj.mp hc), Int.ofNat_inj.mp hx, Int.ofNat_inj.mp hy]

theorem eq_of_message_outOfBounds {x y x' y' : Int64}
    (h : (outOfBounds x y).message = (outOfBounds x' y').message) :
    outOfBounds x y = outOfBounds x' y' := by
  obtain ⟨-, hx, hy⟩ := append_pair_inj h
  rw [Int64.toInt_inj.mp hx, Int64.toInt_inj.mp hy]

/-- Only faults with a cause can share their message, and only with faults of their kind. -/
theorem messages_identify_faults :
    (∀ (code : UInt8) (x y : Nat) (g : Fault),
      (unknownInstruction code x y).message = g.message ↔ unknownInstruction code x y = g) ∧
    (∀ (x y : Int64) (g : Fault),
      (outOfBounds x y).message = g.message ↔ outOfBounds x y = g) ∧
    ∀ f g : Fault, f.message = g.message → f.kind = g.kind := by
  refine ⟨fun code x y g => ⟨fun h => ?_, congrArg message⟩,
    fun x y g => ⟨fun h => ?_, congrArg message⟩, fun f g => kind_eq_of_message_eq⟩
  · have hk := kind_eq_of_message_eq h
    cases g with
    | unknownInstruction => exact eq_of_message_unknownInstruction h
    | _ => contradiction
  · have hk := kind_eq_of_message_eq h
    cases g with
    | outOfBounds => exact eq_of_message_outOfBounds h
    | _ => contradiction

/-- Where the path ends cannot always be seen. -/
theorem messages_identify_faults_doubtful :
    (load "a: b" "c").message = (load "a" "b: c").message ∧
    (load "a: b" "c").kind = (load "a" "b: c").kind ∧
    (outOfBounds (-1) 30).message ≠ (outOfBounds 1 30).message ∧
    (unknownInstruction 0x27 12 3).message ≠ (unknownInstruction 0x5c 1 23).message := by
  have hm : (load "a: b" "c").message = (load "a" "b: c").message := by decide
  obtain ⟨hu, ho, hk⟩ := messages_identify_faults
  exact ⟨hm, hk _ _ hm, fun h => absurd ((ho _ _ _).mp h) (by decide),
    fun h => absurd ((hu _ _ _ _).mp h) (by decide)⟩

end Fault

end Befunge
