import Befunge.Arithmetic
import Befunge.Torus

/-! The instruction set: what each printable character orders the machine to do. -/

namespace Befunge

inductive Axis where
  | horizontal
  | vertical
deriving DecidableEq, Repr

def Axis.choose (axis : Axis) (v : Int64) : Direction :=
  match axis with
  | .horizontal => if v = 0 then .right else .left
  | .vertical => if v = 0 then .down else .up

inductive Instruction where
  | blank
  | exit
  | quote
  | bridge
  | digit (n : Fin 10)
  | operate (op : Operator)
  | not
  | swap
  | duplicate
  | discard
  | turn (d : Direction)
  | wander
  | branch (axis : Axis)
  | get
  | put
  | readInteger
  | readCharacter
  | writeInteger
  | writeCharacter
deriving DecidableEq, Repr

namespace Instruction

def ofChar? : Char → Option Instruction
  | ' ' => some .blank
  | '@' => some .exit
  | '\x22' => some .quote
  | '#' => some .bridge
  | '+' => some (.operate .add)
  | '-' => some (.operate .subtract)
  | '*' => some (.operate .multiply)
  | '/' => some (.operate .divide)
  | '%' => some (.operate .modulo)
  | '\x60' => some (.operate .greater)
  | '!' => some .not
  | '\\' => some .swap
  | ':' => some .duplicate
  | '$' => some .discard
  | '>' => some (.turn .right)
  | '<' => some (.turn .left)
  | '^' => some (.turn .up)
  | 'v' => some (.turn .down)
  | '?' => some .wander
  | '_' => some (.branch .horizontal)
  | '|' => some (.branch .vertical)
  | 'g' => some .get
  | 'p' => some .put
  | '&' => some .readInteger
  | '~' => some .readCharacter
  | '.' => some .writeInteger
  | ',' => some .writeCharacter
  | c => if c.isDigit then some (.digit (Fin.ofNat 10 (c.toNat - '0'.toNat))) else none

def symbol : Instruction → Char
  | .blank => ' '
  | .exit => '@'
  | .quote => '\x22'
  | .bridge => '#'
  | .digit n => Nat.digitChar n
  | .operate .add => '+'
  | .operate .subtract => '-'
  | .operate .multiply => '*'
  | .operate .divide => '/'
  | .operate .modulo => '%'
  | .operate .greater => '\x60'
  | .not => '!'
  | .swap => '\\'
  | .duplicate => ':'
  | .discard => '$'
  | .turn .right => '>'
  | .turn .left => '<'
  | .turn .up => '^'
  | .turn .down => 'v'
  | .wander => '?'
  | .branch .horizontal => '_'
  | .branch .vertical => '|'
  | .get => 'g'
  | .put => 'p'
  | .readInteger => '&'
  | .readCharacter => '~'
  | .writeInteger => '.'
  | .writeCharacter => ','

theorem ofChar?_symbol (i : Instruction) : ofChar? i.symbol = some i := by
  cases i with
  | digit n => decide +revert
  | operate op => cases op <;> rfl
  | turn d => cases d <;> rfl
  | branch axis => cases axis <;> rfl
  | _ => rfl

theorem symbol_of_ofChar? {c : Char} {i : Instruction} (h : ofChar? c = some i) :
    i.symbol = c := by
  unfold ofChar? at h
  split at h
  case h_28 =>
    split at h
    next hc =>
      cases h
      have hr : 48 ≤ c.toNat ∧ c.toNat ≤ 57 := Char.isDigit_iff_toNat.mp hc
      apply Char.toNat_inj.mp
      have hd : (c.toNat - 48) % 10 = c.toNat - 48 := by omega
      simp [symbol, hd, Nat.toNat_digitChar_of_lt_ten (n := c.toNat - 48) (by omega)]
      omega
    next => contradiction
  all_goals (cases h; rfl)

theorem ofChar?_eq_some_iff {c : Char} {i : Instruction} :
    ofChar? c = some i ↔ i.symbol = c :=
  ⟨symbol_of_ofChar?, fun h => h ▸ ofChar?_symbol i⟩

def quotationMark : UInt8 := '\x22'.toUInt8

def decode (code : UInt8) : Option Instruction :=
  ofChar? (Char.ofUInt8 code)

theorem toUInt8_ofUInt8 (code : UInt8) : (Char.ofUInt8 code).toUInt8 = code :=
  UInt8.toUInt8_toUInt32 code

theorem ofUInt8_symbol (i : Instruction) : Char.ofUInt8 i.symbol.toUInt8 = i.symbol := by
  cases i with
  | digit n => decide +revert
  | operate op => cases op <;> rfl
  | turn d => cases d <;> rfl
  | branch axis => cases axis <;> rfl
  | _ => rfl

theorem decode_eq_some_iff {code : UInt8} {i : Instruction} :
    decode code = some i ↔ code = i.symbol.toUInt8 := by
  rw [decode, ofChar?_eq_some_iff]
  constructor
  · intro h
    rw [h, toUInt8_ofUInt8]
  · intro h
    rw [h, ofUInt8_symbol]

end Instruction

end Befunge
