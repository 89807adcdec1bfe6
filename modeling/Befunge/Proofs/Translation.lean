import Befunge.Proofs.Run

/-! Translations of the torus. Nothing distinguishes one position of the surface from another, so a
run on a translated surface is the translated run, as long as no cell is addressed by its
coordinates. -/

namespace Befunge

/-- Where a row or a column goes when everything moves by `d` round a torus of the given size. -/
def translated (size : Nat) (d : Int) (i : Nat) : Nat := ((i + d) % size).toNat

section

variable {size : Nat} [NeZero size] (d : Int) (i : Nat)

theorem natCast_translated : (translated size d i : Int) = (i + d) % size :=
  Int.toNat_of_nonneg (Int.emod_nonneg _ (Int.natCast_ne_zero.mpr (NeZero.ne size)))

theorem translated_lt : translated size d i < size := by
  have hp : (0 : Int) < size := Int.natCast_pos.mpr (Nat.pos_of_neZero size)
  have hl := Int.emod_lt_of_pos (i + d) hp
  rw [← natCast_translated] at hl
  exact Int.ofNat_lt.mp hl

theorem translated_add (n : Nat) :
    translated size d ((n + i) % size) = (n + translated size d i) % size := by
  apply Int.ofNat_inj.mp
  rw [natCast_translated, Int.natCast_emod, Int.natCast_emod, Int.natCast_add, Int.natCast_add,
    natCast_translated, Int.emod_add_emod, Int.add_emod_emod, Int.add_assoc]

theorem translated_neg_translated {i : Nat} (hi : i < size) :
    translated size (-d) (translated size d i) = i := by
  apply Int.ofNat_inj.mp
  rw [natCast_translated, natCast_translated, Int.emod_add_emod, Int.add_neg_cancel_right]
  exact Int.emod_eq_of_lt (Int.natCast_nonneg i) (Int.ofNat_lt.mpr hi)

end

namespace Position

def translate (dx dy : Int) (p : Position) : Position :=
  ⟨⟨translated width dx p.x, translated_lt dx p.x⟩,
    ⟨translated height dy p.y, translated_lt dy p.y⟩⟩

@[simp] theorem translate_neg_translate (dx dy : Int) (p : Position) :
    (p.translate dx dy).translate (-dx) (-dy) = p := by
  simp [translate, translated_neg_translated]

theorem neighbour_translate (dx dy : Int) (p : Position) (d : Direction) :
    (p.translate dx dy).neighbour d = (p.neighbour d).translate dx dy := by
  cases d with
  | right => simp [neighbour, translate, Fin.ext_iff, Fin.val_add, Nat.add_comm _ 1, translated_add]
  | left => simp [neighbour, translate, Fin.ext_iff, Fin.val_sub, translated_add]
  | up => simp [neighbour, translate, Fin.ext_iff, Fin.val_sub, translated_add]
  | down => simp [neighbour, translate, Fin.ext_iff, Fin.val_add, Nat.add_comm _ 1, translated_add]

end Position

def Cursor.translate (dx dy : Int) (c : Cursor) : Cursor :=
  { c with position := c.position.translate dx dy }

theorem Cursor.advance_translate (dx dy : Int) (c : Cursor) :
    (c.translate dx dy).advance = c.advance.translate dx dy := by
  simp only [advance, translate, Position.neighbour_translate]

@[irreducible]
def Playfield.translate (dx dy : Int) (field : Playfield) : Playfield :=
  ofFn fun p => field.get (p.translate (-dx) (-dy))

theorem Playfield.get_translate (dx dy : Int) (field : Playfield) (p : Position) :
    (field.translate dx dy).get (p.translate dx dy) = field.get p := by
  rw [Playfield.translate, get_ofFn, Position.translate_neg_translate]

def Fault.translate (dx dy : Int) : Fault → Fault
  | .unknownInstruction code x y =>
    .unknownInstruction code (translated width dx x) (translated height dy y)
  | fault => fault

def Record.translate (dx dy : Int) : Record → Record
  | .stepBegun steps cursor code => .stepBegun steps (cursor.translate dx dy) code
  | record => record

namespace Machine

variable {σ ι ω : Type} {dx dy : Int}

/-- The next step addresses a cell by its coordinates. -/
def Addresses (m : Machine σ ι ω) : Prop := m.order = some .get ∨ m.order = some .put

instance (m : Machine σ ι ω) : Decidable m.Addresses := inferInstanceAs (Decidable (_ ∨ _))

def translate (dx dy : Int) (m : Machine σ ι ω) : Machine σ ι ω :=
  { m with field := m.field.translate dx dy, cursor := m.cursor.translate dx dy }

end Machine

def Reply.translate {σ ι ω α : Type} (dx dy : Int) (r : Reply σ α ι ω) : Reply σ α ι ω :=
  ⟨r.answer.mapError (·.translate dx dy), r.machine.translate dx dy,
    r.records.map (·.translate dx dy)⟩

namespace Machine

variable {σ ι ω : Type} {dx dy : Int}

theorem fetch_translate (m : Machine σ ι ω) : (m.translate dx dy).fetch = m.fetch :=
  m.field.get_translate dx dy m.cursor.position

theorem begun_translate (m : Machine σ ι ω) :
    (m.translate dx dy).begun = m.begun.translate dx dy := by
  simp only [begun, fetch_translate, Record.translate]
  rfl

theorem order_translate (m : Machine σ ι ω) : (m.translate dx dy).order = m.order := by
  simp only [order, swallows, fetch_translate]
  rfl

theorem advance_translate (m : Machine σ ι ω) :
    (m.translate dx dy).advance = m.advance.translate dx dy := by
  simp only [advance, translate, Cursor.advance_translate]

theorem proceed_translate (m : Machine σ ι ω) :
    (m.translate dx dy).proceed = m.proceed.translate dx dy := by
  simp only [proceed, advance_translate]
  rfl

theorem conclude_translate (begun : Record) (r : Reply σ Unit ι ω) :
    conclude (begun.translate dx dy) (r.translate dx dy) = (conclude begun r).translate dx dy := by
  obtain ⟨answer, left, records⟩ := r
  cases answer with
  | ok =>
    change (left.translate dx dy).proceed.done (_ :: records.map _) = _
    rw [proceed_translate]
    rfl
  | error fault => rfl

theorem emit_translate [OutputSink ω] (m : Machine σ ι ω) (bytes : List UInt8) :
    (m.translate dx dy).emit bytes = (m.emit bytes).translate dx dy := by
  simp only [emit, translate]
  split <;> rfl

theorem translate_integerOnLine (line : List UInt8) :
    (integerOnLine line).2.map (·.translate dx dy) = (integerOnLine line).2 := by
  simp only [integerOnLine]
  split <;> rfl

theorem translate_operandRecords (op : Operator) (s : Stack) :
    (operandRecords op s).map (·.translate dx dy) = operandRecords op s := by
  cases op with
  | divide =>
    simp only [operandRecords]
    split <;> rfl
  | modulo =>
    simp only [operandRecords]
    split <;> rfl
  | _ => rfl

theorem readInteger_translate [InputSource ι] (m : Machine σ ι ω) :
    (m.translate dx dy).readInteger = m.readInteger.translate dx dy := by
  simp only [readInteger, translate]
  split
  · simp only [Reply.translate, done, translate_integerOnLine]
    rfl
  · rfl
  · rfl

theorem readCharacter_translate [InputSource ι] (m : Machine σ ι ω) :
    (m.translate dx dy).readCharacter = m.readCharacter.translate dx dy := by
  simp only [readCharacter, translate]
  split <;> rfl

variable [DirectionSource σ] [InputSource ι] [OutputSink ω]

theorem perform_translate (m : Machine σ ι ω) {i : Instruction} (hg : i ≠ .get) (hp : i ≠ .put) :
    (m.translate dx dy).perform i = (m.perform i).translate dx dy := by
  cases i with
  | get => contradiction
  | put => contradiction
  | bridge =>
    simp only [perform, advance_translate]
    rfl
  | operate op =>
    simp only [perform, Reply.translate, done, translate_operandRecords]
    rfl
  | readInteger => exact readInteger_translate m
  | readCharacter => exact readCharacter_translate m
  | writeInteger => exact emit_translate m _
  | writeCharacter => exact emit_translate m _
  | _ => rfl

theorem step_translate {m : Machine σ ι ω} (h : ¬ m.Addresses) :
    (m.translate dx dy).step = m.step.translate dx dy := by
  have hh : (m.translate dx dy).halted = m.halted := rfl
  have hw : (m.translate dx dy).swallows = m.swallows := by
    simp only [swallows, fetch_translate]
    rfl
  rcases m.step_cases with ⟨ht, he⟩ | ⟨hn, hs, he⟩ | ⟨i, ho, he⟩ | ⟨hn, hs, hd, he⟩
  · rw [he, step_of_halted (hh.trans ht)]
    rfl
  · rw [he, step_of_swallows (hh.trans hn) (hw.trans hs), begun_translate, fetch_translate,
      ← conclude_translate]
    rfl
  · have hg : i ≠ .get := fun hi => h (.inl (hi ▸ ho))
    have hp : i ≠ .put := fun hi => h (.inr (hi ▸ ho))
    rw [he, step_of_order ((order_translate m).trans ho), begun_translate,
      perform_translate m hg hp, conclude_translate]
  · have hd' : Instruction.decode (m.translate dx dy).fetch = none := by rw [fetch_translate, hd]
    rw [he, step_of_lost (hh.trans hn) (hw.trans hs) hd', begun_translate, ← conclude_translate]
    simp only [lost, fetch_translate]
    rfl

theorem runs_commute_with_translation {m : Machine σ ι ω} {k : Nat}
    (hk : ∀ i < k, ¬ (m.after i).Addresses) (dx dy : Int) :
    (∀ i < k, ((m.translate dx dy).after i).step = (m.after i).step.translate dx dy) ∧
      (m.translate dx dy).after k = (m.after k).translate dx dy := by
  have ha : ∀ i ≤ k, (m.translate dx dy).after i = (m.after i).translate dx dy := by
    intro i hi
    induction i with
    | zero => rfl
    | succ i ih =>
      rw [after_succ, after_succ, ih (Nat.le_of_lt hi), step_translate (hk i hi)]
      rfl
  refine ⟨fun i hi => ?_, ha k (Nat.le_refl k)⟩
  rw [ha i (Nat.le_of_lt hi), step_translate (hk i hi)]

/-- Goes over the right edge, and is lost in the second column. -/
def lapping : Machine Script :=
  { start (.ofLines [" =".toList.map Char.toUInt8]) (.ofBytes []) .unlimited (.ofList []) with
    cursor := .placed 79 0 .right }

theorem runs_commute_with_translation_lapping :
    (lapping.translate 78 (-1)).after 2 = (lapping.after 2).translate 78 (-1) ∧
      ((lapping.translate 78 (-1)).after 2).step.answer =
        .error (.unknownInstruction '='.toUInt8 79 24) := by
  have hk : ∀ i < 3, ¬ (lapping.after i).Addresses := by decide +kernel
  obtain ⟨hs, -⟩ := runs_commute_with_translation hk 78 (-1)
  obtain ⟨-, ha⟩ := runs_commute_with_translation (fun i hi => hk i (Nat.lt_succ_of_lt hi)) 78 (-1)
  refine ⟨ha, ?_⟩
  rw [hs 2 (by decide)]
  rfl

end Machine

end Befunge
