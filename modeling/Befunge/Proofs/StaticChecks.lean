import Befunge.Proofs.Footprint
import Befunge.Proofs.Reachable

/-! Checks of the loaded surface that hold for every run. A surface without `p` stays as it was
loaded, and then what its cells do not hold can never happen. -/

namespace Befunge

namespace Playfield

def Lacks (field : Playfield) (i : Instruction) : Prop := ∀ p, field.get p ≠ i.symbol.toUInt8

def Decodes (field : Playfield) : Prop := ∀ p, Instruction.decode (field.get p) ≠ none

end Playfield

namespace Machine

variable {σ ι ω : Type}

theorem order_ne_of_lacks {m : Machine σ ι ω} {i : Instruction} (h : m.field.Lacks i) :
    m.order ≠ some i := by
  intro ho
  obtain ⟨-, -, hd⟩ := order_eq_some_iff.mp ho
  exact h m.cursor.position (Instruction.decode_eq_some_iff.mp hd)

section

variable [InputSource ι] [OutputSink ω]

theorem decode_eq_none_of_fails {m : Machine σ ι ω} {code : UInt8} {x y : Nat}
    (h : m.Fails (.unknownInstruction code x y)) : Instruction.decode m.fetch = none := by
  cases h with
  | lost _ hd => exact hd

theorem fetch_of_fails {m : Machine σ ι ω} {x y : Int64} (h : m.Fails (.outOfBounds x y)) :
    m.fetch = 'g'.toUInt8 ∨ m.fetch = 'p'.toUInt8 := by
  cases h with
  | outside _ hf _ => exact hf

theorem not_fails_io {m : Machine σ ι ω} (hi : InputSource.NeverFails m.input)
    (ho : OutputSink.NeverFails m.output) (cause : String) : ¬ m.Fails (.io cause) := by
  intro h
  cases h with
  | unwritten _ _ hw =>
    rw [(ho _ .same).1] at hw
    contradiction
  | unflushed _ _ _ hc =>
    rw [(ho _ (.written .same _)).2] at hc
    contradiction
  | noLine _ _ hr => exact (hi _ .same cause).2 hr
  | noByte _ _ hr => exact (hi _ .same cause).1 hr

end

variable [DirectionSource σ] [InputSource ι] [OutputSink ω]

theorem field_step_of_lacks {m : Machine σ ι ω} (h : m.field.Lacks .put) :
    m.step.machine.field = m.field := by
  have hd : m.deposit = none := by rw [deposit, if_neg (order_ne_of_lacks h)]
  rw [field_step, hd]
  rfl

theorem halted_step_of_lacks {m : Machine σ ι ω} (h : m.field.Lacks .exit) :
    m.step.machine.halted = m.halted := by
  refine holds_of_step (P := fun a => a.halted = m.halted) (fun h => h) (fun _ => rfl)
    (fun _ _ => rfl) fun i ho => (frame_perform m i).halted ?_
  rintro rfl
  exact order_ne_of_lacks h ho

theorem neverFails_input_step {m : Machine σ ι ω} (h : InputSource.NeverFails m.input) :
    InputSource.NeverFails m.step.machine.input := by
  rcases m.input_step with hi | hi | hi
  · rwa [hi]
  · rw [hi]
    exact h.of_becomes (.line .same)
  · rw [hi]
    exact h.of_becomes (.byte .same)

theorem neverFails_output_step {m : Machine σ ι ω} (h : OutputSink.NeverFails m.output) :
    OutputSink.NeverFails m.step.machine.output := by
  by_cases hw : m.Writes
  · rw [output_step_of_writes hw]
    exact h.of_becomes (OutputSink.becomes_deliver _ _)
  · rwa [output_step_of_silent hw]

/-- What the checks of a surface without `p` promise of a machine that has it loaded. -/
structure Checked (field : Playfield) (m : Machine σ ι ω) : Prop where
  field_eq : m.field = field
  not_halted : field.Lacks .exit → m.halted = false

theorem checked_step {field : Playfield} (hp : field.Lacks .put) {m : Machine σ ι ω}
    (h : m.Checked field) : m.step.machine.Checked field := by
  obtain ⟨rfl, hh⟩ := h
  refine ⟨field_step_of_lacks hp, fun he => ?_⟩
  rw [halted_step_of_lacks he]
  exact hh he

theorem static_checks_sound {field : Playfield} (hp : field.Lacks .put) (input : ι) (output : ω)
    (directions : σ) {m : Machine σ ι ω} (hm : (start field input output directions).Reaches m) :
    m.field = field ∧
    (field.Lacks .exit → m.halted = false) ∧
    (field.Decodes → ∀ code x y, ¬ m.Meets (.unknownInstruction code x y)) ∧
    (field.Lacks .get → ∀ x y, ¬ m.Meets (.outOfBounds x y)) ∧
    (field.Decodes → field.Lacks .get → InputSource.NeverFails input →
      OutputSink.NeverFails output → ∀ fault, ¬ m.Meets fault) := by
  have hc : ∀ k, (m.after k).Checked field :=
    hm.invariant (fun _ => checked_step hp) (fun _ _ h => ⟨h.field_eq, h.not_halted⟩)
      ⟨rfl, fun _ => rfl⟩
  have hfetch : ∀ k, (m.after k).fetch = field.get (m.after k).cursor.position := fun k => by
    rw [fetch, (hc k).field_eq]
  have hd : field.Decodes → ∀ code x y, ¬ m.Meets (.unknownInstruction code x y) := by
    intro h code x y hu
    obtain ⟨k, hk⟩ := exists_step_of_meets hu
    have hn := decode_eq_none_of_fails (fails_of_step hk).1
    rw [hfetch] at hn
    exact h _ hn
  have hg : field.Lacks .get → ∀ x y, ¬ m.Meets (.outOfBounds x y) := by
    intro h x y ho
    obtain ⟨k, hk⟩ := exists_step_of_meets ho
    have hf := fetch_of_fails (fails_of_step hk).1
    rw [hfetch] at hf
    exact hf.elim (h _) (hp _)
  refine ⟨(hc 0).field_eq, (hc 0).not_halted, hd, hg, fun h h' hi ho fault hf => ?_⟩
  obtain ⟨k, hk⟩ := exists_step_of_meets hf
  have hk' := (fails_of_step hk).1
  have hio : InputSource.NeverFails (m.after k).input ∧ OutputSink.NeverFails (m.after k).output :=
    hm.invariant (P := fun a => InputSource.NeverFails a.input ∧ OutputSink.NeverFails a.output)
      (fun _ hb => ⟨neverFails_input_step hb.1, neverFails_output_step hb.2⟩) (fun _ _ hb => hb)
      ⟨hi, ho⟩ k
  cases fault with
  | unknownInstruction code x y => exact hd h code x y hf
  | outOfBounds x y => exact hg h' x y hf
  | io cause => exact not_fails_io hio.1 hio.2 cause hk'
  | load path cause => cases hk'

/-- Copies its input to its output, and goes on for ever. -/
def echoing : Playfield :=
  .ofFn fun p => if p.x.val % 2 = 0 then '~'.toUInt8 else ','.toUInt8

theorem get_echoing {P : UInt8 → Prop} (hr : P '~'.toUInt8) (hw : P ','.toUInt8) (p : Position) :
    P (echoing.get p) := by
  rw [echoing, Playfield.get_ofFn]
  split
  · exact hr
  · exact hw

/-- Starts with one byte to copy, and then only reads the end of its input. -/
def startedEchoing : Machine Script := start echoing (.ofBytes [7]) .unlimited (.ofList [])

theorem static_checks_sound_echoing :
    echoing.Lacks .put ∧ ∀ limit fault, (startedEchoing.runFor limit).answer ≠ .error fault := by
  have hd : echoing.Decodes :=
    get_echoing (P := (Instruction.decode · ≠ none)) (by decide) (by decide)
  have hp : echoing.Lacks .put := get_echoing (P := (· ≠ _)) (by decide) (by decide)
  have hg : echoing.Lacks .get := get_echoing (P := (· ≠ _)) (by decide) (by decide)
  have hr : startedEchoing.Reaches startedEchoing := .same
  obtain ⟨-, -, -, -, hf⟩ := static_checks_sound hp _ _ _ hr
  have hi : InputSource.NeverFails (Input.ofBytes [7]) := Input.neverFails rfl
  have ho : OutputSink.NeverFails Output.unlimited := Output.neverFails ⟨rfl, rfl⟩
  exact ⟨hp, fun limit fault h => hf hd hg hi ho fault (.inr (.inl ⟨limit, h⟩))⟩

end Machine

end Befunge
