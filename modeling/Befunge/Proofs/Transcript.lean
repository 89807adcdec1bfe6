import Befunge.Proofs.Histories
import Befunge.Proofs.IntegerInput
import Mathlib.Data.List.Forall2

/-! The records of a history are its transcript. An attempt at a step makes the record that the step
has begun and at most one remark on what it did, a run that leaves a halted machine makes one
record, and nothing else makes any. -/

namespace Befunge.Machine

open Text Text.Decimal

variable {σ ι ω : Type}

/-- What the next step remarks on. -/
inductive Remarks [InputSource ι] (m : Machine σ ι ω) : Record → Prop where
  | division (hq : m.quoting = false) (hf : m.fetch = '/'.toUInt8) (hz : m.stack.top = 0) :
      m.Remarks (.divisionByZero m.stack.pop.top)
  | modulo (hq : m.quoting = false) (hf : m.fetch = '%'.toUInt8) (hz : m.stack.top = 0) :
      m.Remarks (.moduloByZero m.stack.pop.top)
  | noLine (hq : m.quoting = false) (hf : m.fetch = '&'.toUInt8)
      (he : (InputSource.takeLine m.input).1 = .ended) : m.Remarks .integerInputEnded
  | noByte (hq : m.quoting = false) (hf : m.fetch = '~'.toUInt8)
      (he : (InputSource.takeByte m.input).1 = .ended) : m.Remarks .characterInputEnded
  | noInteger {line : List UInt8} (hq : m.quoting = false) (hf : m.fetch = '&'.toUInt8)
      (hl : (InputSource.takeLine m.input).1 = .got line)
      (hn : ∀ i, BeginsWith (Utf8.decode line) i → i < -2 ^ 63 ∨ 2 ^ 63 - 1 < i) :
      m.Remarks (.integerInputMalformed (trim (Utf8.decode line)))

inductive Logs [InputSource ι] : Event σ ι ω → List Record → Prop where
  | plain {m : Machine σ ι ω} (h : ∀ r, ¬ m.Remarks r) :
      Logs (.attempt m) [.stepBegun m.steps m.cursor m.fetch]
  | remarked {m : Machine σ ι ω} {r : Record} (h : m.Remarks r) :
      Logs (.attempt m) [.stepBegun m.steps m.cursor m.fetch, r]
  | finish (m : Machine σ ι ω) : Logs (.finish m) [.halted m.steps]

theorem Logs.level [InputSource ι] {e : Event σ ι ω} {part : List Record} (h : Logs e part) :
    ∀ r ∈ part, r.level = .trace ∨ r.level = .debug := by
  cases h with
  | plain => simp [Record.level]
  | remarked hr => cases hr <;> simp [Record.level]
  | finish => simp [Record.level]

theorem records_conclude (begun : Record) (r : Reply σ Unit ι ω) :
    (conclude begun r).records = begun :: r.records := by
  obtain ⟨answer, left, records⟩ := r
  cases answer <;> rfl

theorem records_emit [OutputSink ω] (m : Machine σ ι ω) (bytes : List UInt8) :
    (m.emit bytes).records = [] := by
  simp only [emit]
  split <;> rfl

theorem records_getCell (m : Machine σ ι ω) : m.getCell.records = [] := by
  simp only [getCell]
  split <;> rfl

theorem records_putCell (m : Machine σ ι ω) : m.putCell.records = [] := by
  simp only [putCell]
  split <;> rfl

theorem integerOnLine_snd (line : List UInt8) :
    (integerOnLine line).2 =
      if leadingWord? (Utf8.decode line) = none then
        [.integerInputMalformed (trim (Utf8.decode line))] else [] := by
  unfold integerOnLine
  dsimp only
  cases leadingWord? (Utf8.decode line) <;> rfl

theorem records_readInteger [InputSource ι] (m : Machine σ ι ω) :
    m.readInteger.records =
      match (InputSource.takeLine m.input).1 with
      | .got line => (integerOnLine line).2
      | .ended => [.integerInputEnded]
      | .failed _ => [] := by
  unfold readInteger
  dsimp only
  cases (InputSource.takeLine m.input).1 <;> rfl

theorem records_readCharacter [InputSource ι] (m : Machine σ ι ω) :
    m.readCharacter.records =
      match (InputSource.takeByte m.input).1 with
      | .ended => [.characterInputEnded]
      | _ => [] := by
  unfold readCharacter
  dsimp only
  cases (InputSource.takeByte m.input).1 <;> rfl

variable [DirectionSource σ] [InputSource ι] [OutputSink ω] {m left : Machine σ ι ω}
  {events : List (Event σ ι ω)} {records : List Record}

/-- The records that a step makes of what it executes. -/
def remarks (m : Machine σ ι ω) : List Record :=
  match m.order with
  | some i => (m.perform i).records
  | none => []

theorem records_step (h : m.halted = false) : m.step.records = m.begun :: m.remarks := by
  rcases m.step_cases with ⟨hh, -⟩ | ⟨-, hs, he⟩ | ⟨i, ho, he⟩ | ⟨-, hs, hd, he⟩
  · rw [h] at hh
    contradiction
  · have ho : m.order = none := by simp [order, hs]
    rw [he, records_conclude, remarks, ho]
    rfl
  · rw [he, records_conclude, remarks, ho]
  · have ho : m.order = none := by simp [order, hd]
    rw [he, records_conclude, remarks, ho]
    rfl

theorem remarks_of_fetch {i : Instruction} (hh : m.halted = false) (hq : m.quoting = false)
    (hf : m.fetch = i.symbol.toUInt8) : m.remarks = (m.perform i).records := by
  rw [remarks, order_of_fetch hh hq hf]

theorem remarks_eq_singleton {r : Record} (hh : m.halted = false) (h : m.Remarks r) :
    m.remarks = [r] := by
  cases h with
  | division hq hf hz =>
    rw [remarks_of_fetch (i := .operate .divide) hh hq hf]
    exact if_pos hz
  | modulo hq hf hz =>
    rw [remarks_of_fetch (i := .operate .modulo) hh hq hf]
    exact if_pos hz
  | noLine hq hf he =>
    rw [remarks_of_fetch (i := .readInteger) hh hq hf, perform, records_readInteger, he]
  | noByte hq hf he =>
    rw [remarks_of_fetch (i := .readCharacter) hh hq hf, perform, records_readCharacter, he]
  | noInteger hq hf hl hn =>
    rw [remarks_of_fetch (i := .readInteger) hh hq hf, perform, records_readInteger, hl]
    exact (integerOnLine_snd _).trans (if_pos (leadingWord?_eq_none_iff.mpr hn))

theorem records_perform_eq_nil_or {i : Instruction} (ho : m.order = some i) :
    (m.perform i).records = [] ∨ ∃ r, m.Remarks r := by
  cases i with
  | operate op =>
    obtain ⟨hq, hf⟩ := fetch_of_order ho nofun
    by_cases hz : m.stack.top = 0
    · cases op with
      | divide => exact .inr ⟨_, .division hq hf hz⟩
      | modulo => exact .inr ⟨_, .modulo hq hf hz⟩
      | _ => exact .inl rfl
    · cases op with
      | divide | modulo => exact .inl (if_neg hz)
      | _ => exact .inl rfl
  | readInteger =>
    obtain ⟨hq, hf⟩ := fetch_of_order ho (by decide)
    rw [perform, records_readInteger]
    cases hl : (InputSource.takeLine m.input).1 with
    | got line =>
      by_cases hn : leadingWord? (Utf8.decode line) = none
      · exact .inr ⟨_, .noInteger hq hf hl (leadingWord?_eq_none_iff.mp hn)⟩
      · exact .inl ((integerOnLine_snd line).trans (if_neg hn))
    | ended => exact .inr ⟨_, .noLine hq hf hl⟩
    | failed cause => exact .inl rfl
  | readCharacter =>
    obtain ⟨hq, hf⟩ := fetch_of_order ho (by decide)
    rw [perform, records_readCharacter]
    cases hb : (InputSource.takeByte m.input).1 with
    | got b => exact .inl rfl
    | ended => exact .inr ⟨_, .noByte hq hf hb⟩
    | failed cause => exact .inl rfl
  | get => exact .inl (records_getCell m)
  | put => exact .inl (records_putCell m)
  | writeInteger | writeCharacter => exact .inl (records_emit m _)
  | _ => exact .inl rfl

theorem logs_attempt (h : m.halted = false) : Logs (.attempt m) m.step.records := by
  have hn : m.remarks = [] ∨ ∃ r, m.Remarks r := by
    cases ho : m.order with
    | none => exact .inl (by rw [remarks, ho])
    | some i =>
      rw [remarks, ho]
      exact records_perform_eq_nil_or ho
  rw [records_step h]
  rcases hn with hn | ⟨r, hr⟩
  · rw [hn]
    refine .plain fun r hr => ?_
    rw [remarks_eq_singleton h hr] at hn
    contradiction
  · rw [remarks_eq_singleton h hr]
    exact .remarked hr

theorem Event.Timely.logs {e : Event σ ι ω} (h : e.Timely) : Logs e e.records := by
  cases e with
  | attempt a => exact logs_attempt h
  | finish a => exact .finish a

theorem forall₂_logs (h : ∀ e ∈ events, e.Timely) :
    List.Forall₂ Logs events (events.map Event.records) := by
  rw [List.forall₂_map_right_iff, List.forall₂_same]
  exact fun e he => (h e he).logs

/-- A run that goes on after `k` steps has made their records by then. -/
theorem run?_go_add {k : Nat} (h : (m.drive k).answer = .ok k) (fuel : Nat) (log : Array Record) :
    run?.go (k + fuel) m log =
      run?.go fuel (m.drive k).machine (log ++ (m.drive k).records) := by
  induction k generalizing m log with
  | zero => simp [drive]
  | succ k ih =>
    cases hh : m.halted with
    | true =>
      rw [drive_of_halted hh] at h
      cases h
    | false =>
      cases ha : m.step.answer with
      | ok =>
        rw [drive_of_ok hh ha] at h ⊢
        have hd : (m.step.machine.drive k).answer = .ok k := by
          cases hd : (m.step.machine.drive k).answer <;>
            simp_all [Reply.following, Except.map]
        rcases hs : m.step with ⟨answer, next, made⟩
        rw [hs] at ha hd
        obtain rfl : answer = .ok () := ha
        rw [Nat.succ_add, run?.go]
        simp only [hh, hs, Bool.false_eq_true, if_false, Reply.following]
        have hl : log ++ made ++ (next.drive k).records = log ++ (made ++ (next.drive k).records) :=
          Array.toList_inj.mp (by simp)
        rw [ih hd, hl]
      | error fault =>
        rw [drive_of_error hh ha] at h
        contradiction

theorem records_are_transcript (h : m.History events records left) :
    (∃ parts, List.Forall₂ Logs events parts ∧ records = parts.flatten) ∧
    (∀ e ∈ events, e.Timely) ∧
    (attempted events).map (·.steps) ++ [left.steps] = (attempted events).scanl tally m.steps ∧
    records.filter (·.reaches .trace) = records ∧
    records.filter (·.reaches .debug) = records.filter (·.level != .trace) ∧
    (∀ r ∈ records, r.reaches .warning = false) ∧
    ∀ k, (left.drive k).answer = .ok k →
      ∃ parts, List.Forall₂ Logs ((left.attempts k).map .attempt) parts ∧
        ∀ fuel, left.run? (k + fuel) = run?.go fuel (left.drive k).machine ⟨parts.flatten⟩ := by
  have hr : records = (events.map Event.records).flatten := h.records_eq.trans List.flatMap_def
  have hl : ∀ r ∈ records, r.level = .trace ∨ r.level = .debug := by
    intro r hm
    rw [h.records_eq] at hm
    obtain ⟨e, he, hm⟩ := List.mem_flatMap.mp hm
    exact (h.timely e he).logs.level r hm
  refine ⟨⟨_, forall₂_logs h.timely, hr⟩, h.timely, h.scanl_eq, List.filter_eq_self.mpr ?_,
    List.filter_congr fun r hm => ?_, fun r hm => ?_, fun k hk => ?_⟩
  · exact fun r _ => decide_eq_true (Nat.zero_le _)
  · rcases hl r hm with hl | hl <;> rw [Record.reaches, hl] <;> rfl
  · rcases hl r hm with hl | hl <;> rw [Record.reaches, hl] <;> rfl
  · refine ⟨_, forall₂_logs (timely_attempts k), fun fuel => ?_⟩
    rw [run?, run?_go_add hk, records_drive, ← List.flatMap_def, flatMap_records_attempt]
    simp

/-- Divides by a zero that is not there, leaves the field, and reads a line that holds no number. -/
def muttering : Machine Script :=
  .start (.ofLines ["/g&@".toList.map Char.toUInt8]) (.ofBytes ("x\n".toList.map Char.toUInt8))
    .unlimited (.ofList [])

/-- The second step fails once, and the machine is run again after it has halted. -/
def muttered : Machine Script :=
  ((muttering.step.machine.mapStack fun _ => .ofList [-1, -1]).step.machine.runFor 9).void.machine

theorem records_are_transcript_muttering :
    ∃ events records parts, muttering.History events records muttered ∧
      List.Forall₂ Logs events parts ∧ records = parts.flatten ∧
      (attempted events).map (·.steps) = [0, 1, 1, 2, 3] ∧
      records.filter (·.reaches .debug) =
        [.divisionByZero 0, .integerInputMalformed ['x'], .halted 4, .halted 4] := by
  have hf := (History.start (m := muttering)).call .step |>.restack (.ofList [-1, -1])
  have hr : muttering.History _ _ muttered := hf.call .step |>.call (.runFor 9)
  have hh : muttered.run? 1 = some ⟨.ok (), muttered, [.halted 4]⟩ := by
    have hm : muttered.halted = true := by decide +kernel
    have hs : muttered.steps = 4 := by decide +kernel
    simp [run?, run?.go, hm, hs]
  have h := hr.call (.run hh)
  obtain ⟨⟨parts, hp, he⟩, -⟩ := records_are_transcript h
  refine ⟨_, _, parts, h, hp, he, ?_, ?_⟩
  · decide +kernel
  · decide +kernel

end Befunge.Machine
