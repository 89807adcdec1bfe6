import Befunge.Proofs.Failure
import Befunge.Proofs.Lockstep
import Mathlib.Data.List.Infix
import Mathlib.Data.List.TakeWhile

/-! What a run can know of its input. It reads the input from left to right, and as long as it has
not reached the end, whatever may follow makes no difference to it. -/

namespace Befunge

open Source

namespace InputSource

variable {ι : Type} [InputSource ι]

/-- The source first delivers the bytes, in single bytes or in lines, and is `rest` once they are
used up. A line that is still open then fails if `rest` fails. -/
inductive Delivers (rest : ι) : List UInt8 → ι → Prop where
  | nothing : Delivers rest [] rest
  | more {source : ι} {b : UInt8} {bytes : List UInt8}
      (hb : (takeByte source).1 = .got b)
      (hr : Delivers rest bytes (takeByte source).2)
      (hl : ∀ line later, newline ∉ line → b :: bytes = line ++ newline :: later →
        (takeLine source).1 = .got (line ++ [newline]))
      (hc : ∀ line later, newline ∉ line → b :: bytes = line ++ newline :: later →
        Delivers rest later (takeLine source).2)
      (hf : ∀ cause, newline ∉ b :: bytes → (takeLine rest).1 = .failed cause →
        (takeLine source).1 = .failed cause) : Delivers rest (b :: bytes) source

def Broken (source : ι) (cause : String) : Prop :=
  (takeByte source).1 = .failed cause ∧ (takeLine source).1 = .failed cause

namespace Delivers

variable {rest source : ι} {bytes : List UInt8}

theorem byte {b : UInt8} (h : Delivers rest (b :: bytes) source) :
    (takeByte source).1 = .got b ∧ Delivers rest bytes (takeByte source).2 := by
  cases h with
  | more hb hr => exact ⟨hb, hr⟩

theorem line {line later : List UInt8} (h : Delivers rest (line ++ newline :: later) source)
    (hn : newline ∉ line) :
    (takeLine source).1 = .got (line ++ [newline]) ∧ Delivers rest later (takeLine source).2 := by
  generalize hs : line ++ newline :: later = bytes at h
  cases h with
  | nothing => simp at hs
  | more hb hr hl hc => exact ⟨hl _ _ hn hs.symm, hc _ _ hn hs.symm⟩

theorem openLine {cause : String} (h : Delivers rest bytes source) (hn : newline ∉ bytes)
    (hb : Broken rest cause) : (takeLine source).1 = .failed cause := by
  cases h with
  | nothing => exact hb.2
  | more _ _ _ _ hf => exact hf cause hn hb.2

end Delivers

/-- The source gives the bytes, read one by one, and is `rest` once they are used up. -/
inductive Gives (rest : ι) : List UInt8 → ι → Prop where
  | nothing : Gives rest [] rest
  | more {source : ι} {b : UInt8} {bytes : List UInt8} (hb : (takeByte source).1 = .got b)
      (hr : Gives rest bytes (takeByte source).2) : Gives rest (b :: bytes) source

namespace Gives

variable [LawfulInputSource ι] {rest source : ι} {bytes : List UInt8}

theorem line {line later : List UInt8} (h : Gives rest (line ++ newline :: later) source)
    (hn : newline ∉ line) :
    ∃ next, takeLine source = (.got (line ++ [newline]), next) ∧ Gives rest later next := by
  induction line generalizing source with
  | nil =>
    cases h with
    | more hb hr =>
      exact ⟨_, LawfulInputSource.takeLine_of_newline (Prod.ext hb rfl), hr⟩
  | cons b line ih =>
    obtain ⟨hne, hl⟩ := not_or.mp (mt List.mem_cons.mpr hn)
    cases h with
    | more hb hr =>
      obtain ⟨next, ht, hg⟩ := ih hr hl
      refine ⟨next, ?_, hg⟩
      rw [LawfulInputSource.takeLine_of_byte (Prod.ext hb rfl) (Ne.symm hne), ht]
      rfl

theorem openLine {cause : String} (h : Gives rest bytes source) (hn : newline ∉ bytes)
    (hf : (takeLine rest).1 = .failed cause) : (takeLine source).1 = .failed cause := by
  induction h with
  | nothing => exact hf
  | more hb _ ih =>
    obtain ⟨hne, hl⟩ := not_or.mp (mt List.mem_cons.mpr hn)
    rw [LawfulInputSource.takeLine_of_byte (Prod.ext hb rfl) (Ne.symm hne), ih hl]
    rfl

/-- A lawful source need be asked for single bytes only to know that it delivers them. -/
theorem delivers (h : Gives rest bytes source) : Delivers rest bytes source := by
  -- a line may take many bytes at once, so the induction is on their number
  induction hk : bytes.length using Nat.strongRecOn generalizing bytes source with
  | ind k ih =>
    subst hk
    cases h with
    | nothing => exact .nothing
    | @more _ b bytes hb hr =>
      have hs : Gives rest (b :: bytes) source := .more hb hr
      refine .more hb (ih _ (Nat.lt_succ_self _) hr rfl) (fun line later hl he => ?_)
        (fun line later hl he => ?_) fun cause hl hf => hs.openLine hl hf
      · obtain ⟨next, ht, -⟩ := (he ▸ hs).line hl
        rw [ht]
      · obtain ⟨next, ht, hg⟩ := (he ▸ hs).line hl
        have hlen := congrArg List.length he
        simp only [List.length_cons, List.length_append] at hlen ⊢
        rw [ht]
        exact ih _ (by rw [List.length_cons]; omega) hg rfl

end Gives

theorem delivers_iff_gives [LawfulInputSource ι] {rest source : ι} {bytes : List UInt8} :
    Delivers rest bytes source ↔ Gives rest bytes source := by
  refine ⟨fun h => ?_, Gives.delivers⟩
  induction bytes generalizing source with
  | nil =>
    cases h
    exact .nothing
  | cons b bytes ih => exact .more h.byte.1 (ih h.byte.2)

end InputSource

namespace Input

theorem ne_newline_of_not_mem {line : List UInt8} (hn : newline ∉ line) :
    ∀ b ∈ line, (b != newline) = true := by
  intro b hb
  have hne : b ≠ newline := fun he => hn (he ▸ hb)
  simpa using hne

theorem takeLine_append {line : List UInt8} (hn : newline ∉ line) (later : List UInt8)
    (failure : Option String) :
    takeLine ⟨line ++ newline :: later, failure⟩ =
      (.got (line ++ [newline]), ⟨later, failure⟩) := by
  have hp := ne_newline_of_not_mem hn
  simp [takeLine, List.takeWhile_append_of_pos hp, List.dropWhile_append_of_pos hp]

theorem takeLine_eq_failed_iff {i : Input} {cause : String} :
    i.takeLine.1 = .failed cause ↔ newline ∉ i.pending ∧ i.failure = some cause := by
  obtain ⟨pending, failure⟩ := i
  by_cases hn : newline ∈ pending
  · obtain ⟨line, later, rfl, hl⟩ := List.eq_append_cons_of_mem hn
    rw [takeLine_append hl]
    simp
  · have hp := ne_newline_of_not_mem hn
    have hd : pending.dropWhile (· != newline) = [] := List.dropWhile_eq_nil_iff.mpr hp
    cases failure with
    | none =>
      simp only [takeLine, hd, atEnd, Option.isSome_none, Bool.false_or]
      split <;> simp
    | some c => simp [takeLine, hd, atEnd, hn]

theorem takeByte_suffix (i : Input) : i.takeByte.2.pending <:+ i.pending := by
  obtain ⟨pending, failure⟩ := i
  cases pending with
  | nil => exact List.suffix_rfl
  | cons b bytes => exact List.suffix_cons b bytes

theorem takeLine_suffix (i : Input) : i.takeLine.2.pending <:+ i.pending := by
  have hs := List.dropWhile_suffix (l := i.pending) (· != newline)
  unfold takeLine
  cases hd : i.pending.dropWhile (· != newline) with
  | nil => exact List.nil_suffix
  | cons b later =>
    rw [hd] at hs
    exact (List.suffix_cons b later).trans hs

theorem delivers (bytes more : List UInt8) (failure : Option String) :
    InputSource.Delivers (⟨more, failure⟩ : Input) bytes ⟨bytes ++ more, failure⟩ := by
  refine InputSource.Gives.delivers ?_
  induction bytes with
  | nil => exact .nothing
  | cons b bytes ih => exact .more rfl ih

theorem eq_of_delivers {bytes : List UInt8} {rest source : Input}
    (h : InputSource.Delivers rest bytes source) :
    source = ⟨bytes ++ rest.pending, rest.failure⟩ := by
  induction bytes generalizing source with
  | nil =>
    cases h
    rfl
  | cons b bytes ih =>
    obtain ⟨hb, hr⟩ := h.byte
    obtain ⟨pending, failure⟩ := source
    cases pending with
    | nil => cases failure <;> cases hb
    | cons c pending =>
      cases hb
      have hi := ih hr
      cases hi
      rfl

end Input

namespace Machine

variable {σ ι ω : Type}

/-- The next step needs more than the pending input. -/
def ReachesEnd (m : Machine σ Input ω) : Prop :=
  (m.order = some .readCharacter ∧ m.input.pending = []) ∨
    (m.order = some .readInteger ∧ newline ∉ m.input.pending)

instance (m : Machine σ Input ω) : Decidable m.ReachesEnd :=
  inferInstanceAs (Decidable (_ ∨ _))

/-- The driver of a session fetches more input exactly when the next step needs it. -/
theorem awaitsInput_iff (m : Machine σ) : m.awaitsInput = true ↔ m.ReachesEnd := by
  cases hh : m.halted with
  | true => simp [awaitsInput, ReachesEnd, order, hh]
  | false =>
    cases hq : m.quoting with
    | true =>
      have ho : ∀ i, i ≠ .quote → m.order ≠ some i := by
        intro i hi ho
        rw [quoting_eq_false_of_order ho hi] at hq
        contradiction
      simp [awaitsInput, ReachesEnd, hq, ho .readCharacter, ho .readInteger]
    | false =>
      have ho : m.order = Instruction.decode m.fetch := by
        simp [order, hh, swallows_eq_false_of_quoting hq]
      simp only [awaitsInput, ReachesEnd, ho, hh, hq, Bool.not_false, Bool.and_self, Bool.true_and]
      cases hd : Instruction.decode m.fetch with
      | none => simp
      | some i => cases i <;> simp

def onInput {ι' : Type} (input : ι') (m : Machine σ ι ω) : Machine σ ι' ω := { m with input }

/-- The second machine differs from the first in its source only, which first delivers what is
pending for the first, and then is `rest`. -/
def Ahead [InputSource ι] (rest : ι) (m : Machine σ Input ω) (m' : Machine σ ι ω) : Prop :=
  ∃ source, InputSource.Delivers rest m.input.pending source ∧ m' = m.onInput source

theorem readCharacter_onInput [InputSource ι] {m : Machine σ Input ω} {rest source : ι}
    (h : InputSource.Delivers rest m.input.pending source) (hp : m.input.pending ≠ []) :
    m.readCharacter.Agree (Ahead rest) (m.onInput source).readCharacter := by
  obtain ⟨b, bytes, hb⟩ := List.exists_cons_of_ne_nil hp
  rw [hb] at h
  obtain ⟨hg, hr⟩ := h.byte
  have ht : InputSource.takeByte m.input = (.got b, { m.input with pending := bytes }) := by
    simp only [InputSource.takeByte, Input.takeByte, hb]
  simp only [readCharacter, onInput, ht, hg]
  exact ⟨rfl, rfl, _, hr, rfl⟩

theorem readInteger_onInput [InputSource ι] {m : Machine σ Input ω} {rest source : ι}
    (h : InputSource.Delivers rest m.input.pending source) (hp : newline ∈ m.input.pending) :
    m.readInteger.Agree (Ahead rest) (m.onInput source).readInteger := by
  obtain ⟨line, later, hs, hl⟩ := List.eq_append_cons_of_mem hp
  rw [hs] at h
  obtain ⟨hg, hr⟩ := h.line hl
  have ht : InputSource.takeLine m.input =
      (.got (line ++ [newline]), { m.input with pending := later }) := by
    have hi : m.input = ⟨line ++ newline :: later, m.input.failure⟩ := by rw [← hs]
    rw [hi]
    exact Input.takeLine_append hl later _
  simp only [readInteger, onInput, ht, hg]
  exact ⟨rfl, rfl, _, hr, rfl⟩

theorem emit_onInput [OutputSink ω] [InputSource ι] {m : Machine σ Input ω} {rest source : ι}
    (h : InputSource.Delivers rest m.input.pending source) (bytes : List UInt8) :
    (m.emit bytes).Agree (Ahead rest) ((m.onInput source).emit bytes) := by
  simp only [emit, onInput]
  split <;> exact ⟨rfl, rfl, source, h, rfl⟩

variable [DirectionSource σ] [InputSource ι] [OutputSink ω]

theorem perform_onInput {m : Machine σ Input ω} {rest source : ι} {i : Instruction}
    (h : InputSource.Delivers rest m.input.pending source) (ho : m.order = some i)
    (he : ¬ m.ReachesEnd) :
    (m.perform i).Agree (Ahead rest) ((m.onInput source).perform i) := by
  rw [ReachesEnd, not_or] at he
  cases i with
  | readCharacter => exact readCharacter_onInput h fun hp => he.1 ⟨ho, hp⟩
  | readInteger => exact readInteger_onInput h (not_not.mp fun hp => he.2 ⟨ho, hp⟩)
  | writeInteger => exact emit_onInput h _
  | writeCharacter => exact emit_onInput h _
  | get =>
    simp only [perform, getCell, onInput]
    split <;> exact ⟨rfl, rfl, source, h, rfl⟩
  | put =>
    simp only [perform, putCell, onInput]
    split <;> exact ⟨rfl, rfl, source, h, rfl⟩
  | _ => exact ⟨rfl, rfl, source, h, rfl⟩

theorem step_of_ahead {m : Machine σ Input ω} {m' : Machine σ ι ω} {rest : ι}
    (h : Ahead rest m m') (he : ¬ m.ReachesEnd) : m.step.Agree (Ahead rest) m'.step := by
  obtain ⟨source, hd, rfl⟩ := h
  exact Alike.step {
    halted := rfl
    steps := rfl
    cursor := rfl
    quoting := rfl
    fetch := fun _ => rfl
    related := fun _ => ⟨source, hd, rfl⟩
    push := fun _ _ => ⟨source, hd, rfl⟩
    perform := fun _ ho => perform_onInput hd ho he
    proceed := fun ⟨source, hd, ha⟩ => ⟨source, hd, by rw [ha]; rfl⟩ }

theorem inStep_of_delivers {m : Machine σ Input ω} {rest source : ι} {k : Nat}
    (hk : ∀ i < k, ¬ (m.after i).ReachesEnd)
    (hd : InputSource.Delivers rest m.input.pending source) :
    InStep (Ahead rest) m (m.onInput source) k :=
  inStep_of_step (fun ⟨_, _, h⟩ => by rw [h]; rfl) (fun ⟨_, _, h⟩ => by rw [h]; rfl)
    ⟨source, hd, rfl⟩ fun i hi h => step_of_ahead h (hk i hi)

/-- A step that needs more than the source had to deliver fails with it, and nothing but the
input is touched. -/
theorem step_of_broken {m : Machine σ Input ω} {m' : Machine σ ι ω} {rest : ι} {cause : String}
    (h : Ahead rest m m') (he : m.ReachesEnd) (hb : InputSource.Broken rest cause) :
    m'.step.answer = .error (.io cause) ∧ ∃ lost, m'.step.machine = m'.onInput lost := by
  obtain ⟨source, hd, rfl⟩ := h
  rcases he with ⟨ho, hp⟩ | ⟨ho, hp⟩
  · rw [hp] at hd
    cases hd
    have ha : (m.onInput rest).readCharacter.answer = .error (.io cause) :=
      readCharacter_eq_error_iff.mpr ⟨cause, rfl, hb.1⟩
    rw [step_of_order (m := m.onInput rest) ho, perform, answer_conclude,
      machine_conclude_of_error _ ha]
    exact ⟨ha, _, machine_readCharacter_of_error ha⟩
  · have ha : (m.onInput source).readInteger.answer = .error (.io cause) :=
      readInteger_eq_error_iff.mpr ⟨cause, rfl, hd.openLine hp hb⟩
    rw [step_of_order (m := m.onInput source) ho, perform, answer_conclude,
      machine_conclude_of_error _ ha]
    exact ⟨ha, _, machine_readInteger_of_error ha⟩

theorem pending_step (m : Machine σ Input ω) :
    m.step.machine.input.pending <:+ m.input.pending := by
  rcases m.input_step with h | h | h
  · rw [h]
  · rw [h]
    exact m.input.takeLine_suffix
  · rw [h]
    exact m.input.takeByte_suffix

theorem pending_after (m : Machine σ Input ω) (k : Nat) :
    (m.after k).input.pending <:+ m.input.pending := by
  induction k with
  | zero => exact List.suffix_rfl
  | succ k ih =>
    rw [after_succ]
    exact (pending_step _).trans ih

theorem unread_input_unobservable {m : Machine σ Input ω} {k : Nat}
    (hk : ∀ i < k, ¬ (m.after i).ReachesEnd) :
    (m.after k).input.pending <:+ m.input.pending ∧
    (∀ {ι : Type} [InputSource ι] {rest source : ι},
      InputSource.Delivers rest m.input.pending source →
        InStep (Ahead rest) m (m.onInput source) k ∧
        ((m.after k).ReachesEnd → ∀ cause, InputSource.Broken rest cause →
          ((m.onInput source).after k).step.answer = .error (.io cause) ∧
          ∃ lost, ((m.onInput source).after k).step.machine =
            ((m.onInput source).after k).onInput lost)) ∧
    ∀ more failure, (m.onInput (⟨m.input.pending ++ more, failure⟩ : Input)).after k =
      (m.after k).onInput ⟨(m.after k).input.pending ++ more, failure⟩ := by
  refine ⟨pending_after m k, fun hd => ?_, fun more failure => ?_⟩
  · have hs := inStep_of_delivers hk hd
    exact ⟨hs, fun he cause hb => step_of_broken (hs.after k (Nat.le_refl k)) he hb⟩
  · have hd := Input.delivers m.input.pending more failure
    obtain ⟨source, hl, he⟩ := (inStep_of_delivers hk hd).after k (Nat.le_refl k)
    rw [he, Input.eq_of_delivers hl]

/-- Reads a character and a line, and would then read another character. -/
def querying : Machine Script :=
  .start (.ofLines ["~&~@".toList.map Char.toUInt8]) (.ofBytes ("a12\n".toList.map Char.toUInt8))
    .unlimited (.ofList [])

theorem unread_input_unobservable_querying :
    (∀ i < 2, ¬ (querying.after i).ReachesEnd) ∧ (querying.after 2).ReachesEnd ∧
    (querying.onInput (⟨querying.input.pending ++ [], some "lost"⟩ : Input)).after 2 =
      (querying.after 2).onInput ⟨[], some "lost"⟩ ∧
    ((querying.onInput (⟨querying.input.pending ++ [], some "lost"⟩ : Input)).after 2).step.answer =
      .error (.io "lost") := by
  have hk : ∀ i < 2, ¬ (querying.after i).ReachesEnd := by decide +kernel
  have he : (querying.after 2).ReachesEnd := by decide +kernel
  have hp : (querying.after 2).input.pending = [] := by decide +kernel
  obtain ⟨-, hs, ha⟩ := unread_input_unobservable hk
  have hb : InputSource.Broken (⟨[], some "lost"⟩ : Input) "lost" := ⟨rfl, rfl⟩
  refine ⟨hk, he, ?_, ((hs (Input.delivers _ [] _)).2 he "lost" hb).1⟩
  rw [ha, hp]
  rfl

end Machine

end Befunge
