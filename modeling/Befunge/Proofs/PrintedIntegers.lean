import Befunge.Proofs.StaticChecks

/-! Integers that were printed can be read back. A line that begins with one yields its value
whatever else stands on it, and the bytes of integers that are printed one after the other tell
what they were. -/

namespace Befunge

open Source Text Text.Decimal

namespace Machine

theorem decode_numeral_append (v : Int64) (bytes : List UInt8) :
    Utf8.decode (numeral v ++ bytes) = ofInt v.toInt ++ ' ' :: Utf8.decode bytes := by
  have ha : ∀ c ∈ ofInt v.toInt, c.toNat < 0x80 := fun c hc => by
    have hr := toNat_range_of_mem_ofInt hc
    omega
  have hs : Playfield.space < 0x80 := by decide
  rw [numeral, List.append_assoc, List.singleton_append, Utf8.decode_map_toUInt8_append ha,
    Utf8.decode_cons_of_lt hs]
  rfl

theorem leadingWord?_numeral_append (v : Int64) (bytes : List UInt8) :
    leadingWord? (Utf8.decode (numeral v ++ bytes)) = some v := by
  have hr : ∀ c ∈ (' ' :: Utf8.decode bytes).head?, c.isDigit = false := by
    rintro c ⟨⟩
    rfl
  rw [decode_numeral_append, leadingWord?, leading?_ofInt_append v.toInt hr]
  exact word?_toInt v

theorem integerOnLine_numeral_append (v : Int64) (bytes : List UInt8) :
    integerOnLine (numeral v ++ bytes) = (v, []) := by
  simp only [integerOnLine, leadingWord?_numeral_append]

theorem numeral_ne_nil (v : Int64) : numeral v ≠ [] := List.append_ne_nil_of_right_ne_nil _ nofun

theorem newline_not_mem_numeral (v : Int64) : newline ∉ numeral v := by
  rw [numeral, List.mem_append, List.mem_map, not_or]
  refine ⟨?_, by decide⟩
  rintro ⟨c, hc, hn⟩
  have hr := toNat_range_of_mem_ofInt hc
  have ht : c.toNat % 256 = 10 := congrArg UInt8.toNat hn
  omega

/-- No list of numerals is the beginning of another one with something else after it. -/
theorem eq_of_flatMap_numeral_eq {values others : List Int64}
    (h : values.flatMap numeral = others.flatMap numeral) : values = others := by
  induction values generalizing others with
  | nil =>
    cases others with
    | nil => rfl
    | cons w others =>
      rw [List.flatMap_nil, List.flatMap_cons, eq_comm, List.append_eq_nil_iff] at h
      exact absurd h.1 (numeral_ne_nil w)
  | cons v values ih =>
    cases others with
    | nil =>
      rw [List.flatMap_nil, List.flatMap_cons, List.append_eq_nil_iff] at h
      exact absurd h.1 (numeral_ne_nil v)
    | cons w others =>
      rw [List.flatMap_cons, List.flatMap_cons] at h
      -- both sides are read from the left, and so begin with the same value
      have hv : some v = some w := by
        rw [← leadingWord?_numeral_append v, h, leadingWord?_numeral_append]
      obtain rfl := Option.some.inj hv
      rw [ih (List.append_cancel_left h)]

end Machine

/-- A printed integer and what else stands on its line. -/
structure Entry where
  value : Int64
  remark : List UInt8
deriving DecidableEq, Repr

namespace Entry

def line (e : Entry) : List UInt8 := Machine.numeral e.value ++ (e.remark ++ [newline])

def text (entries : List Entry) : List UInt8 := entries.flatMap line

theorem text_cons (e : Entry) (entries : List Entry) :
    text (e :: entries) = (Machine.numeral e.value ++ e.remark) ++ newline :: text entries := by
  simp [text, line]

theorem newline_not_mem {e : Entry} (h : newline ∉ e.remark) :
    newline ∉ Machine.numeral e.value ++ e.remark := by
  rw [List.mem_append, not_or]
  exact ⟨Machine.newline_not_mem_numeral e.value, h⟩

end Entry

namespace Machine

variable {σ ι ω : Type} [DirectionSource σ] [InputSource ι] [OutputSink ω]

/-- How many of the first `k` calls execute `&`. -/
def inquiries (m : Machine σ ι ω) (k : Nat) : Nat :=
  (List.range k).countP fun i => (m.after i).order = some .readInteger

/-- The values that the first `k` calls print as integers. -/
def printed (m : Machine σ ι ω) (k : Nat) : List Int64 :=
  ((List.range k).filter fun i => (m.after i).order = some .writeInteger).map
    fun i => (m.after i).stack.top

theorem inquiries_succ (m : Machine σ ι ω) (k : Nat) :
    m.inquiries (k + 1) =
      m.inquiries k + if (m.after k).order = some .readInteger then 1 else 0 :=
  executions_succ .readInteger m k

theorem inquiries_mono (m : Machine σ ι ω) {i k : Nat} (h : i ≤ k) :
    m.inquiries i ≤ m.inquiries k := by
  induction h with
  | refl => exact Nat.le_refl _
  | step _ ih =>
    rw [inquiries_succ]
    omega

theorem printed_succ (m : Machine σ ι ω) (k : Nat) :
    m.printed (k + 1) = m.printed k ++
      if (m.after k).order = some .writeInteger then [(m.after k).stack.top] else [] := by
  rw [printed, List.range_succ, List.filter_append, List.map_append]
  by_cases h : (m.after k).order = some .writeInteger <;> simp [printed, h]

theorem input_step_of_order_ne {m : Machine σ ι ω} (hl : m.order ≠ some .readInteger)
    (hb : m.order ≠ some .readCharacter) : m.step.machine.input = m.input := by
  refine holds_of_step (P := fun a => a.input = m.input) (fun h => h) (fun _ => rfl)
    (fun _ _ => rfl) fun i ho => (frame_perform m i).input ?_ ?_
  · rintro rfl
    exact hl ho
  · rintro rfl
    exact hb ho

/-- What reading the line of an entry comes to: its value is pushed, and nothing is recorded but
that the step began. -/
structure Reads (m : Machine σ ι ω) (v : Int64) : Prop where
  answer : m.step.answer = .ok ()
  records : m.step.records = [m.begun]
  stack : m.step.machine.stack = m.stack.push v

theorem step_of_entry {m : Machine σ ι ω} {rest : ι} {e : Entry} {entries : List Entry}
    (ho : m.order = some .readInteger) (he : newline ∉ e.remark)
    (hd : InputSource.Delivers rest (Entry.text (e :: entries)) m.input) :
    m.Reads e.value ∧ InputSource.Delivers rest (Entry.text entries) m.step.machine.input := by
  rw [Entry.text_cons] at hd
  obtain ⟨hg, hr⟩ := hd.line (Entry.newline_not_mem he)
  rw [List.append_assoc] at hg
  have hs : m.step = conclude m.begun
      (((m.onInput (InputSource.takeLine m.input).2).push e.value).done []) := by
    rw [step_of_order ho, perform, readInteger, hg]
    simp only [integerOnLine_numeral_append]
    rfl
  rw [hs]
  exact ⟨⟨by rw [hs]; rfl, by rw [hs]; rfl, by rw [hs]; rfl⟩, hr⟩

/-- Each `&` takes the next entry, and until then the input is left alone. -/
theorem delivers_after {m : Machine σ ι ω} {rest : ι} {entries : List Entry} {k : Nat}
    (he : ∀ e ∈ entries, newline ∉ e.remark)
    (hd : InputSource.Delivers rest (Entry.text entries) m.input)
    (hb : ∀ i < k, (m.after i).order ≠ some .readCharacter)
    (hk : m.inquiries k ≤ entries.length) :
    InputSource.Delivers rest (Entry.text (entries.drop (m.inquiries k))) (m.after k).input := by
  induction k with
  | zero => exact hd
  | succ k ih =>
    have hm := m.inquiries_mono (Nat.le_add_right k 1)
    have hi := ih (fun i hi => hb i (Nat.lt_succ_of_lt hi)) (by omega)
    rw [inquiries_succ] at hk ⊢
    rw [after_succ]
    by_cases ho : (m.after k).order = some .readInteger
    · rw [if_pos ho] at hk ⊢
      rw [List.drop_eq_getElem_cons hk] at hi
      exact (step_of_entry ho (he _ (List.getElem_mem hk)) hi).2
    · rw [if_neg ho, Nat.add_zero, input_step_of_order_ne ho (hb k (Nat.lt_succ_self k))]
      exact hi

theorem reads_entry {m : Machine σ ι ω} {rest : ι} {entries : List Entry} {k : Nat}
    (he : ∀ e ∈ entries, newline ∉ e.remark)
    (hd : InputSource.Delivers rest (Entry.text entries) m.input)
    (hb : ∀ i < k, (m.after i).order ≠ some .readCharacter)
    (hk : m.inquiries k ≤ entries.length) :
    ∀ i < k, (m.after i).order = some .readInteger →
      ∃ e, entries[m.inquiries i]? = some e ∧ (m.after i).Reads e.value := by
  intro i hi ho
  have hs := m.inquiries_succ i
  rw [if_pos ho] at hs
  have hm : m.inquiries (i + 1) ≤ m.inquiries k := m.inquiries_mono hi
  have hl : m.inquiries i < entries.length := by omega
  have hr := delivers_after he hd (fun j hj => hb j (Nat.lt_trans hj hi)) (Nat.le_of_lt hl)
  rw [List.drop_eq_getElem_cons hl] at hr
  exact ⟨_, List.getElem?_eq_getElem hl, (step_of_entry ho (he _ (List.getElem_mem hl)) hr).1⟩

theorem inquiries_eq {m : Machine σ ι ω} {k : Nat}
    (h : ∀ i < k, (m.after i).order = some .readInteger) : m.inquiries k = k := by
  have hr : ∀ i ∈ List.range k, decide ((m.after i).order = some .readInteger) = true :=
    fun i hi => decide_eq_true (h i (List.mem_range.mp hi))
  rw [inquiries, List.countP_eq_length.mpr hr, List.length_range]

theorem toList_after_inquiries {m : Machine σ ι ω} {rest : ι} {entries : List Entry} {k : Nat}
    (he : ∀ e ∈ entries, newline ∉ e.remark)
    (hd : InputSource.Delivers rest (Entry.text entries) m.input)
    (ho : ∀ i < k, (m.after i).order = some .readInteger) (hk : k ≤ entries.length) :
    (m.after k).stack.toList = m.stack.toList ++ (entries.take k).map Entry.value := by
  have hb : ∀ i < k, (m.after i).order ≠ some .readCharacter := fun i hi => by
    rw [ho i hi]
    nofun
  have hr := reads_entry he hd hb (by rwa [inquiries_eq ho])
  clear hd hb
  induction k with
  | zero => simp [after]
  | succ k ih =>
    have hi := ih (fun i hi => ho i (Nat.lt_succ_of_lt hi)) (Nat.le_of_succ_le hk)
      fun i hi => hr i (Nat.lt_succ_of_lt hi)
    obtain ⟨e, hq, hs⟩ := hr k (Nat.lt_succ_self k) (ho k (Nat.lt_succ_self k))
    rw [inquiries_eq fun i hi => ho i (Nat.lt_succ_of_lt hi)] at hq
    rw [after_succ, hs.stack, Stack.toList_push, hi, List.take_add_one, hq, Option.toList_some,
      List.map_append, List.append_assoc]
    rfl

theorem neverFails_output_after {m : Machine σ ι ω} (h : OutputSink.NeverFails m.output) (k : Nat) :
    OutputSink.NeverFails (m.after k).output := by
  induction k with
  | zero => exact h
  | succ k ih =>
    rw [after_succ]
    exact neverFails_output_step ih

theorem accepted_step_of_order {m : Machine σ ι ω} (h : OutputSink.NeverFails m.output)
    (hc : m.order ≠ some .writeCharacter) :
    OutputSink.accepted m.step.machine.output = OutputSink.accepted m.output ++
      if m.order = some .writeInteger then numeral m.stack.top else [] := by
  by_cases ho : m.order = some .writeInteger
  · obtain ⟨-, hf⟩ := fetch_of_order ho (by decide)
    rw [if_pos ho, output_step_of_writes (.inl ho), (h.deliver m.outgoing).2.2,
      outgoing_of_writeInteger hf]
  · have hw : ¬ m.Writes := not_or.mpr ⟨ho, hc⟩
    rw [if_neg ho, List.append_nil, output_step_of_silent hw]

theorem accepted_after_printed {m : Machine σ ι ω} {k : Nat}
    (h : OutputSink.NeverFails m.output)
    (hc : ∀ i < k, (m.after i).order ≠ some .writeCharacter) :
    OutputSink.accepted (m.after k).output =
      OutputSink.accepted m.output ++ (m.printed k).flatMap numeral := by
  induction k with
  | zero => exact (List.append_nil _).symm
  | succ k ih =>
    rw [after_succ, accepted_step_of_order (neverFails_output_after h k)
      (hc k (Nat.lt_succ_self k)), ih fun i hi => hc i (Nat.lt_succ_of_lt hi), printed_succ,
      List.flatMap_append, List.append_assoc]
    split <;> simp

theorem read_back_of_pending {σ ω : Type} [DirectionSource σ] [OutputSink ω]
    {m : Machine σ Input ω} {entries : List Entry} {tail : List UInt8}
    (he : ∀ e ∈ entries, newline ∉ e.remark) (hp : m.input.pending = Entry.text entries ++ tail)
    (ho : ∀ i < entries.length, (m.after i).order = some .readInteger) :
    (m.after entries.length).stack.toList = m.stack.toList ++ entries.map Entry.value ∧
    (m.after entries.length).input = ⟨tail, m.input.failure⟩ ∧
    ∀ i < entries.length, (m.after i).step.answer = .ok () ∧
      (m.after i).step.records = [(m.after i).begun] := by
  have hi : m.input = ⟨Entry.text entries ++ tail, m.input.failure⟩ := by rw [← hp]
  have hd : InputSource.Delivers ⟨tail, m.input.failure⟩ (Entry.text entries) m.input := by
    have hd := Input.delivers (Entry.text entries) tail m.input.failure
    rwa [← hi] at hd
  have hb : ∀ i < entries.length, (m.after i).order ≠ some .readCharacter := fun i hi => by
    rw [ho i hi]
    nofun
  have hn := inquiries_eq ho
  have hk : m.inquiries entries.length ≤ entries.length := Nat.le_of_eq hn
  refine ⟨?_, ?_, fun i hi => ?_⟩
  · rw [toList_after_inquiries he hd ho (Nat.le_refl _), List.take_length]
  · have hl := delivers_after he hd hb hk
    rw [hn, List.drop_length] at hl
    exact Input.eq_of_delivers hl
  · obtain ⟨e, -, hr⟩ := reads_entry he hd hb hk i hi (ho i hi)
    exact ⟨hr.answer, hr.records⟩

theorem printed_integers_read_back :
    (∀ {σ ω : Type} [DirectionSource σ] [OutputSink ω] {m : Machine σ Input ω}
        {entries : List Entry} {tail : List UInt8},
      (∀ e ∈ entries, newline ∉ e.remark) → m.input.pending = Entry.text entries ++ tail →
      (∀ i < entries.length, (m.after i).order = some .readInteger) →
        (m.after entries.length).stack.toList = m.stack.toList ++ entries.map Entry.value ∧
        (m.after entries.length).input = ⟨tail, m.input.failure⟩ ∧
        ∀ i < entries.length, (m.after i).step.answer = .ok () ∧
          (m.after i).step.records = [(m.after i).begun]) ∧
    (∀ {σ ι ω : Type} [DirectionSource σ] [InputSource ι] [OutputSink ω] {m : Machine σ ι ω}
        {rest : ι} {entries : List Entry} {k : Nat},
      (∀ e ∈ entries, newline ∉ e.remark) →
      InputSource.Delivers rest (Entry.text entries) m.input →
      (∀ i < k, (m.after i).order ≠ some .readCharacter) → m.inquiries k ≤ entries.length →
        InputSource.Delivers rest (Entry.text (entries.drop (m.inquiries k)))
          (m.after k).input ∧
        ∀ i < k, (m.after i).order = some .readInteger →
          ∃ e, entries[m.inquiries i]? = some e ∧ (m.after i).Reads e.value) ∧
    (∀ {σ ι ω : Type} [DirectionSource σ] [InputSource ι] [OutputSink ω] {m : Machine σ ι ω}
        {k : Nat},
      OutputSink.NeverFails m.output → (∀ i < k, (m.after i).order ≠ some .writeCharacter) →
        OutputSink.accepted (m.after k).output =
          OutputSink.accepted m.output ++ (m.printed k).flatMap numeral) ∧
    ∀ values others : List Int64,
      values.flatMap numeral = others.flatMap numeral → values = others :=
  ⟨read_back_of_pending,
    fun he hd hb hk => ⟨delivers_after he hd hb hk, reads_entry he hd hb hk⟩,
    accepted_after_printed, fun _ _ => eq_of_flatMap_numeral_eq⟩

def extremes : List Entry := [⟨Int64.minValue, [0xff, '1'.toUInt8]⟩, ⟨Int64.maxValue, []⟩]

/-- Reads two lines and prints what it has read. -/
def rereading : Machine Script :=
  .start (.ofLines ["&&..".toList.map Char.toUInt8])
    (.ofBytes (Entry.text extremes ++ ['8'.toUInt8])) .unlimited (.ofList [])

theorem printed_integers_read_back_rereading :
    (rereading.after 2).stack.toList = [Int64.minValue, Int64.maxValue] ∧
    (rereading.after 4).input.pending = ['8'.toUInt8] ∧
    (rereading.after 4).output.written.toList =
      [Int64.maxValue, Int64.minValue].flatMap numeral ∧
    [12, 3].flatMap numeral ≠ [1, 23].flatMap numeral := by
  obtain ⟨hp, hd, ha, hv⟩ := printed_integers_read_back
  have he : ∀ e ∈ extremes, newline ∉ e.remark := by decide
  have ho : ∀ i < extremes.length, (rereading.after i).order = some .readInteger := by
    decide +kernel
  have hb : ∀ i < 4, (rereading.after i).order ≠ some .readCharacter := by decide +kernel
  have hc : ∀ i < 4, (rereading.after i).order ≠ some .writeCharacter := by decide +kernel
  have hn : rereading.inquiries 4 = extremes.length := by decide +kernel
  have hs : rereading.printed 4 = [Int64.maxValue, Int64.minValue] := by decide +kernel
  obtain ⟨ht, -⟩ := hp he rfl ho
  obtain ⟨hl, -⟩ := hd he (Input.delivers _ ['8'.toUInt8] none) hb (Nat.le_of_eq hn)
  rw [hn, List.drop_length] at hl
  have hw := ha (Output.neverFails ⟨rfl, rfl⟩) hc
  rw [hs] at hw
  refine ⟨ht, ?_, hw, fun h => absurd (hv _ _ h) (by decide)⟩
  rw [Input.eq_of_delivers hl]
  rfl

end Machine

end Befunge
