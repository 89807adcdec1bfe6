import Befunge.Proofs.Failure
import Befunge.Proofs.StackFrame
import Mathlib.Data.Nat.Find
import Mathlib.Logic.Relation

/-! Going on after a failure. What a failed step took from the stack stays taken, so the same cell
is executed again on other operands, and in the end on the zeros below the stack, which are the
coordinates of a cell. On a cell that holds no instruction every call fails in the same way. -/

namespace Befunge

namespace Stack

/-- The cell whose coordinates are on top, the row above the column. -/
def address? (s : Stack) : Option Position := Position.ofCoordinates? s.pop.top s.top

theorem top_iterate_pop (n : Nat) (s : Stack) : (pop^[n] s).top = s.values.getD n 0 := by
  rw [top, values_iterate_pop, List.headD_eq_head?_getD, List.head?_drop,
    List.getD_eq_getElem?_getD]

theorem iterate_pop_eq_empty {n : Nat} {s : Stack} (h : s.size ≤ n) : pop^[n] s = empty := by
  have hv : (pop^[n] s).values = [] := by
    rw [values_iterate_pop]
    exact List.drop_eq_nil_of_le h
  exact congrArg Stack.mk hv

theorem address?_empty : empty.address? = some .origin := by rfl

end Stack

namespace Machine

variable {σ ι ω : Type} [DirectionSource σ] [InputSource ι] [OutputSink ω]

/-- What a call on the machine answers and leaves: a call of `step`, of a run, or of a run with a
limit other than zero. -/
inductive Attempt (m : Machine σ ι ω) : Except Fault Unit → Machine σ ι ω → Prop where
  | step : Attempt m m.step.answer m.step.machine
  | run {fuel : Nat} {reply : Reply σ Unit ι ω} (h : m.run? fuel = some reply) :
      Attempt m reply.answer reply.machine
  | runFor {limit : Nat} (h : 0 < limit) :
      Attempt m ((m.runFor limit).answer.map fun _ => ()) (m.runFor limit).machine

/-- The first `n` calls of `step` fail, each on the next pair of coordinates down the stack and
taking `w` values from it, and the call after them succeeds. -/
structure Retries (m : Machine σ ι ω) (w n : Nat) : Prop where
  left : ∀ k ≤ n, m.after k = m.mapStack Stack.pop^[w * k]
  fails : ∀ k < n, (m.after k).step.answer =
    .error (.outOfBounds (m.stack.values.getD (w * k + 1) 0) (m.stack.values.getD (w * k) 0))
  succeeds : (m.after n).step.answer = .ok ()

variable {m : Machine σ ι ω} {i : Instruction}

theorem perform_of_address?_eq_none (hi : i = .get ∨ i = .put) (hn : m.stack.address? = none) :
    m.perform i = (m.mapStack Stack.pop^[i.takes]).refuse
      (.outOfBounds m.stack.pop.top m.stack.top) := by
  rw [Stack.address?] at hn
  rcases hi with rfl | rfl
  · simp only [perform, getCell, Playfield.read, hn]
    rfl
  · simp only [perform, putCell, Playfield.write, hn]
    rfl

theorem answer_perform_of_address? {p : Position} (hi : i = .get ∨ i = .put)
    (hp : m.stack.address? = some p) : (m.perform i).answer = .ok () := by
  rw [Stack.address?] at hp
  rcases hi with rfl | rfl
  · simp [perform, getCell, Playfield.read, hp, done]
  · simp [perform, putCell, Playfield.write, hp, done]

theorem step_of_address?_eq_none (ho : m.order = some i) (hi : i = .get ∨ i = .put)
    (hn : m.stack.address? = none) :
    m.step.answer = .error (.outOfBounds m.stack.pop.top m.stack.top) ∧
      m.step.machine = m.mapStack Stack.pop^[i.takes] := by
  rw [step_of_order ho, perform_of_address?_eq_none hi hn]
  exact ⟨rfl, rfl⟩

/-- As long as no call finds the coordinates of a cell, each of them takes the next operands. -/
theorem after_of_address?_eq_none (ho : m.order = some i) (hi : i = .get ∨ i = .put) {n : Nat}
    (hn : ∀ k < n, (Stack.pop^[i.takes * k] m.stack).address? = none) :
    m.after n = m.mapStack Stack.pop^[i.takes * n] := by
  induction n with
  | zero => rfl
  | succ n ih =>
    have hm := ih fun k hk => hn k (Nat.lt_succ_of_lt hk)
    have ho' : (m.mapStack Stack.pop^[i.takes * n]).order = some i := ho
    have hs := (step_of_address?_eq_none ho' hi (hn n (Nat.lt_succ_self n))).2
    rw [after_succ, hm, hs, Nat.mul_succ, Nat.add_comm, Function.iterate_add]
    rfl

/-- Each failure takes `w` values from a stack that is not exhausted yet, the last of them perhaps
fewer. -/
theorem le_div_of_lt {w n size : Nat} (hw : 0 < w) (h : ∀ k < n, w * k < size) :
    n ≤ (size + (w - 1)) / w := by
  rw [Nat.le_div_iff_mul_le hw, Nat.mul_comm]
  cases n with
  | zero => exact Nat.zero_le _
  | succ n =>
    have hn := h n (Nat.lt_succ_self n)
    rw [Nat.mul_succ]
    omega

theorem exists_retries (ho : m.order = some i) (hi : i = .get ∨ i = .put) :
    ∃ n ≤ (m.stack.size + (i.takes - 1)) / i.takes, m.Retries i.takes n := by
  have hw : 0 < i.takes := by rcases hi with rfl | rfl <;> decide
  -- below an exhausted stack lies the address of the origin
  have hz : ∀ k, m.stack.size ≤ i.takes * k →
      (Stack.pop^[i.takes * k] m.stack).address? = some .origin := by
    intro k hk
    rw [Stack.iterate_pop_eq_empty hk, Stack.address?_empty]
  have he : ∃ k, (Stack.pop^[i.takes * k] m.stack).address?.isSome = true :=
    ⟨m.stack.size, by rw [hz _ (Nat.le_mul_of_pos_left _ hw)]; rfl⟩
  have hn : ∀ k < Nat.find he, (Stack.pop^[i.takes * k] m.stack).address? = none := by
    intro k hk
    simpa using Nat.find_min he hk
  have hm : ∀ k ≤ Nat.find he, m.after k = m.mapStack Stack.pop^[i.takes * k] := fun k hk =>
    after_of_address?_eq_none ho hi fun j hj => hn j (Nat.lt_of_lt_of_le hj hk)
  refine ⟨Nat.find he, le_div_of_lt hw fun k hk => ?_, hm, fun k hk => ?_, ?_⟩
  · refine Nat.lt_of_not_le fun hl => ?_
    have ha := hn k hk
    rw [hz k hl] at ha
    contradiction
  · have ho' : (m.mapStack Stack.pop^[i.takes * k]).order = some i := ho
    rw [hm k (Nat.le_of_lt hk), (step_of_address?_eq_none ho' hi (hn k hk)).1,
      ← Stack.top_iterate_pop, ← Stack.top_iterate_pop, Function.iterate_succ_apply']
    rfl
  · have ho' : (m.mapStack Stack.pop^[i.takes * Nat.find he]).order = some i := ho
    obtain ⟨p, hp⟩ := Option.isSome_iff_exists.mp (Nat.find_spec he)
    rw [hm _ (Nat.le_refl _), step_of_order ho', answer_conclude]
    exact answer_perform_of_address? hi hp

theorem Retries.exhausted {w n : Nat} (h : m.Retries w n) (hs : m.stack.size ≤ w * n) :
    m.after n = { m with stack := .empty } := by
  rw [h.left n (Nat.le_refl n), mapStack, Stack.iterate_pop_eq_empty hs]

/-- A read on nothing but zeros pushes the cell at the origin. -/
theorem step_of_get_on_zeros (ho : m.order = some .get) :
    ({ m with stack := .empty } : Machine σ ι ω).step.machine = { m with
      stack := .ofList [ofByte (m.field.get .origin)]
      cursor := m.cursor.advance
      steps := m.steps + 1 } := by
  have ho' : ({ m with stack := .empty } : Machine σ ι ω).order = some .get := ho
  rw [step_of_order ho']
  rfl

/-- A write on nothing but zeros overwrites the cell at the origin. -/
theorem step_of_put_on_zeros (ho : m.order = some .put) :
    ({ m with stack := .empty } : Machine σ ι ω).step.machine = { m with
      field := m.field.set .origin 0
      stack := .empty
      cursor := m.cursor.advance
      steps := m.steps + 1 } := by
  have ho' : ({ m with stack := .empty } : Machine σ ι ω).order = some .put := ho
  rw [step_of_order ho']
  rfl

theorem Attempt.eq_of_error {left : Machine σ ι ω} {answer : Except Fault Unit} {fault : Fault}
    (h : m.Attempt answer left) (hh : m.halted = false) (ha : m.step.answer = .error fault) :
    answer = .error fault ∧ left = m.step.machine := by
  obtain ⟨records, hl, hf⟩ := (Ends.failed hh ha).runFor_eq
  cases h with
  | step => exact ⟨ha, rfl⟩
  | @run fuel reply hr =>
    rw [hf] at hr
    obtain ⟨-, he⟩ := Option.ite_none_right_eq_some.mp hr
    rw [← Option.some.inj he]
    exact ⟨rfl, rfl⟩
  | runFor h =>
    rw [hl _ h]
    exact ⟨rfl, rfl⟩

theorem step_of_decode_eq_none (hh : m.halted = false) (hq : m.quoting = false)
    (hd : Instruction.decode m.fetch = none) :
    m.step.answer =
        .error (.unknownInstruction m.fetch m.cursor.position.x m.cursor.position.y) ∧
      m.step.machine = m := by
  rw [step_of_lost hh (swallows_eq_false_of_quoting hq) hd]
  exact ⟨rfl, rfl⟩

theorem eq_of_attempts {left : Machine σ ι ω} (hh : m.halted = false) (hq : m.quoting = false)
    (hd : Instruction.decode m.fetch = none)
    (h : Relation.ReflTransGen (fun a b => ∃ answer, a.Attempt answer b) m left) : left = m := by
  obtain ⟨ha, hm⟩ := step_of_decode_eq_none hh hq hd
  induction h with
  | refl => rfl
  | tail _ h ih =>
    obtain ⟨answer, h⟩ := h
    subst ih
    exact (h.eq_of_error hh ha).2.trans hm

theorem stepping_after_failure (hh : m.halted = false) (hq : m.quoting = false) :
    (m.fetch = 'g'.toUInt8 → ∃ n ≤ (m.stack.size + 1) / 2, m.Retries 2 n ∧
      (m.stack.size ≤ 2 * n → m.after (n + 1) = { m with
        stack := .ofList [ofByte (m.field.get .origin)]
        cursor := m.cursor.advance
        steps := m.steps + 1 })) ∧
    (m.fetch = 'p'.toUInt8 → ∃ n ≤ (m.stack.size + 2) / 3, m.Retries 3 n ∧
      (m.stack.size ≤ 3 * n → m.after (n + 1) = { m with
        field := m.field.set .origin 0
        stack := .empty
        cursor := m.cursor.advance
        steps := m.steps + 1 })) ∧
    (Instruction.decode m.fetch = none →
      ∀ a, Relation.ReflTransGen (fun a b => ∃ answer, a.Attempt answer b) m a → a = m ∧
        (∀ answer b, a.Attempt answer b →
          answer = .error
            (.unknownInstruction m.fetch m.cursor.position.x m.cursor.position.y) ∧ b = m) ∧
        ∀ fuel > 0, ∃ reply, a.run? fuel = some reply) := by
  refine ⟨fun hf => ?_, fun hf => ?_, fun hd a h => ?_⟩
  · have ho : m.order = some .get := order_of_fetch hh hq hf
    obtain ⟨n, hn, hr⟩ := exists_retries ho (.inl rfl)
    refine ⟨n, hn, hr, fun hs => ?_⟩
    rw [after_succ, hr.exhausted hs, step_of_get_on_zeros ho]
  · have ho : m.order = some .put := order_of_fetch hh hq hf
    obtain ⟨n, hn, hr⟩ := exists_retries ho (.inr rfl)
    refine ⟨n, hn, hr, fun hs => ?_⟩
    rw [after_succ, hr.exhausted hs, step_of_put_on_zeros ho]
  · obtain ⟨ha, hm⟩ := step_of_decode_eq_none hh hq hd
    obtain rfl := eq_of_attempts hh hq hd h
    refine ⟨rfl, fun answer b hb => ?_, fun fuel hf => ⟨_, (Ends.failed hh ha).run?_eq hf⟩⟩
    obtain ⟨he, hl⟩ := hb.eq_of_error hh ha
    exact ⟨he, hl.trans hm⟩

/-- On a cell that holds the character, with three values that are the coordinates of no cell. -/
def retrying (c : Char) : Machine Script :=
  { start (.ofLines [[c.toUInt8]]) (.ofBytes []) .unlimited (.ofList []) with
    stack := .ofList [80, -1, 3] }

theorem stepping_after_failure_retrying :
    (((retrying 'g').after 1).step.answer = .error (.outOfBounds 0 80) ∧
      ((retrying 'g').after 3).stack.toList = [103]) ∧
    ((retrying 'p').after 2).field.get .origin = 0 ∧
    ((retrying 'x').runFor 7).machine = retrying 'x' := by
  obtain ⟨hg, -, -⟩ := stepping_after_failure (m := retrying 'g') rfl rfl
  obtain ⟨-, hp, -⟩ := stepping_after_failure (m := retrying 'p') rfl rfl
  obtain ⟨-, -, hx⟩ := stepping_after_failure (m := retrying 'x') rfl rfl
  refine ⟨?_, ?_, ?_⟩
  · obtain ⟨n, hn, hr, he⟩ := hg (by decide +kernel)
    change n ≤ 2 at hn
    have hs := hr.succeeds
    obtain rfl | rfl | rfl : n = 0 ∨ n = 1 ∨ n = 2 := by omega
    · cases hs
    · cases hs
    · have h3 := he (by decide)
      refine ⟨hr.fails 1 (by decide), ?_⟩
      rw [h3]
      decide +kernel
  · obtain ⟨n, hn, hr, he⟩ := hp (by decide +kernel)
    change n ≤ 1 at hn
    have hs := hr.succeeds
    obtain rfl | rfl : n = 0 ∨ n = 1 := by omega
    · cases hs
    · rw [he (by decide), Playfield.get_set, if_pos rfl]
  · exact ((hx (by decide +kernel) _ .refl).2.1 _ _ (.runFor (by decide))).2

end Machine

end Befunge
