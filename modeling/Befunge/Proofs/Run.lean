import Befunge.Machine.Run
import Befunge.Proofs.Step
import Mathlib.Algebra.GroupWithZero.Nat

/-! Every way of driving a machine comes down to calling `step`: a run with a limit is made of
calls that stop at the first failure, runs in a row are one run, and a run without a limit is
every run whose limit is large enough. -/

namespace Befunge

/-- The reply to a run that made one step before this one. -/
def Reply.following {σ ι ω : Type} (records : List Record) (r : Reply σ Nat ι ω) :
    Reply σ Nat ι ω :=
  ⟨r.answer.map (· + 1), r.machine, records ++ r.records⟩

def Reply.closing {σ ι ω α : Type} (r : Reply σ α ι ω) : List Record :=
  match r.answer with
  | .ok _ => if r.machine.halted then [.halted r.machine.steps] else []
  | .error _ => []

theorem Reply.closing_following {σ ι ω : Type} (records : List Record) (r : Reply σ Nat ι ω) :
    (r.following records).closing = r.closing := by
  obtain ⟨answer, left, made⟩ := r
  cases answer <;> rfl

namespace Machine

variable {σ ι ω : Type} [DirectionSource σ] [InputSource ι] [OutputSink ω]

/-- The machine after `k` calls of `step`, each made whatever became of the one before. -/
def after : Nat → Machine σ ι ω → Machine σ ι ω
  | 0, m => m
  | k + 1, m => after k m.step.machine

/-- How many of the first `k` calls execute the instruction. -/
def executions (i : Instruction) (m : Machine σ ι ω) (k : Nat) : Nat :=
  (List.range k).countP fun j => (m.after j).order = some i

/-- Calls `step` until the machine has halted, a call fails, or `limit` steps have been made; the
answer is their number. -/
def drive : Nat → Machine σ ι ω → Reply σ Nat ι ω
  | 0, m => ⟨.ok 0, m, []⟩
  | limit + 1, m =>
    if m.halted then ⟨.ok 0, m, []⟩
    else
      match m.step.answer with
      | .ok () => (drive limit m.step.machine).following m.step.records
      | .error fault => ⟨.error fault, m.step.machine, m.step.records⟩

/-- Calls `runFor` with one limit after the other, up to the first call that fails; the answer is
what each of them answered. -/
def runForEach : List Nat → Machine σ ι ω → Except Fault (List Nat) × Machine σ ι ω
  | [], m => (.ok [], m)
  | limit :: limits, m =>
    let reply := m.runFor limit
    match reply.answer with
    | .ok made =>
      let rest := runForEach limits reply.machine
      (rest.1.map (made :: ·), rest.2)
    | .error fault => (.error fault, reply.machine)

/-- After `n` steps that succeed the machine has halted, or the next step fails; this leaves the
answer and the second machine. -/
inductive Ends : Machine σ ι ω → Nat → Except Fault Unit → Machine σ ι ω → Prop where
  | halted {m : Machine σ ι ω} (hh : m.halted = true) : Ends m 0 (.ok ()) m
  | failed {m : Machine σ ι ω} {fault : Fault} (hh : m.halted = false)
      (ha : m.step.answer = .error fault) : Ends m 0 (.error fault) m.step.machine
  | step {m left : Machine σ ι ω} {n : Nat} {answer : Except Fault Unit} (hh : m.halted = false)
      (ha : m.step.answer = .ok ()) (he : Ends m.step.machine n answer left) :
      Ends m (n + 1) answer left

/-- Whether a run with this limit sees such an end after `n` steps. To see that the machine has
halted takes no further call of `step`, to see that a step fails takes that call. -/
def Seen (limit n : Nat) : Except Fault Unit → Prop
  | .ok () => n ≤ limit
  | .error _ => n < limit

section

variable {limit n k : Nat} {answer : Except Fault Unit}

theorem seen_add_one_iff : Seen (limit + 1) (n + 1) answer ↔ Seen limit n answer := by
  cases answer with
  | ok => exact Nat.succ_le_succ_iff
  | error => exact Nat.succ_lt_succ_iff

theorem Seen.le (h : Seen limit n answer) : n ≤ limit := by
  cases answer with
  | ok => exact h
  | error => exact Nat.le_of_lt h

theorem Seen.of_lt (h : n < limit) : Seen limit n answer := by
  cases answer with
  | ok => exact Nat.le_of_lt h
  | error => exact h

theorem Seen.mono (h : Seen limit n answer) (hk : limit ≤ k) : Seen k n answer := by
  cases answer with
  | ok => exact Nat.le_trans h hk
  | error => exact Nat.lt_of_lt_of_le h hk

end

theorem after_succ (k : Nat) (m : Machine σ ι ω) :
    m.after (k + 1) = (m.after k).step.machine := by
  induction k generalizing m with
  | zero => rfl
  | succ k ih => exact ih m.step.machine

theorem after_of_halted {m : Machine σ ι ω} (h : m.halted = true) (k : Nat) : m.after k = m := by
  induction k with
  | zero => rfl
  | succ k ih =>
    rw [after_succ, ih, step_of_halted h]
    rfl

theorem executions_succ (i : Instruction) (m : Machine σ ι ω) (k : Nat) :
    m.executions i (k + 1) = m.executions i k + if (m.after k).order = some i then 1 else 0 := by
  rw [executions, List.range_succ, List.countP_append]
  simp [executions, List.countP_singleton]

theorem drive_of_halted {m : Machine σ ι ω} (h : m.halted = true) (limit : Nat) :
    m.drive limit = ⟨.ok 0, m, []⟩ := by
  cases limit <;> simp [drive, h]

theorem drive_of_ok {m : Machine σ ι ω} (h : m.halted = false) (ha : m.step.answer = .ok ())
    (limit : Nat) :
    m.drive (limit + 1) = (m.step.machine.drive limit).following m.step.records := by
  simp [drive, h, ha]

theorem drive_of_error {m : Machine σ ι ω} {fault : Fault} (h : m.halted = false)
    (ha : m.step.answer = .error fault) (limit : Nat) :
    m.drive (limit + 1) = ⟨.error fault, m.step.machine, m.step.records⟩ := by
  simp [drive, h, ha]

theorem runFor_go (m current : Machine σ ι ω) (left : Nat) (log : Array Record) :
    runFor.go m left current log =
      ⟨(current.drive left).answer.map fun n => current.steps + n - m.steps,
        (current.drive left).machine,
        log.toList ++ (current.drive left).records ++ (current.drive left).closing⟩ := by
  induction left generalizing current log with
  | zero =>
    unfold runFor.go
    cases hh : current.halted <;> simp [drive, Reply.closing, hh, Except.map]
  | succ left ih =>
    unfold runFor.go
    cases hh : current.halted with
    | true => simp [drive_of_halted hh, Reply.closing, hh, Except.map]
    | false =>
      rcases hs : current.step with ⟨answer, next, records⟩
      cases answer with
      | ok =>
        have ha : current.step.answer = .ok () := by rw [hs]
        -- the loop answers by the difference of two counters, `drive` by the number of calls
        have hn : next.steps = current.steps + 1 := by
          have hc := steps_step_of_ok hh ha
          rwa [hs] at hc
        rw [drive_of_ok hh ha]
        simp only [hs, ih, hn, Bool.false_eq_true, if_false]
        cases hd : (next.drive left).answer <;>
          simp [Reply.following, Reply.closing, hd, Except.map]
        omega
      | error fault =>
        have ha : current.step.answer = .error fault := by rw [hs]
        rw [drive_of_error hh ha]
        simp [hs, Reply.closing, Except.map]

theorem runFor_eq_drive (m : Machine σ ι ω) (limit : Nat) :
    m.runFor limit = ⟨(m.drive limit).answer, (m.drive limit).machine,
      (m.drive limit).records ++ (m.drive limit).closing⟩ := by
  rw [runFor, runFor_go]
  cases (m.drive limit).answer <;> simp [Except.map]

theorem drive_add (a b : Nat) (m : Machine σ ι ω) :
    m.drive (a + b) =
      match m.drive a with
      | ⟨.ok made, next, records⟩ =>
        ⟨(next.drive b).answer.map (made + ·), (next.drive b).machine,
          records ++ (next.drive b).records⟩
      | ⟨.error fault, next, records⟩ => ⟨.error fault, next, records⟩ := by
  induction a generalizing m with
  | zero =>
    rcases hd : m.drive b with ⟨answer, next, records⟩
    cases answer <;> simp [drive, hd, Except.map]
  | succ a ih =>
    rw [Nat.succ_add]
    cases hh : m.halted with
    | true => simp [drive_of_halted hh, Except.map]
    | false =>
      cases ha : m.step.answer with
      | ok =>
        rw [drive_of_ok hh ha, drive_of_ok hh ha, ih]
        rcases hd : m.step.machine.drive a with ⟨answer, next, records⟩
        cases answer with
        | ok made =>
          cases hb : (next.drive b).answer <;>
            simp [Reply.following, Except.map, hb, Nat.add_right_comm]
        | error fault => simp [Reply.following, Except.map]
      | error fault => simp [drive_of_error hh ha]

theorem runForEach_eq_drive (limits : List Nat) (m : Machine σ ι ω) :
    (m.runForEach limits).1.map List.sum = (m.drive limits.sum).answer ∧
      (m.runForEach limits).2 = (m.drive limits.sum).machine := by
  induction limits generalizing m with
  | nil => exact ⟨rfl, rfl⟩
  | cons limit limits ih =>
    rw [List.sum_cons, drive_add, runForEach, runFor_eq_drive]
    rcases hd : m.drive limit with ⟨answer, next, records⟩
    cases answer with
    | ok made =>
      obtain ⟨ha, hm⟩ := ih next
      refine ⟨?_, hm⟩
      simp only [← ha]
      cases (next.runForEach limits).1 <;> simp [Except.map]
    | error fault => exact ⟨rfl, rfl⟩

theorem ends_of_run?_go {fuel : Nat} {m : Machine σ ι ω} {log : Array Record}
    {reply : Reply σ Unit ι ω} (h : run?.go fuel m log = some reply) :
    ∃ n, m.Ends n reply.answer reply.machine := by
  induction fuel generalizing m log with
  | zero => simp [run?.go] at h
  | succ fuel ih =>
    unfold run?.go at h
    cases hh : m.halted with
    | true =>
      simp only [hh, if_true, Option.some.injEq] at h
      subst h
      exact ⟨0, .halted hh⟩
    | false =>
      rcases hs : m.step with ⟨answer, next, records⟩
      have hm : m.step.machine = next := by rw [hs]
      simp only [hh, Bool.false_eq_true, if_false, hs] at h
      cases answer with
      | ok =>
        have ha : m.step.answer = .ok () := by rw [hs]
        obtain ⟨n, he⟩ := ih h
        exact ⟨n + 1, .step hh ha (hm ▸ he)⟩
      | error fault =>
        have ha : m.step.answer = .error fault := by rw [hs]
        simp only [Option.some.injEq] at h
        subst h
        exact ⟨0, hm ▸ .failed hh ha⟩

/-- A run that ends before the fuel is used up makes the records of a run with that limit. -/
theorem Ends.run?_go_eq {m left : Machine σ ι ω} {n fuel : Nat} {answer : Except Fault Unit}
    (h : m.Ends n answer left) (hn : n < fuel) (log : Array Record) :
    run?.go fuel m log =
      some ⟨answer, left, log.toList ++ (m.drive fuel).records ++ (m.drive fuel).closing⟩ := by
  induction h generalizing fuel log with
  | halted hh =>
    obtain ⟨fuel, rfl⟩ := Nat.exists_eq_add_one.mpr (Nat.zero_lt_of_lt hn)
    simp [run?.go, hh, drive_of_halted hh, Reply.closing]
  | @failed m fault hh ha =>
    obtain ⟨fuel, rfl⟩ := Nat.exists_eq_add_one.mpr (Nat.zero_lt_of_lt hn)
    rw [Machine.drive_of_error hh ha]
    rcases hs : m.step with ⟨answer, next, records⟩
    obtain rfl : answer = .error fault := by rw [← ha, hs]
    simp [run?.go, hh, hs, Reply.closing]
  | @step m left n answer hh ha he ih =>
    obtain ⟨fuel, rfl⟩ := Nat.exists_eq_add_one.mpr (Nat.zero_lt_of_lt hn)
    rw [Machine.drive_of_ok hh ha, Reply.closing_following]
    rcases hs : m.step with ⟨made, next, records⟩
    obtain rfl : made = .ok () := by rw [← ha, hs]
    rw [hs] at ih
    simp only [run?.go, hh, hs, Bool.false_eq_true, if_false]
    rw [ih (Nat.lt_of_succ_lt_succ hn)]
    simp [Reply.following]

theorem Ends.run?_go {m left : Machine σ ι ω} {n fuel : Nat} {answer : Except Fault Unit}
    (h : m.Ends n answer left) (hn : n < fuel) (log : Array Record) :
    (run?.go fuel m log).map (fun reply => (reply.answer, reply.machine)) =
      some (answer, left) := by
  rw [h.run?_go_eq hn]
  rfl

theorem Ends.run?_go_eq_none {m left : Machine σ ι ω} {n fuel : Nat} {answer : Except Fault Unit}
    (h : m.Ends n answer left) (hf : fuel ≤ n) (log : Array Record) :
    run?.go fuel m log = none := by
  induction h generalizing fuel log with
  | halted =>
    obtain rfl := Nat.le_zero.mp hf
    rfl
  | failed =>
    obtain rfl := Nat.le_zero.mp hf
    rfl
  | @step m left n answer hh ha _ ih =>
    cases fuel with
    | zero => rfl
    | succ fuel =>
      rcases hs : m.step with ⟨made, next, records⟩
      obtain rfl : made = .ok () := by rw [← ha, hs]
      rw [hs] at ih
      simp only [run?.go, hh, hs, Bool.false_eq_true, if_false]
      exact ih (Nat.le_of_succ_le_succ hf) _

theorem Ends.run?_eq {m left : Machine σ ι ω} {n fuel : Nat} {answer : Except Fault Unit}
    (h : m.Ends n answer left) (hn : n < fuel) :
    m.run? fuel = some ⟨answer, left, (m.runFor fuel).records⟩ := by
  rw [run?, h.run?_go_eq hn, runFor_eq_drive, List.append_assoc]
  rfl

/-- All runs that see how the machine ends are the same run. -/
theorem Ends.drive_eq {m left : Machine σ ι ω} {n : Nat} {answer : Except Fault Unit}
    (h : m.Ends n answer left) :
    ∃ records, ∀ limit, Seen limit n answer →
      m.drive limit = ⟨answer.map fun _ => n, left, records⟩ := by
  induction h with
  | @halted m hh => exact ⟨[], fun limit _ => drive_of_halted hh limit⟩
  | @failed m fault hh ha =>
    refine ⟨m.step.records, fun limit hl => ?_⟩
    obtain ⟨limit, rfl⟩ := Nat.exists_eq_add_one.mpr hl
    exact Machine.drive_of_error hh ha limit
  | @step m left n answer hh ha _ ih =>
    obtain ⟨records, hd⟩ := ih
    refine ⟨m.step.records ++ records, fun limit hl => ?_⟩
    obtain ⟨limit, rfl⟩ := Nat.exists_eq_add_one.mpr (Nat.zero_lt_of_lt hl.le)
    rw [Machine.drive_of_ok hh ha, hd limit (seen_add_one_iff.mp hl)]
    cases answer <;> rfl

theorem Ends.drive_of_not_seen {m left : Machine σ ι ω} {n k : Nat} {answer : Except Fault Unit}
    (h : m.Ends n answer left) (hk : ¬ Seen k n answer) :
    (m.drive k).answer = .ok k ∧ (m.drive k).machine.halted = false := by
  induction h generalizing k with
  | halted => exact absurd (Nat.zero_le k) hk
  | failed hh _ =>
    obtain rfl := Nat.eq_zero_of_not_pos hk
    exact ⟨rfl, hh⟩
  | step hh ha _ ih =>
    cases k with
    | zero => exact ⟨rfl, hh⟩
    | succ k =>
      obtain ⟨hd, hm⟩ := ih (mt seen_add_one_iff.mpr hk)
      rw [Machine.drive_of_ok hh ha]
      exact ⟨by simp [Reply.following, hd, Except.map], hm⟩

theorem Ends.drive_of_lt {m left : Machine σ ι ω} {n k : Nat} {answer : Except Fault Unit}
    (h : m.Ends n answer left) (hk : k < n) :
    (m.drive k).answer = .ok k ∧ (m.drive k).machine.halted = false :=
  h.drive_of_not_seen fun hs => Nat.not_le_of_lt hk hs.le

theorem Ends.drive_of_ok {m left : Machine σ ι ω} {n k : Nat} {answer : Except Fault Unit}
    (h : m.Ends n answer left) (ha : answer = .ok ()) (hk : n ≤ k) :
    (m.drive k).answer = .ok n ∧ (m.drive k).machine = left := by
  subst ha
  obtain ⟨records, hd⟩ := h.drive_eq
  rw [hd k hk]
  exact ⟨rfl, rfl⟩

theorem Ends.drive_of_error {m left : Machine σ ι ω} {n : Nat} {answer : Except Fault Unit}
    {fault : Fault} (h : m.Ends n answer left) (ha : answer = .error fault) :
    (m.drive n).answer = .ok n ∧ (m.drive n).machine.halted = false ∧
      ∀ k > n, (m.drive k).answer = .error fault ∧ (m.drive k).machine = left := by
  subst ha
  obtain ⟨hn, hm⟩ := h.drive_of_not_seen (Nat.lt_irrefl n)
  obtain ⟨records, hd⟩ := h.drive_eq
  refine ⟨hn, hm, fun k hk => ?_⟩
  rw [hd k hk]
  exact ⟨rfl, rfl⟩

theorem Ends.steps {m left : Machine σ ι ω} {n : Nat} {answer : Except Fault Unit}
    (h : m.Ends n answer left) : left.steps = m.steps + n := by
  induction h with
  | halted => rfl
  | failed _ ha => exact steps_step_of_error ha
  | step hh ha _ ih =>
    have hs := steps_step_of_ok hh ha
    omega

theorem Ends.halted_of_ok {m left : Machine σ ι ω} {n : Nat} {answer : Except Fault Unit}
    (h : m.Ends n answer left) (ha : answer = .ok ()) : left.halted = true := by
  induction h with
  | halted hh => exact hh
  | failed => contradiction
  | step _ _ _ ih => exact ih ha

theorem Ends.runFor_eq {m left : Machine σ ι ω} {n : Nat} {answer : Except Fault Unit}
    (h : m.Ends n answer left) :
    ∃ records, (∀ limit, Seen limit n answer →
        m.runFor limit = ⟨answer.map fun _ => n, left, records⟩) ∧
      ∀ fuel, m.run? fuel = if n < fuel then some ⟨answer, left, records⟩ else none := by
  obtain ⟨records, hd⟩ := h.drive_eq
  have hr : ∀ limit, Seen limit n answer →
      m.runFor limit = ⟨answer.map fun _ => n, left,
        records ++ Reply.closing ⟨answer.map fun _ => n, left, records⟩⟩ := by
    intro limit hl
    rw [runFor_eq_drive, hd limit hl]
  refine ⟨_, hr, fun fuel => ?_⟩
  by_cases hn : n < fuel
  · rw [if_pos hn, h.run?_eq hn, hr fuel (.of_lt hn)]
  · rw [if_neg hn, run?, h.run?_go_eq_none (Nat.le_of_not_lt hn)]

theorem Ends.unique {m left other : Machine σ ι ω} {n k : Nat} {answer answer' : Except Fault Unit}
    (h : m.Ends n answer left) (h' : m.Ends k answer' other) :
    n = k ∧ answer = answer' ∧ left = other := by
  obtain ⟨_, -, hr⟩ := h.runFor_eq
  obtain ⟨_, -, hr'⟩ := h'.runFor_eq
  have he := hr (n + k + 1)
  rw [hr', if_pos (by omega), if_pos (by omega)] at he
  obtain ⟨rfl, rfl, -⟩ := Reply.mk.inj (Option.some.inj he)
  have hs := h.steps
  rw [h'.steps] at hs
  exact ⟨(Nat.add_left_cancel hs).symm, rfl, rfl⟩

-- The counter of steps has no bound here, so neither has the sum of the limits.
theorem runs_agree (m : Machine σ ι ω) :
    (∀ limits, (m.runForEach limits).1.map List.sum = (m.runFor limits.sum).answer ∧
      (m.runForEach limits).2 = (m.runFor limits.sum).machine) ∧
    (∀ limit, (m.drive limit).answer = (m.runFor limit).answer ∧
      (m.drive limit).machine = (m.runFor limit).machine) ∧
    (∀ fuel reply, m.run? fuel = some reply →
      ∃ n, m.Ends n reply.answer reply.machine ∧ reply.machine.steps = m.steps + n ∧
        (∀ k < n, (m.runFor k).answer = .ok k ∧ (m.runFor k).machine.halted = false) ∧
        (reply.answer = .ok () → ∀ k ≥ n,
          (m.runFor k).answer = .ok n ∧ (m.runFor k).machine = reply.machine) ∧
        ∀ fault, reply.answer = .error fault →
          (m.runFor n).answer = .ok n ∧ (m.runFor n).machine.halted = false ∧
            ∀ k > n, (m.runFor k).answer = .error fault ∧
              (m.runFor k).machine = reply.machine) ∧
    ∀ n answer left, m.Ends n answer left → ∀ fuel > n,
      (m.run? fuel).map (fun reply => (reply.answer, reply.machine)) = some (answer, left) := by
  refine ⟨fun limits => ?_, fun limit => ?_, fun fuel reply h => ?_, fun n answer left h fuel hf =>
    h.run?_go hf #[]⟩
  · rw [runFor_eq_drive]
    exact runForEach_eq_drive limits m
  · rw [runFor_eq_drive]
    exact ⟨rfl, rfl⟩
  · obtain ⟨n, he⟩ := ends_of_run?_go h
    simp only [runFor_eq_drive]
    exact ⟨n, he, he.steps, fun k hk => he.drive_of_lt hk,
      fun ha k hk => he.drive_of_ok ha hk, fun fault ha => he.drive_of_error ha⟩

def brief : Machine Script :=
  .start (.ofLines ["1@".toList.map Char.toUInt8]) (.ofBytes []) .unlimited (.ofList [])

theorem runs_agree_brief :
    (∃ reply, brief.run? 3 = some reply ∧ reply.answer = .ok () ∧ reply.machine.steps = 2) ∧
      ∀ k ≥ 2, (brief.runFor k).answer = .ok 2 := by
  have h : (brief.run? 3).map (fun reply => (reply.answer, reply.machine.steps)) =
      some (.ok (), 2) := by rfl
  obtain ⟨reply, hr, he⟩ := Option.map_eq_some_iff.mp h
  obtain ⟨ha, hc⟩ := Prod.mk.inj he
  obtain ⟨n, -, hn, -, hk, -⟩ := (runs_agree brief).2.2.1 3 reply hr
  obtain rfl : n = 2 := by
    have hz : brief.steps = 0 := rfl
    omega
  exact ⟨⟨reply, hr, ha, hc⟩, fun k hle => (hk ha k hle).1⟩

end Machine

end Befunge
