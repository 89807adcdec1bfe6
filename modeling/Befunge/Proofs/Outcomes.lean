import Befunge.CommandLine.Terminal
import Befunge.Proofs.StepLimit

/-! What a request makes of a machine, step by step: it goes on until the machine has halted, a step
fails, or the limit is reached. The outcome of a session is that of the run so described. -/

namespace Befunge.CommandLine.Request

open Machine

variable {σ : Type} {r : Request} {m : Machine σ}
  {reply other : Reply σ Unit} {n : Nat}

theorem stops_eq_false_iff : r.stops m = false ↔
    m.halted = false ∧ ∀ limit, r.stepLimit = some limit → m.steps < limit := by
  cases hl : r.stepLimit <;> simp [stops, hl]

variable [DirectionSource σ]

/-- The run that a request makes of a machine comes to this reply. -/
inductive ComesTo (r : Request) : Machine σ → Reply σ Unit → Prop where
  | stopped {m : Machine σ} (hs : r.stops m = true) :
      ComesTo r m ⟨.ok (), m, if m.halted then [.halted m.steps] else []⟩
  | failed {m : Machine σ} {fault : Fault} (hs : r.stops m = false)
      (ha : m.step.answer = .error fault) : ComesTo r m m.step
  | step {m : Machine σ} {reply : Reply σ Unit} (hs : r.stops m = false)
      (ha : m.step.answer = .ok ()) (hr : ComesTo r m.step.machine reply) :
      ComesTo r m ⟨reply.answer, reply.machine, m.step.records ++ reply.records⟩

theorem ComesTo.unique (h : r.ComesTo m reply) (h' : r.ComesTo m other) : reply = other := by
  induction h generalizing other with
  | stopped hs =>
    cases h' with
    | stopped => rfl
    | failed hn | step hn => rw [hs] at hn; contradiction
  | failed hs ha =>
    cases h' with
    | stopped hn => rw [hs] at hn; contradiction
    | failed => rfl
    | step _ hn => rw [ha] at hn; contradiction
  | step hs ha _ ih =>
    cases h' with
    | stopped hn => rw [hs] at hn; contradiction
    | failed _ hn => rw [ha] at hn; contradiction
    | step _ _ hr => rw [ih hr]

/-- With a limit, the steps that it leaves are driven. -/
theorem comesTo_drive {limit : Nat} (hl : r.stepLimit = some limit) (hn : limit = m.steps + n) :
    r.ComesTo m ⟨(m.drive n).answer.map fun _ => (), (m.drive n).machine,
      (m.drive n).records ++ (m.drive n).closing⟩ := by
  induction n generalizing m with
  | zero => exact .stopped (by simp [stops, hl, hn])
  | succ n ih =>
    cases hh : m.halted with
    | true =>
      rw [drive_of_halted hh]
      exact .stopped (by simp [stops, hh])
    | false =>
      have hs : r.stops m = false := by
        refine stops_eq_false_iff.mpr ⟨hh, fun k hk => ?_⟩
        obtain rfl := Option.some.inj (hl.symm.trans hk)
        omega
      cases ha : m.step.answer with
      | ok =>
        have hc := steps_step_of_ok hh ha
        have hd := ComesTo.step hs ha (ih (m := m.step.machine) (by omega))
        rw [drive_of_ok hh ha, Reply.closing_following]
        simp only [Reply.following, List.append_assoc]
        cases hm : (m.step.machine.drive n).answer <;> simpa [hm, Except.map] using hd
      | error fault =>
        rw [drive_of_error hh ha]
        have hf := ComesTo.failed hs ha
        simpa [Reply.closing, Except.map, ← ha] using hf

/-- Without a limit, the machine is driven to its end. -/
theorem comesTo_of_ends {answer : Except Fault Unit} {left : Machine σ}
    (hl : r.stepLimit = none) (h : m.Ends n answer left) {limit : Nat}
    (hn : Seen limit n answer) : r.ComesTo m ⟨answer, left, (m.runFor limit).records⟩ := by
  rw [runFor_eq_drive]
  induction h generalizing limit with
  | halted hh =>
    rw [drive_of_halted hh]
    exact .stopped (by simp [stops, hh])
  | failed hh ha =>
    have hs : r.stops _ = false := stops_eq_false_iff.mpr ⟨hh, by simp [hl]⟩
    obtain ⟨limit, rfl⟩ := Nat.exists_eq_add_one.mpr hn
    rw [drive_of_error hh ha]
    simpa [Reply.closing, ← ha] using ComesTo.failed hs ha
  | step hh ha _ ih =>
    have hs : r.stops _ = false := stops_eq_false_iff.mpr ⟨hh, by simp [hl]⟩
    obtain ⟨limit, rfl⟩ := Nat.exists_eq_add_one.mpr (Nat.zero_lt_of_lt hn.le)
    rw [drive_of_ok hh ha, Reply.closing_following]
    simpa [Reply.following] using ComesTo.step hs ha (ih (seen_add_one_iff.mp hn))

theorem ComesTo.ends (hl : r.stepLimit = none) (h : r.ComesTo m reply) :
    ∃ n, m.Ends n reply.answer reply.machine := by
  induction h with
  | @stopped m hs => exact ⟨0, .halted (by simpa [stops, hl] using hs)⟩
  | failed hs ha => exact ⟨0, ha ▸ .failed (stops_eq_false_iff.mp hs).1 ha⟩
  | step hs ha _ ih =>
    obtain ⟨n, he⟩ := ih
    exact ⟨n + 1, .step (stops_eq_false_iff.mp hs).1 ha he⟩

theorem comesTo_iff_run? (hl : r.stepLimit = none) :
    r.ComesTo m reply ↔ ∃ fuel, m.run? fuel = some reply := by
  constructor
  · intro h
    obtain ⟨n, he⟩ := h.ends hl
    have hu := h.unique (comesTo_of_ends hl he (.of_lt (Nat.lt_succ_self n)))
    exact ⟨n + 1, (he.run?_eq (Nat.lt_succ_self n)).trans (congrArg some hu.symm)⟩
  · rintro ⟨fuel, h⟩
    obtain ⟨n, he⟩ := ends_of_run?_go h
    obtain ⟨_, -, hf⟩ := he.runFor_eq
    have hn : n < fuel := by
      refine Nat.lt_of_not_le fun hn => ?_
      rw [hf, if_neg (Nat.not_lt_of_le hn)] at h
      contradiction
    have hr := Option.some.inj (h.symm.trans (he.run?_eq hn))
    rw [hr]
    exact comesTo_of_ends hl he (.of_lt hn)

/-- The outcomes of a request are those of the runs that it can come to. -/
theorem execute_eq_some_iff (earlier : List Record) (hm : m.steps = 0) {o : Outcome} :
    (∃ fuel, r.execute fuel earlier m = some o) ↔
      ∃ reply, r.ComesTo m reply ∧ r.outcome earlier reply = o := by
  cases hl : r.stepLimit with
  | some limit =>
    have hc := comesTo_drive (m := m) (n := limit) hl (by rw [hm, Nat.zero_add])
    have ho {reply : Reply σ Unit} (hr : r.ComesTo m reply) (fuel : Nat) :
        r.execute fuel earlier m = some (r.outcome earlier reply) := by
      simp only [execute, hl, runFor_eq_drive, hr.unique hc, outcome_map]
    constructor
    · rintro ⟨fuel, h⟩
      exact ⟨_, hc, Option.some.inj ((ho hc fuel).symm.trans h)⟩
    · rintro ⟨reply, hr, rfl⟩
      exact ⟨0, ho hr 0⟩
  | none =>
    have ho : ∀ fuel, r.execute fuel earlier m = (m.run? fuel).map (r.outcome earlier) := by
      intro fuel
      rw [execute, hl]
    simp only [ho, Option.map_eq_some_iff, comesTo_iff_run? hl]
    exact ⟨fun ⟨fuel, reply, hr, he⟩ => ⟨reply, ⟨fuel, hr⟩, he⟩,
      fun ⟨reply, ⟨fuel, hr⟩, he⟩ => ⟨fuel, reply, hr, he⟩⟩

end Befunge.CommandLine.Request
