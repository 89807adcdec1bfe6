import Befunge.Proofs.Reachable

/-! Histories of calls. A machine is asked for a step, a run or a run with a limit, again and again
and whatever becomes of it, and its stack may be changed in between. What happens meanwhile is that
steps are attempted and that runs return from a machine that has halted. -/

namespace Befunge

def Reply.void {σ ι ω α : Type} (r : Reply σ α ι ω) : Reply σ Unit ι ω :=
  ⟨r.answer.map fun _ => (), r.machine, r.records⟩

namespace Machine

inductive Event (σ ι ω : Type) where
  /-- A step is attempted on this machine, which has not halted. -/
  | attempt (m : Machine σ ι ω)
  /-- A run returns and leaves this machine, which has halted. -/
  | finish (m : Machine σ ι ω)

variable {σ ι ω : Type}

/-- Steps are attempted until the machine halts, and runs return from it afterwards. -/
def Event.Timely : Event σ ι ω → Prop
  | .attempt m => m.halted = false
  | .finish m => m.halted = true

def attempted (events : List (Event σ ι ω)) : List (Machine σ ι ω) :=
  events.filterMap fun
    | .attempt m => some m
    | .finish _ => none

theorem attempted_attempt (l : List (Machine σ ι ω)) : attempted (l.map Event.attempt) = l := by
  simp [attempted, List.filterMap_map]

theorem attempted_append (events later : List (Event σ ι ω)) :
    attempted (events ++ later) = attempted events ++ attempted later :=
  List.filterMap_append ..

variable [DirectionSource σ] [InputSource ι] [OutputSink ω]

def Event.records : Event σ ι ω → List Record
  | .attempt m => m.step.records
  | .finish m => [.halted m.steps]

/-- The machines on which a run with this limit attempts a step. -/
def attempts : Nat → Machine σ ι ω → List (Machine σ ι ω)
  | 0, _ => []
  | limit + 1, m =>
    if m.halted then []
    else m :: if m.step.answer.isOk then attempts limit m.step.machine else []

/-- A call on the machine returns: what happened during it, and its reply. -/
inductive Returns (m : Machine σ ι ω) : List (Event σ ι ω) → Reply σ Unit ι ω → Prop where
  | step : m.Returns ((m.attempts 1).map .attempt) m.step
  | run {fuel : Nat} {reply : Reply σ Unit ι ω} (h : m.run? fuel = some reply) :
      m.Returns ((m.attempts fuel).map .attempt ++
        if reply.answer.isOk then [.finish reply.machine] else []) reply
  | runFor (limit : Nat) :
      m.Returns ((m.attempts limit).map .attempt ++
        if (m.runFor limit).answer.isOk && (m.runFor limit).machine.halted then
          [.finish (m.runFor limit).machine] else []) (m.runFor limit).void

/-- What happened in the course of any number of calls, the records that they made, and the machine
that they left. -/
inductive History (m : Machine σ ι ω) :
    List (Event σ ι ω) → List Record → Machine σ ι ω → Prop where
  | start : m.History [] [] m
  | call {a : Machine σ ι ω} {events later : List (Event σ ι ω)} {records : List Record}
      {reply : Reply σ Unit ι ω} (h : m.History events records a) (hr : a.Returns later reply) :
      m.History (events ++ later) (records ++ reply.records) reply.machine
  | restack {a : Machine σ ι ω} {events : List (Event σ ι ω)} {records : List Record}
      (h : m.History events records a) (stack : Stack) :
      m.History events records (a.mapStack fun _ => stack)

section

variable {m a left : Machine σ ι ω} {events later : List (Event σ ι ω)} {records : List Record}
  {reply : Reply σ Unit ι ω} {fuel : Nat}

theorem attempts_of_halted (h : m.halted = true) (limit : Nat) : m.attempts limit = [] := by
  cases limit <;> simp [attempts, h]

theorem attempts_of_ok (h : m.halted = false) (ha : m.step.answer = .ok ()) (limit : Nat) :
    m.attempts (limit + 1) = m :: m.step.machine.attempts limit := by
  simp [attempts, h, ha, Except.isOk, Except.toBool]

theorem attempts_of_error {fault : Fault} (h : m.halted = false)
    (ha : m.step.answer = .error fault) (limit : Nat) : m.attempts (limit + 1) = [m] := by
  simp [attempts, h, ha, Except.isOk, Except.toBool]

theorem halted_of_mem_attempts {limit : Nat} (h : a ∈ m.attempts limit) : a.halted = false := by
  induction limit generalizing m with
  | zero => contradiction
  | succ limit ih =>
    cases hh : m.halted with
    | true =>
      rw [attempts_of_halted hh] at h
      contradiction
    | false =>
      cases ha : m.step.answer with
      | ok =>
        rw [attempts_of_ok hh ha] at h
        rcases List.mem_cons.mp h with rfl | h
        · exact hh
        · exact ih h
      | error fault =>
        rw [attempts_of_error hh ha] at h
        rwa [List.mem_singleton.mp h]

theorem records_drive (m : Machine σ ι ω) (limit : Nat) :
    (m.drive limit).records = (m.attempts limit).flatMap (·.step.records) := by
  induction limit generalizing m with
  | zero => rfl
  | succ limit ih =>
    cases hh : m.halted with
    | true => rw [drive_of_halted hh, attempts_of_halted hh]; rfl
    | false =>
      cases ha : m.step.answer with
      | ok =>
        rw [drive_of_ok hh ha, attempts_of_ok hh ha, List.flatMap_cons, ← ih]
        rfl
      | error fault =>
        rw [drive_of_error hh ha, attempts_of_error hh ha]
        simp

theorem runFor_of_run? (h : m.run? fuel = some reply) :
    (m.runFor fuel).void = reply ∧ (reply.answer = .ok () → reply.machine.halted = true) := by
  obtain ⟨n, he⟩ := ends_of_run?_go h
  obtain ⟨records, hr, hf⟩ := he.runFor_eq
  rw [hf] at h
  obtain ⟨hn, hm⟩ := Option.ite_none_right_eq_some.mp h
  refine ⟨?_, he.halted_of_ok⟩
  rw [hr fuel (.of_lt hn), ← Option.some.inj hm]
  cases reply.answer <;> rfl

/-- A run that returns is a run that has its fuel for a limit. -/
theorem Returns.cases_runFor (h : m.Returns events reply) :
    (events = (m.attempts 1).map .attempt ∧ reply = m.step) ∨
    ∃ limit, reply = (m.runFor limit).void ∧ events = (m.attempts limit).map .attempt ++
      if (m.runFor limit).answer.isOk && (m.runFor limit).machine.halted then
        [.finish (m.runFor limit).machine] else [] := by
  cases h with
  | step => exact .inl ⟨rfl, rfl⟩
  | @run fuel _ h =>
    obtain ⟨rfl, hh⟩ := runFor_of_run? h
    refine .inr ⟨fuel, rfl, ?_⟩
    cases ha : (m.runFor fuel).answer with
    | ok n =>
      have hm : (m.runFor fuel).machine.halted = true := hh (by simp [Reply.void, ha, Except.map])
      simp [Reply.void, ha, hm, Except.map, Except.isOk, Except.toBool]
    | error fault => simp [Reply.void, ha, Except.map, Except.isOk, Except.toBool]
  | runFor limit => exact .inr ⟨limit, rfl, rfl⟩

theorem flatMap_records_attempt (l : List (Machine σ ι ω)) :
    (l.map Event.attempt).flatMap Event.records = l.flatMap (·.step.records) :=
  List.flatMap_map ..

theorem Returns.records_eq (h : m.Returns events reply) :
    reply.records = events.flatMap Event.records := by
  rcases h.cases_runFor with ⟨rfl, rfl⟩ | ⟨limit, rfl, rfl⟩
  · rw [flatMap_records_attempt]
    cases hh : m.halted with
    | true => rw [attempts_of_halted hh, step_of_halted hh]; rfl
    | false => simp [attempts, hh]
  · rw [List.flatMap_append, flatMap_records_attempt, ← records_drive]
    simp only [Reply.void, runFor_eq_drive, Reply.closing]
    cases (m.drive limit).answer with
    | ok n =>
      cases (m.drive limit).machine.halted <;>
        simp [Event.records, Except.isOk, Except.toBool]
    | error fault => simp [Except.isOk, Except.toBool]

theorem Returns.attempted_eq (h : m.Returns events reply) :
    ∃ limit, attempted events = m.attempts limit ∧
      reply.machine = (m.drive limit).machine := by
  rcases h.cases_runFor with ⟨rfl, rfl⟩ | ⟨limit, rfl, rfl⟩
  · refine ⟨1, attempted_attempt _, ?_⟩
    cases hh : m.halted with
    | true => rw [drive_of_halted hh, step_of_halted hh]; rfl
    | false =>
      cases ha : m.step.answer with
      | ok => rw [drive_of_ok hh ha]; rfl
      | error fault => rw [drive_of_error hh ha]
  · refine ⟨limit, ?_, by rw [Reply.void, runFor_eq_drive]⟩
    rw [attempted_append, attempted_attempt]
    split <;> simp [attempted]

/-- The counter after a step was attempted on the machine, which it counts if it succeeded. -/
def tally (n : Nat) (a : Machine σ ι ω) : Nat := if a.step.answer.isOk then n + 1 else n

theorem scanl_attempts (m : Machine σ ι ω) (limit : Nat) :
    (m.attempts limit).map (·.steps) ++ [(m.drive limit).machine.steps] =
      (m.attempts limit).scanl tally m.steps := by
  induction limit generalizing m with
  | zero => rfl
  | succ limit ih =>
    cases hh : m.halted with
    | true => rw [drive_of_halted hh, attempts_of_halted hh]; rfl
    | false =>
      cases ha : m.step.answer with
      | ok =>
        have ht : tally m.steps m = m.step.machine.steps := by
          rw [steps_step_of_ok hh ha]
          simp [tally, ha, Except.isOk, Except.toBool]
        rw [drive_of_ok hh ha, attempts_of_ok hh ha, List.map_cons, List.scanl_cons, ht, ← ih]
        rfl
      | error fault =>
        have ht : tally m.steps m = m.step.machine.steps := by
          rw [steps_step_of_error ha]
          simp [tally, ha, Except.isOk, Except.toBool]
        rw [drive_of_error hh ha, attempts_of_error hh ha, List.scanl_cons, ht]
        rfl

theorem foldl_tally (l : List (Machine σ ι ω)) (n : Nat) :
    l.foldl tally n = n + l.countP (·.step.answer.isOk) := by
  induction l generalizing n with
  | nil => rfl
  | cons a l ih =>
    rw [List.foldl_cons, ih, List.countP_cons, tally]
    split <;> omega

theorem History.records_eq (h : m.History events records left) :
    records = events.flatMap Event.records := by
  induction h with
  | start => rfl
  | call _ hr ih => rw [List.flatMap_append, ← ih, hr.records_eq]
  | restack _ _ ih => exact ih

theorem foldl_of_scanl {l : List (Machine σ ι ω)} {n k : Nat}
    (h : l.map (·.steps) ++ [k] = l.scanl tally n) : l.foldl tally n = k := by
  have hl := congrArg List.getLast? h
  rw [List.getLast?_append_cons, List.getLast?_singleton, List.getLast?_scanl] at hl
  exact (Option.some.inj hl).symm

theorem History.scanl_eq (h : m.History events records left) :
    (attempted events).map (·.steps) ++ [left.steps] = (attempted events).scanl tally m.steps := by
  induction h with
  | start => rfl
  | @call a events later records reply h hr ih =>
    obtain ⟨limit, he, hm⟩ := hr.attempted_eq
    have hs := scanl_attempts a limit
    rw [← hm, ← he] at hs
    -- the count that the earlier calls end with is the one that the later calls begin with
    have hc : (attempted later).scanl tally a.steps =
        a.steps :: ((attempted later).scanl tally a.steps).tail := by
      cases attempted later <;> simp [List.scanl_cons]
    calc (attempted (events ++ later)).map (·.steps) ++ [reply.machine.steps]
        = (attempted events).map (·.steps) ++ (attempted later).scanl tally a.steps := by
          rw [attempted_append, List.map_append, List.append_assoc, hs]
      _ = ((attempted events).map (·.steps) ++ [a.steps]) ++
            ((attempted later).scanl tally a.steps).tail := by
          rw [List.append_assoc, List.singleton_append, ← hc]
      _ = (attempted (events ++ later)).scanl tally m.steps := by
          rw [ih, attempted_append, List.scanl_append, foldl_of_scanl ih]
  | restack _ _ ih => exact ih

theorem History.steps_eq (h : m.History events records left) :
    left.steps = m.steps + (attempted events).countP (·.step.answer.isOk) := by
  rw [← foldl_tally, foldl_of_scanl h.scanl_eq]

theorem Returns.exists_after (h : m.Returns events reply) : ∃ k, reply.machine = m.after k := by
  obtain ⟨limit, -, hm⟩ := h.attempted_eq
  rw [hm]
  exact exists_after_drive m limit

/-- What every step and every change of the stack preserves holds when a history ends. -/
theorem History.invariant {P : Machine σ ι ω → Prop} (h : m.History events records left)
    (hs : ∀ b, P b → P b.step.machine) (hr : ∀ b stack, P b → P (b.mapStack fun _ => stack))
    (hm : P m) : P left := by
  induction h with
  | start => exact hm
  | @call a _ _ _ reply _ hc ih =>
    obtain ⟨k, hk⟩ := hc.exists_after
    rw [hk]
    exact invariant_after hs ih k
  | restack _ stack ih => exact hr _ stack ih

theorem timely_attempts (limit : Nat) : ∀ e ∈ (m.attempts limit).map Event.attempt, e.Timely :=
  List.forall_mem_map.mpr fun _ => halted_of_mem_attempts

theorem Returns.timely (h : m.Returns events reply) : ∀ e ∈ events, e.Timely := by
  rcases h.cases_runFor with ⟨rfl, rfl⟩ | ⟨limit, rfl, rfl⟩
  · exact timely_attempts 1
  · refine List.forall_mem_append.mpr ⟨timely_attempts limit, ?_⟩
    split
    next hc =>
      rw [List.forall_mem_singleton]
      exact (Bool.and_eq_true_iff.mp hc).2
    next => nofun

theorem History.timely (h : m.History events records left) : ∀ e ∈ events, e.Timely := by
  induction h with
  | start => nofun
  | call _ hr ih => exact List.forall_mem_append.mpr ⟨ih, hr.timely⟩
  | restack _ _ ih => exact ih

end

end Machine

end Befunge
