import Befunge.Proofs.InputCausality
import Befunge.Proofs.OutputCapacity

/-! What can become of a machine, of its source and of its sink, and the faults that it can ever
meet. -/

namespace Befunge

namespace InputSource

variable {ι : Type} [InputSource ι]

inductive Becomes (source : ι) : ι → Prop where
  | same : Becomes source source
  | byte {s : ι} (h : Becomes source s) : Becomes source (takeByte s).2
  | line {s : ι} (h : Becomes source s) : Becomes source (takeLine s).2

def NeverFails (source : ι) : Prop :=
  ∀ s, Becomes source s → ∀ cause, (takeByte s).1 ≠ .failed cause ∧ (takeLine s).1 ≠ .failed cause

theorem Becomes.trans {source s t : ι} (h : Becomes source s) (h' : Becomes s t) :
    Becomes source t := by
  induction h' with
  | same => exact h
  | byte _ ih => exact ih.byte
  | line _ ih => exact ih.line

theorem NeverFails.of_becomes {source s : ι} (h : NeverFails source) (hs : Becomes source s) :
    NeverFails s :=
  fun t ht => h t (hs.trans ht)

end InputSource

theorem Input.neverFails {i : Input} (h : i.failure = none) : InputSource.NeverFails i := by
  intro s hs
  have hf : s.failure = none := by
    induction hs with
    | same => exact h
    | @byte s _ ih =>
      obtain ⟨pending, failure⟩ := s
      cases pending <;> exact ih
    | @line s _ ih =>
      change (takeLine s).2.failure = none
      unfold takeLine
      split <;> exact ih
  refine fun cause => ⟨fun hb => ?_, fun hl => ?_⟩
  · obtain ⟨pending, failure⟩ := s
    cases hf
    cases pending <;> cases hb
  · have hc := (takeLine_eq_failed_iff.mp hl).2
    rw [hf] at hc
    contradiction

namespace OutputSink

variable {ω : Type} [OutputSink ω]

inductive Becomes (sink : ω) : ω → Prop where
  | same : Becomes sink sink
  | written {o : ω} (h : Becomes sink o) (bytes : List UInt8) : Becomes sink (write bytes o).2
  | flushed {o : ω} (h : Becomes sink o) : Becomes sink (flush o).2

def NeverFails (sink : ω) : Prop :=
  ∀ o, Becomes sink o → (∀ bytes, (write bytes o).1 = .ok ()) ∧ (flush o).1 = .ok ()

theorem Becomes.trans {sink o p : ω} (h : Becomes sink o) (h' : Becomes o p) : Becomes sink p := by
  induction h' with
  | same => exact h
  | written _ bytes ih => exact ih.written bytes
  | flushed _ ih => exact ih.flushed

theorem NeverFails.of_becomes {sink o : ω} (h : NeverFails sink) (ho : Becomes sink o) :
    NeverFails o :=
  fun p hp => h p (ho.trans hp)

theorem becomes_deliver (o : ω) (bytes : List UInt8) : Becomes o (deliver bytes o).2 := by
  have hw : Becomes o (write bytes o).2 := .written .same bytes
  cases h : (write bytes o).1 with
  | ok => simpa only [deliver, h] using hw.flushed
  | error cause => simpa only [deliver, h] using hw

theorem NeverFails.deliver {sink : ω} (h : NeverFails sink) (bytes : List UInt8) :
    (deliver bytes sink).1 = .ok () ∧ NeverFails (deliver bytes sink).2 ∧
      accepted (deliver bytes sink).2 = accepted sink ++ bytes := by
  have hw : (write bytes sink).1 = .ok () := (h sink .same).1 bytes
  have hf : (flush (write bytes sink).2).1 = .ok () := (h _ (.written .same bytes)).2
  obtain ⟨sent, -, ha, hs⟩ := accepted_deliver bytes sink
  rw [hs hw] at ha
  refine ⟨?_, h.of_becomes (becomes_deliver sink bytes), ha⟩
  simp only [OutputSink.deliver, hw, hf]

end OutputSink

theorem Output.neverFails {o : Output} (h : o.Free) : OutputSink.NeverFails o := by
  intro p hp
  have hf : p.Free := by
    induction hp with
    | same => exact h
    | @written o _ bytes ih =>
      obtain ⟨written, capacity, delivery⟩ := o
      obtain ⟨rfl, rfl⟩ := ih
      exact ⟨rfl, rfl⟩
    | flushed _ ih => exact ih
  obtain ⟨written, capacity, delivery⟩ := p
  obtain ⟨rfl, rfl⟩ := hf
  exact ⟨fun _ => rfl, rfl⟩

namespace Machine

variable {σ ι ω : Type} [DirectionSource σ] [InputSource ι] [OutputSink ω]

/-- What becomes of a machine by calls of `step` and `runFor` and by changes of its stack. -/
inductive Reaches (m : Machine σ ι ω) : Machine σ ι ω → Prop where
  | same : Reaches m m
  | step {a : Machine σ ι ω} (h : Reaches m a) : Reaches m a.step.machine
  | runFor {a : Machine σ ι ω} (h : Reaches m a) (limit : Nat) : Reaches m (a.runFor limit).machine
  | restack {a : Machine σ ι ω} (h : Reaches m a) (stack : Stack) :
      Reaches m (a.mapStack fun _ => stack)

/-- Some call has the fault for its answer. -/
def Meets (m : Machine σ ι ω) (fault : Fault) : Prop :=
  m.step.answer = .error fault ∨ (∃ limit, (m.runFor limit).answer = .error fault) ∨
    ∃ fuel reply, m.run? fuel = some reply ∧ reply.answer = .error fault

theorem exists_after_drive (m : Machine σ ι ω) (limit : Nat) :
    ∃ k, (m.drive limit).machine = m.after k := by
  induction limit generalizing m with
  | zero => exact ⟨0, rfl⟩
  | succ limit ih =>
    cases hh : m.halted with
    | true =>
      rw [drive_of_halted hh]
      exact ⟨0, rfl⟩
    | false =>
      cases ha : m.step.answer with
      | ok =>
        obtain ⟨k, hk⟩ := ih m.step.machine
        rw [drive_of_ok hh ha]
        exact ⟨k + 1, hk⟩
      | error fault =>
        rw [drive_of_error hh ha]
        exact ⟨1, rfl⟩

theorem Ends.exists_after {m left : Machine σ ι ω} {n : Nat} {answer : Except Fault Unit}
    (h : m.Ends n answer left) : ∃ k, left = m.after k := by
  obtain ⟨records, hd⟩ := h.drive_eq
  obtain ⟨k, hk⟩ := exists_after_drive m (n + 1)
  rw [hd (n + 1) (.of_lt (Nat.lt_succ_self n))] at hk
  exact ⟨k, hk⟩

theorem exists_step_of_drive {m : Machine σ ι ω} {limit : Nat} {fault : Fault}
    (h : (m.drive limit).answer = .error fault) :
    ∃ k, (m.after k).step.answer = .error fault := by
  induction limit generalizing m with
  | zero => contradiction
  | succ limit ih =>
    cases hh : m.halted with
    | true =>
      rw [drive_of_halted hh] at h
      contradiction
    | false =>
      cases ha : m.step.answer with
      | ok =>
        rw [drive_of_ok hh ha] at h
        have hd : (m.step.machine.drive limit).answer = .error fault := by
          cases hd : (m.step.machine.drive limit).answer <;>
            simp [Reply.following, hd, Except.map] at h
          rw [h]
        obtain ⟨k, hk⟩ := ih hd
        exact ⟨k + 1, hk⟩
      | error fault' =>
        rw [drive_of_error hh ha] at h
        cases h
        exact ⟨0, ha⟩

theorem exists_step_of_meets {m : Machine σ ι ω} {fault : Fault} (h : m.Meets fault) :
    ∃ k, (m.after k).step.answer = .error fault := by
  rcases h with h | ⟨limit, h⟩ | ⟨fuel, reply, hr, h⟩
  · exact ⟨0, h⟩
  · rw [runFor_eq_drive] at h
    exact exists_step_of_drive h
  · obtain ⟨n, he⟩ := ends_of_run?_go hr
    exact exists_step_of_drive ((he.drive_of_error h).2.2 (n + 1) (Nat.lt_succ_self n)).1

theorem invariant_after {P : Machine σ ι ω → Prop} {m : Machine σ ι ω}
    (hs : ∀ b, P b → P b.step.machine) (hm : P m) (k : Nat) : P (m.after k) := by
  induction k with
  | zero => exact hm
  | succ k ih =>
    rw [after_succ]
    exact hs _ ih

/-- What every step and every change of the stack preserves holds of all that a machine becomes,
and at every step of its runs. -/
theorem Reaches.invariant {P : Machine σ ι ω → Prop} {m a : Machine σ ι ω} (h : m.Reaches a)
    (hs : ∀ b, P b → P b.step.machine) (hr : ∀ b stack, P b → P (b.mapStack fun _ => stack))
    (hm : P m) (k : Nat) : P (a.after k) := by
  refine invariant_after hs ?_ k
  induction h with
  | same => exact hm
  | step _ ih => exact hs _ ih
  | @runFor b _ limit ih =>
    obtain ⟨j, hj⟩ := exists_after_drive b limit
    rw [runFor_eq_drive, hj]
    exact invariant_after hs ih j
  | restack _ stack ih => exact hr _ stack ih

end Machine

end Befunge
