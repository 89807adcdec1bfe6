import Befunge.Proofs.Lockstep
import Mathlib.Logic.Function.Iterate

/-! The frame rule of the stack. Every instruction takes a fixed number of values, and as long as
the stack holds as many, what lies below them is neither read nor changed. -/

namespace Befunge

namespace Instruction

/-- How many values it takes from the stack, whether or not it fails. -/
def takes : Instruction → Nat
  | .put => 3
  | .operate _ | .swap | .get => 2
  | .not | .duplicate | .discard | .branch _ | .writeInteger | .writeCharacter => 1
  | _ => 0

/-- How many values it puts on the stack when that is the answer: none if it fails. -/
def gives (i : Instruction) (answer : Except Fault Unit) : Nat :=
  match answer, i with
  | .error _, _ => 0
  | .ok (), .swap | .ok (), .duplicate => 2
  | .ok (), .digit _ | .ok (), .operate _ | .ok (), .not | .ok (), .get => 1
  | .ok (), .readInteger | .ok (), .readCharacter => 1
  | .ok (), _ => 0

theorem takes_le_three (i : Instruction) : i.takes ≤ 3 := by
  cases i <;> simp [takes]

end Instruction

namespace Stack

def above (s base : Stack) : Stack := ⟨s.values ++ base.values⟩

theorem toList_above (s base : Stack) : (s.above base).toList = base.toList ++ s.toList :=
  List.reverse_append

theorem size_above (s base : Stack) : (s.above base).size = s.size + base.size :=
  List.length_append

theorem values_iterate_pop (n : Nat) (s : Stack) : (pop^[n] s).values = s.values.drop n := by
  induction n generalizing s with
  | zero => rfl
  | succ n ih => rw [Function.iterate_succ_apply, ih, values_pop, List.drop_tail]

theorem size_iterate_pop (n : Nat) (s : Stack) : (pop^[n] s).size = s.size - n := by
  rw [size, values_iterate_pop, List.length_drop, size]

variable {s : Stack}

theorem exists_push (h : 1 ≤ s.size) : ∃ v t, s = push v t := by
  obtain ⟨values⟩ := s
  cases values with
  | nil => contradiction
  | cons v values => exact ⟨v, ⟨values⟩, rfl⟩

theorem exists_push_push (h : 2 ≤ s.size) : ∃ v w t, s = push v (push w t) := by
  obtain ⟨v, t, rfl⟩ := exists_push (Nat.one_le_of_lt h)
  obtain ⟨w, t, rfl⟩ := exists_push (s := t) (Nat.le_of_succ_le_succ h)
  exact ⟨v, w, t, rfl⟩

theorem exists_push_push_push (h : 3 ≤ s.size) :
    ∃ v w x t, s = push v (push w (push x t)) := by
  obtain ⟨v, t, rfl⟩ := exists_push (Nat.one_le_of_lt h)
  obtain ⟨w, x, t, rfl⟩ := exists_push_push (s := t) (Nat.le_of_succ_le_succ h)
  exact ⟨v, w, x, t, rfl⟩

end Stack

namespace Machine

variable {σ ι ω : Type}

def demand (m : Machine σ ι ω) : Nat := m.order.elim 0 Instruction.takes

/-- The stack holds every value that the next step takes from it. -/
def Covered (m : Machine σ ι ω) : Prop := m.demand ≤ m.stack.size

instance (m : Machine σ ι ω) : Decidable m.Covered := inferInstanceAs (Decidable (_ ≤ _))

def onBase (base : Stack) (m : Machine σ ι ω) : Machine σ ι ω := m.mapStack (·.above base)

/-- The second machine differs from the first in what lies below the stack only. -/
def OnBase (base : Stack) (m m' : Machine σ ι ω) : Prop := m' = m.onBase base

theorem size_onBase (base : Stack) (m : Machine σ ι ω) :
    (m.onBase base).stack.size = m.stack.size + base.size :=
  Stack.size_above _ _

theorem demand_le_three (m : Machine σ ι ω) : m.demand ≤ 3 := by
  cases ho : m.order with
  | none => simp [demand, ho]
  | some i => simpa [demand, ho] using i.takes_le_three

variable {m : Machine σ ι ω} (base : Stack)

variable [DirectionSource σ] [InputSource ι] [OutputSink ω]

theorem perform_onBase {i : Instruction} (h : i.takes ≤ m.stack.size) :
    (m.perform i).Agree (OnBase base) ((m.onBase base).perform i) := by
  cases i with
  | blank | exit | quote | bridge | digit | turn | wander => exact ⟨rfl, rfl, rfl⟩
  | not | duplicate | discard | branch =>
    obtain ⟨field, stack, cursor, quoting, halted, steps, input, output, directions⟩ := m
    obtain ⟨v, t, rfl⟩ := Stack.exists_push h
    exact ⟨rfl, rfl, rfl⟩
  | operate | swap =>
    obtain ⟨field, stack, cursor, quoting, halted, steps, input, output, directions⟩ := m
    obtain ⟨v, w, t, rfl⟩ := Stack.exists_push_push h
    exact ⟨rfl, rfl, rfl⟩
  | get =>
    obtain ⟨field, stack, cursor, quoting, halted, steps, input, output, directions⟩ := m
    obtain ⟨y, x, t, rfl⟩ := Stack.exists_push_push h
    exact agree_getCell rfl rfl fun _ => rfl
  | put =>
    obtain ⟨field, stack, cursor, quoting, halted, steps, input, output, directions⟩ := m
    obtain ⟨y, x, v, t, rfl⟩ := Stack.exists_push_push_push h
    exact agree_putCell rfl rfl fun _ => rfl
  | readInteger => exact agree_readInteger rfl (fun _ => rfl) fun _ _ => rfl
  | readCharacter => exact agree_readCharacter rfl (fun _ => rfl) fun _ _ => rfl
  | writeInteger | writeCharacter =>
    obtain ⟨field, stack, cursor, quoting, halted, steps, input, output, directions⟩ := m
    obtain ⟨v, t, rfl⟩ := Stack.exists_push h
    exact agree_emit _ rfl fun _ => rfl

theorem step_onBase (h : m.Covered) : m.step.Agree (OnBase base) (m.onBase base).step :=
  Alike.step {
    halted := rfl
    steps := rfl
    cursor := rfl
    quoting := rfl
    fetch := fun _ => rfl
    related := fun _ => rfl
    push := fun _ _ => rfl
    perform := fun i ho => perform_onBase base (by rwa [Covered, demand, ho] at h)
    proceed := fun ha => by rw [OnBase] at ha ⊢; rw [ha]; rfl }

/-- What an instruction leaves on the stack is what it gives and, below it, the stack without what
it takes. -/
theorem exists_given_perform (m : Machine σ ι ω) (i : Instruction) :
    ∃ given : Stack, given.size = i.gives (m.perform i).answer ∧
      (m.perform i).machine.stack = given.above (Stack.pop^[i.takes] m.stack) := by
  cases i with
  | get =>
    simp only [perform, getCell]
    split
    · exact ⟨⟨[_]⟩, rfl, rfl⟩
    · exact ⟨.empty, rfl, rfl⟩
  | put =>
    simp only [perform, putCell]
    split <;> exact ⟨.empty, rfl, rfl⟩
  | readInteger =>
    simp only [perform, readInteger]
    split
    · exact ⟨⟨[_]⟩, rfl, rfl⟩
    · exact ⟨⟨[_]⟩, rfl, rfl⟩
    · exact ⟨.empty, rfl, rfl⟩
  | readCharacter =>
    simp only [perform, readCharacter]
    split
    · exact ⟨⟨[_]⟩, rfl, rfl⟩
    · exact ⟨⟨[_]⟩, rfl, rfl⟩
    · exact ⟨.empty, rfl, rfl⟩
  | writeInteger | writeCharacter =>
    simp only [perform, emit]
    split <;> exact ⟨.empty, rfl, rfl⟩
  | operate | not | digit => exact ⟨⟨[_]⟩, rfl, rfl⟩
  | swap | duplicate => exact ⟨⟨[_, _]⟩, rfl, rfl⟩
  | _ => exact ⟨.empty, rfl, rfl⟩

theorem size_perform (m : Machine σ ι ω) (i : Instruction) :
    (m.perform i).machine.stack.size =
      i.gives (m.perform i).answer + (m.stack.size - i.takes) := by
  obtain ⟨given, hg, hs⟩ := exists_given_perform m i
  rw [hs, Stack.size_above, hg, Stack.size_iterate_pop]

theorem size_step {i : Instruction} (ho : m.order = some i) :
    m.step.machine.stack.size = i.gives m.step.answer + (m.stack.size - i.takes) := by
  rw [step_of_order ho, answer_conclude, observe_conclude (·.stack.size) fun _ => rfl,
    size_perform]

/-- A step loses at most three values, also when it fails. -/
theorem size_le_size_step (m : Machine σ ι ω) : m.stack.size ≤ m.step.machine.stack.size + 3 := by
  refine holds_of_step (P := fun a => m.stack.size ≤ a.stack.size + 3) (fun h => h)
    (fun _ => Nat.le_add_right _ 3) (fun _ v => ?_) fun i _ => ?_
  · have hv : (m.push v).stack.size = m.stack.size + 1 := rfl
    omega
  · have ht := i.takes_le_three
    have hs := m.size_perform i
    omega

theorem size_le_size_after (m : Machine σ ι ω) (k : Nat) :
    m.stack.size ≤ (m.after k).stack.size + 3 * k := by
  induction k with
  | zero => exact Nat.le_refl _
  | succ k ih =>
    have hs := size_le_size_step (m.after k)
    rw [after_succ]
    omega

theorem covered_after_of_size {k : Nat} (h : 3 * k ≤ m.stack.size) :
    ∀ i < k, (m.after i).Covered := by
  intro i hi
  have hs := size_le_size_after m i
  have hd := demand_le_three (m.after i)
  rw [Covered]
  omega

/-- A step that takes more than the stack holds takes it from what lies below. -/
theorem covered_of_agree {base : Stack} (hb : 3 ≤ base.size)
    (h : m.step.Agree (OnBase base) (m.onBase base).step) : m.Covered := by
  cases ho : m.order with
  | none => simp [Covered, demand, ho]
  | some i =>
    have ho' : (m.onBase base).order = some i := ho
    have hs : (m.onBase base).step.machine.stack.size =
        m.step.machine.stack.size + base.size := by
      rw [h.machine, size_onBase]
    rw [size_step ho', size_step ho, size_onBase, ← h.answer] at hs
    have ht := i.takes_le_three
    simp only [Covered, demand, ho, Option.elim]
    omega

theorem inStep_onBase {k : Nat} (hk : ∀ i < k, (m.after i).Covered) (base : Stack) :
    InStep (OnBase base) m (m.onBase base) k := by
  refine inStep_of_step (fun h => by rw [h]; rfl) (fun h => by rw [h]; rfl) rfl fun i hi h => ?_
  rw [h]
  exact step_onBase base (hk i hi)

/-- The stack covers what the first `k` calls take from it exactly if nothing below it matters to
them. -/
theorem covered_after_iff (m : Machine σ ι ω) (k : Nat) :
    (∀ i < k, (m.after i).Covered) ↔ ∀ base, InStep (OnBase base) m (m.onBase base) k := by
  refine ⟨inStep_onBase, fun h i hi => ?_⟩
  have hb : 3 ≤ (Stack.ofList [0, 0, 0]).size := Nat.le_refl 3
  have hs := h (.ofList [0, 0, 0])
  have hc := hs.calls i hi
  rw [hs.after i (Nat.le_of_lt hi)] at hc
  exact covered_of_agree hb hc

theorem stack_below_untouched (m : Machine σ ι ω) (k : Nat) :
    (3 * k ≤ m.stack.size → ∀ i < k, (m.after i).Covered) ∧
    ((∀ i < k, (m.after i).Covered) ↔ ∀ base, InStep (OnBase base) m (m.onBase base) k) ∧
    ∀ base, (m.onBase base).stack.toList = base.toList ++ m.stack.toList :=
  ⟨covered_after_of_size, covered_after_iff m k, Stack.toList_above m.stack⟩

/-- Subtracts, and then puts a value outside the surface. -/
def overreaching : Machine Script :=
  { start (.ofLines ["-p".toList.map Char.toUInt8]) (.ofBytes []) .unlimited (.ofList []) with
    stack := .ofList [8, 5, 99, 4, 1] }

theorem stack_below_untouched_overreaching :
    (∀ i < 2, (overreaching.after i).Covered) ∧
    ((overreaching.onBase (.ofList [6])).after 1).step.answer = .error (.outOfBounds 99 3) ∧
    ((overreaching.onBase (.ofList [6])).after 2).stack.toList = [6, 8] := by
  have hk : ∀ i < 2, (overreaching.after i).Covered := by decide +kernel
  have hs := (stack_below_untouched overreaching 2).2.1.mp hk (.ofList [6])
  have hl : (overreaching.after 2).stack.toList = [8] := by decide +kernel
  refine ⟨hk, (hs.calls 1 (by decide)).answer.symm, ?_⟩
  rw [hs.after 2 (Nat.le_refl 2), (stack_below_untouched (overreaching.after 2) 0).2.2, hl]
  rfl

end Machine

end Befunge
