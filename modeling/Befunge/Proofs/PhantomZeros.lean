import Befunge.Proofs.Lockstep

/-! The zeros below a stack. Whether zeros at the bottom of the stack were pushed or merely
imagined makes no difference to anything that a machine does. -/

namespace Befunge

namespace Stack

/-- Equal but for the zeros at the bottom. -/
def Equivalent (s t : Stack) : Prop :=
  s.toList.dropWhile (· == 0) = t.toList.dropWhile (· == 0)

theorem dropWhile_toList_push (v : Int64) (s : Stack) :
    (s.push v).toList.dropWhile (· == 0) =
      if s.toList.dropWhile (· == 0) = [] then if v = 0 then [] else [v]
      else s.toList.dropWhile (· == 0) ++ [v] := by
  rw [toList_push, List.dropWhile_append]
  cases s.toList.dropWhile (· == 0) <;> simp [List.dropWhile_cons]

namespace Equivalent

variable {s t : Stack}

theorem push (h : s.Equivalent t) (v : Int64) : (s.push v).Equivalent (t.push v) := by
  unfold Equivalent at h ⊢
  rw [dropWhile_toList_push, dropWhile_toList_push, h]

theorem of_push {v w : Int64} (h : (s.push v).Equivalent (t.push w)) :
    v = w ∧ s.Equivalent t := by
  unfold Equivalent at h ⊢
  rw [dropWhile_toList_push, dropWhile_toList_push] at h
  -- a zero on top of nothing is dropped as well, so an empty rest is a case of its own
  generalize s.toList.dropWhile (· == 0) = a at h ⊢
  generalize t.toList.dropWhile (· == 0) = b at h ⊢
  cases a with
  | nil =>
    cases b with
    | nil => by_cases hv : v = 0 <;> by_cases hw : w = 0 <;> simp_all
    | cons y b => by_cases hv : v = 0 <;> simp [hv] at h
  | cons x a =>
    cases b with
    | nil => by_cases hw : w = 0 <;> simp [hw] at h
    | cons y b =>
      simp only [reduceCtorEq, if_false] at h
      obtain ⟨hab, hvw⟩ := List.append_inj' h rfl
      exact ⟨(List.cons.inj hvw).1, hab⟩

/-- Taking the top off and putting it back pushes at most a zero that was imagined. -/
theorem push_top_pop (s : Stack) : (s.pop.push s.top).Equivalent s := by
  obtain ⟨values⟩ := s
  cases values <;> rfl

theorem top_pop (h : s.Equivalent t) : s.top = t.top ∧ s.pop.Equivalent t.pop :=
  of_push ((push_top_pop s).trans (h.trans (push_top_pop t).symm))

theorem top (h : s.Equivalent t) : s.top = t.top := h.top_pop.1

theorem pop (h : s.Equivalent t) : s.pop.Equivalent t.pop := h.top_pop.2

theorem swap (h : s.Equivalent t) : s.swap.Equivalent t.swap := by
  rw [Stack.swap, Stack.swap, h.top, h.pop.top]
  exact (h.pop.pop.push _).push _

theorem duplicate (h : s.Equivalent t) : s.duplicate.Equivalent t.duplicate := by
  rw [Stack.duplicate, Stack.duplicate, h.top]
  exact (h.pop.push _).push _

theorem negate (h : s.Equivalent t) : s.negate.Equivalent t.negate := by
  rw [Stack.negate, Stack.negate, h.top]
  exact h.pop.push _

theorem operate (h : s.Equivalent t) (op : Operator) :
    (s.operate op).Equivalent (t.operate op) := by
  rw [Stack.operate, Stack.operate, h.top, h.pop.top]
  exact h.pop.pop.push _

end Equivalent

end Stack

namespace Machine

variable {σ ι ω : Type}

/-- Machines that differ in the zeros at the bottom of the stack, and in nothing else. -/
structure Equivalent (m m' : Machine σ ι ω) : Prop where
  stack : m.stack.Equivalent m'.stack
  field : m.field = m'.field
  cursor : m.cursor = m'.cursor
  quoting : m.quoting = m'.quoting
  halted : m.halted = m'.halted
  steps : m.steps = m'.steps
  input : m.input = m'.input
  output : m.output = m'.output
  directions : m.directions = m'.directions

theorem equivalent_of_stack {m : Machine σ ι ω} {s : Stack} (h : m.stack.Equivalent s) :
    m.Equivalent { m with stack := s } :=
  ⟨h, rfl, rfl, rfl, rfl, rfl, rfl, rfl, rfl⟩

namespace Equivalent

variable {m m' : Machine σ ι ω}

theorem exists_stack (h : m.Equivalent m') :
    ∃ s, m.stack.Equivalent s ∧ m' = { m with stack := s } := by
  obtain ⟨field, stack, cursor, quoting, halted, steps, input, output, directions⟩ := m
  obtain ⟨field', stack', cursor', quoting', halted', steps', input', output', directions'⟩ := m'
  obtain ⟨hs, rfl, rfl, rfl, rfl, rfl, rfl, rfl, rfl⟩ := h
  exact ⟨stack', hs, rfl⟩

theorem push (h : m.Equivalent m') (v : Int64) : (m.push v).Equivalent (m'.push v) :=
  ⟨h.stack.push v, h.field, h.cursor, h.quoting, h.halted, h.steps, h.input, h.output,
    h.directions⟩

theorem proceed (h : m.Equivalent m') : m.proceed.Equivalent m'.proceed := by
  obtain ⟨s, hs, rfl⟩ := h.exists_stack
  exact equivalent_of_stack (m := m.proceed) hs

theorem emit [OutputSink ω] (h : m.Equivalent m') (bytes : List UInt8) :
    (m.emit bytes).Agree Equivalent (m'.emit bytes) := by
  obtain ⟨s, hs, rfl⟩ := h.exists_stack
  simp only [Machine.emit]
  split
  · exact ⟨rfl, rfl, equivalent_of_stack hs.pop⟩
  · exact ⟨rfl, rfl, equivalent_of_stack hs.pop⟩

theorem readInteger [InputSource ι] (h : m.Equivalent m') :
    m.readInteger.Agree Equivalent m'.readInteger := by
  obtain ⟨s, hs, rfl⟩ := h.exists_stack
  simp only [Machine.readInteger]
  split
  · exact ⟨rfl, rfl, equivalent_of_stack (hs.push _)⟩
  · exact ⟨rfl, rfl, equivalent_of_stack (hs.push _)⟩
  · exact ⟨rfl, rfl, equivalent_of_stack hs⟩

theorem readCharacter [InputSource ι] (h : m.Equivalent m') :
    m.readCharacter.Agree Equivalent m'.readCharacter := by
  obtain ⟨s, hs, rfl⟩ := h.exists_stack
  simp only [Machine.readCharacter]
  split
  · exact ⟨rfl, rfl, equivalent_of_stack (hs.push _)⟩
  · exact ⟨rfl, rfl, equivalent_of_stack (hs.push _)⟩
  · exact ⟨rfl, rfl, equivalent_of_stack hs⟩

theorem getCell (h : m.Equivalent m') : m.getCell.Agree Equivalent m'.getCell := by
  obtain ⟨s, hs, rfl⟩ := h.exists_stack
  simp only [Machine.getCell, ← hs.top, ← hs.pop.top]
  split
  · exact ⟨rfl, rfl, equivalent_of_stack (hs.pop.pop.push _)⟩
  · exact ⟨rfl, rfl, equivalent_of_stack hs.pop.pop⟩

theorem putCell (h : m.Equivalent m') : m.putCell.Agree Equivalent m'.putCell := by
  obtain ⟨s, hs, rfl⟩ := h.exists_stack
  simp only [Machine.putCell, ← hs.top, ← hs.pop.top, ← hs.pop.pop.top]
  split
  · exact ⟨rfl, rfl, equivalent_of_stack hs.pop.pop.pop⟩
  · exact ⟨rfl, rfl, equivalent_of_stack hs.pop.pop.pop⟩

variable [DirectionSource σ] [InputSource ι] [OutputSink ω]

theorem perform (h : m.Equivalent m') (i : Instruction) :
    (m.perform i).Agree Equivalent (m'.perform i) := by
  have ht := h.stack.top
  obtain ⟨s, hs, rfl⟩ := h.exists_stack
  cases i with
  | blank => exact ⟨rfl, rfl, h⟩
  | exit => exact ⟨rfl, rfl, equivalent_of_stack hs⟩
  | quote => exact ⟨rfl, rfl, equivalent_of_stack hs⟩
  | bridge => exact ⟨rfl, rfl, equivalent_of_stack (m := m.advance) hs⟩
  | digit n => exact ⟨rfl, rfl, h.push _⟩
  | operate op =>
    refine ⟨rfl, ?_, equivalent_of_stack (hs.operate op)⟩
    simp only [Machine.perform, done, operandRecords, hs.top, hs.pop.top]
  | not => exact ⟨rfl, rfl, equivalent_of_stack hs.negate⟩
  | swap => exact ⟨rfl, rfl, equivalent_of_stack hs.swap⟩
  | duplicate => exact ⟨rfl, rfl, equivalent_of_stack hs.duplicate⟩
  | discard => exact ⟨rfl, rfl, equivalent_of_stack hs.pop⟩
  | turn d => exact ⟨rfl, rfl, equivalent_of_stack (m := m.turn d) hs⟩
  | wander => exact ⟨rfl, rfl, ⟨hs, rfl, rfl, rfl, rfl, rfl, rfl, rfl, rfl⟩⟩
  | branch axis =>
    refine ⟨rfl, rfl, ⟨hs.pop, rfl, ?_, rfl, rfl, rfl, rfl, rfl, rfl⟩⟩
    simp only [Machine.perform, done, Machine.turn, mapStack, ht]
  | get => exact h.getCell
  | put => exact h.putCell
  | readInteger => exact h.readInteger
  | readCharacter => exact h.readCharacter
  | writeInteger =>
    simp only [Machine.perform, ht]
    exact h.emit _
  | writeCharacter =>
    simp only [Machine.perform, ht]
    exact h.emit _

theorem step (h : m.Equivalent m') : m.step.Agree Equivalent m'.step :=
  Alike.step {
    halted := h.halted
    steps := h.steps
    cursor := h.cursor
    quoting := h.quoting
    fetch := fun _ => by rw [fetch, fetch, h.field, h.cursor]
    related := fun _ => h
    push := fun _ => h.push
    perform := fun i _ => h.perform i
    proceed := proceed }

theorem lockstep : Lockstep (Equivalent (σ := σ) (ι := ι) (ω := ω)) where
  halted := halted
  steps := steps
  step := step

end Equivalent

variable [DirectionSource σ] [InputSource ι] [OutputSink ω]

theorem phantom_zeros_unobservable {m m' : Machine σ ι ω} (h : m.Equivalent m') :
    (∀ k, (m.after k).Equivalent (m'.after k)) ∧
    (∀ k, (m.after k).step.Agree Equivalent (m'.after k).step) ∧
    ∀ limit, (m.runFor limit).Agree Equivalent (m'.runFor limit) := by
  have hl := Equivalent.lockstep (σ := σ) (ι := ι) (ω := ω)
  exact ⟨hl.after h, fun k => (hl.after h k).step, hl.runFor h⟩

def adder (values : List Int64) : Machine Script :=
  { start (.ofLines ["+.@".toList.map Char.toUInt8]) (.ofBytes []) .unlimited (.ofList []) with
    stack := .ofList values }

theorem phantom_zeros_unobservable_adder : (adder [7]).Equivalent (adder [0, 0, 7]) ∧
    ∀ limit, ((adder [7]).runFor limit).Agree Equivalent ((adder [0, 0, 7]).runFor limit) := by
  have h : (adder [7]).Equivalent (adder [0, 0, 7]) := equivalent_of_stack rfl
  exact ⟨h, (phantom_zeros_unobservable h).2.2⟩

end Machine

end Befunge
