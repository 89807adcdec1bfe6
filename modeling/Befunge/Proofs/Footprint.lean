import Befunge.Proofs.Lockstep

/-! The cells that a run depends on. A step consults the cell under the cursor and the cell that
`g` addresses, and overwrites the cell that `p` addresses. A run on another playing surface goes
the same way as long as the two agree on every cell that is consulted before it is overwritten. -/

namespace Befunge

namespace Playfield

def receive (field : Playfield) : Option (Position × UInt8) → Playfield
  | some (p, b) => field.set p b
  | none => field

theorem get_receive_of_mem {field : Playfield} {p : Position} {b : UInt8}
    {d : Option (Position × UInt8)} (h : d = some (p, b)) : (field.receive d).get p = b := by
  simp [h, receive, get_set]

theorem get_receive_of_not_mem {field : Playfield} {p : Position}
    {d : Option (Position × UInt8)} (h : ∀ b, d ≠ some (p, b)) :
    (field.receive d).get p = field.get p := by
  rcases d with _ | ⟨q, b⟩
  · rfl
  · have hq : q ≠ p := fun he => h b (by rw [he])
    simp [receive, get_set, hq]

end Playfield

namespace Machine

variable {σ ι ω : Type}

/-- The cell that the next step reads by its coordinates. -/
def inspected (m : Machine σ ι ω) : Option Position :=
  if m.order = some .get then Position.ofCoordinates? m.stack.pop.top m.stack.top else none

/-- The cell that the next step overwrites, and the byte that it puts there. -/
def deposit (m : Machine σ ι ω) : Option (Position × UInt8) :=
  if m.order = some .put then
    (Position.ofCoordinates? m.stack.pop.top m.stack.top).map (·, lowByte m.stack.pop.pop.top)
  else none

/-- The next step fetches the cell, or reads it by its coordinates. -/
def Consults (m : Machine σ ι ω) (p : Position) : Prop :=
  m.halted = false ∧ (p = m.cursor.position ∨ m.inspected = some p)

instance (m : Machine σ ι ω) (p : Position) : Decidable (m.Consults p) :=
  inferInstanceAs (Decidable (_ ∧ _))

def Overwrites (m : Machine σ ι ω) (p : Position) : Prop := ∃ b, m.deposit = some (p, b)

theorem deposit_of_ne {m : Machine σ ι ω} {i : Instruction} (ho : m.order = some i)
    (hi : i ≠ .put) : m.deposit = none := by
  have hn : ¬ m.order = some .put := fun h => hi (Option.some.inj (ho.symm.trans h))
  rw [deposit, if_neg hn]

theorem deposit_of_order_eq_none {m : Machine σ ι ω} (ho : m.order = none) : m.deposit = none := by
  simp [deposit, ho]

def onField (field : Playfield) (m : Machine σ ι ω) : Machine σ ι ω := { m with field }

def MovedTo (field : Playfield) (m m' : Machine σ ι ω) : Prop := m' = m.onField field

theorem emit_onField [OutputSink ω] (m : Machine σ ι ω) (field : Playfield) (bytes : List UInt8) :
    (m.emit bytes).Agree (MovedTo field) ((m.onField field).emit bytes) := by
  simp only [emit, onField]
  split <;> exact ⟨rfl, rfl, rfl⟩

theorem getCell_onField {m : Machine σ ι ω} {field : Playfield} (ho : m.order = some .get)
    (h : ∀ p, m.inspected = some p → field.get p = m.field.get p) :
    m.getCell.Agree (MovedTo field) (m.onField field).getCell := by
  simp only [inspected, ho, if_true] at h
  simp only [getCell, onField, Playfield.read]
  cases hp : Position.ofCoordinates? m.stack.pop.top m.stack.top with
  | none => exact ⟨rfl, rfl, rfl⟩
  | some p =>
    simp only [h p hp]
    exact ⟨rfl, rfl, rfl⟩

theorem putCell_onField {m : Machine σ ι ω} (field : Playfield) (ho : m.order = some .put) :
    m.putCell.Agree (MovedTo (field.receive m.deposit))
      (m.onField field).putCell := by
  simp only [putCell, onField, Playfield.write, deposit, ho, if_true]
  cases Position.ofCoordinates? m.stack.pop.top m.stack.top <;> exact ⟨rfl, rfl, rfl⟩

variable [DirectionSource σ] [InputSource ι] [OutputSink ω]

/-- One of the first `k` calls put a byte on the cell. -/
def OverwrittenBefore (m : Machine σ ι ω) (k : Nat) (p : Position) : Prop :=
  ∃ j < k, (m.after j).Overwrites p

theorem field_perform {m : Machine σ ι ω} {i : Instruction} (ho : m.order = some i) :
    (m.perform i).machine.field = m.field.receive m.deposit := by
  by_cases hi : i = .put
  · subst hi
    simp only [perform, putCell, Playfield.write, deposit, ho, if_true]
    cases Position.ofCoordinates? m.stack.pop.top m.stack.top <;> rfl
  · rw [(frame_perform m i).field hi, deposit_of_ne ho hi]
    rfl

theorem field_step (m : Machine σ ι ω) : m.step.machine.field = m.field.receive m.deposit := by
  refine holds_of_step (P := fun a => a.field = _) (fun h => h) (fun ho => ?_) (fun ho _ => ?_)
    fun i ho => field_perform ho
  · rw [deposit_of_order_eq_none ho]
    rfl
  · rw [deposit_of_order_eq_none ho]
    rfl

theorem perform_onField (m : Machine σ ι ω) (field : Playfield) {i : Instruction}
    (hg : i ≠ .get) (hp : i ≠ .put) :
    (m.perform i).Agree (MovedTo field) ((m.onField field).perform i) := by
  cases i with
  | get => contradiction
  | put => contradiction
  | readInteger =>
    simp only [perform, readInteger, onField]
    split <;> exact ⟨rfl, rfl, rfl⟩
  | readCharacter =>
    simp only [perform, readCharacter, onField]
    split <;> exact ⟨rfl, rfl, rfl⟩
  | writeInteger => exact emit_onField m field _
  | writeCharacter => exact emit_onField m field _
  | _ => exact ⟨rfl, rfl, rfl⟩

theorem step_onField {m : Machine σ ι ω} {field : Playfield}
    (h : ∀ p, m.Consults p → field.get p = m.field.get p) :
    m.step.Agree (MovedTo (field.receive m.deposit)) (m.onField field).step :=
  Alike.step {
    halted := rfl
    steps := rfl
    cursor := rfl
    quoting := rfl
    fetch := fun hh => (h _ ⟨hh, .inl rfl⟩).symm
    related := fun ho => by rw [deposit_of_order_eq_none ho]; rfl
    push := fun ho v => by rw [deposit_of_order_eq_none ho]; rfl
    perform := fun i ho => by
      by_cases hp : i = .put
      · subst hp
        exact putCell_onField field ho
      · rw [deposit_of_ne ho hp]
        by_cases hg : i = .get
        · subst hg
          exact getCell_onField ho fun p hi => h p ⟨(order_eq_some_iff.mp ho).1, .inr hi⟩
        · exact perform_onField m field hg hp
    proceed := fun ha => by rw [MovedTo] at ha ⊢; rw [ha]; rfl }

theorem overwrittenBefore_succ {m : Machine σ ι ω} {k : Nat} {p : Position} :
    m.OverwrittenBefore (k + 1) p ↔ m.OverwrittenBefore k p ∨ (m.after k).Overwrites p := by
  constructor
  · rintro ⟨j, hj, ho⟩
    rcases Nat.lt_succ_iff_lt_or_eq.mp hj with hj | rfl
    · exact .inl ⟨j, hj, ho⟩
    · exact .inr ho
  · rintro (⟨j, hj, ho⟩ | ho)
    · exact ⟨j, Nat.lt_succ_of_lt hj, ho⟩
    · exact ⟨k, Nat.lt_succ_self k, ho⟩

/-- After `k` calls on either surface: the machines differ in the surface only, the cells that
were overwritten are equal, and each of the others holds the byte that it held at the start. -/
structure Parallel (m : Machine σ ι ω) (field : Playfield) (k : Nat) : Prop where
  rest : (m.onField field).after k = (m.after k).onField ((m.onField field).after k).field
  overwritten : ∀ p, m.OverwrittenBefore k p →
    ((m.onField field).after k).field.get p = (m.after k).field.get p
  untouched : ∀ p, ¬ m.OverwrittenBefore k p →
    (m.after k).field.get p = m.field.get p ∧
      ((m.onField field).after k).field.get p = field.get p

theorem parallel_zero (m : Machine σ ι ω) (field : Playfield) : m.Parallel field 0 :=
  ⟨rfl, fun _ ⟨_, hj, _⟩ => absurd hj (Nat.not_lt_zero _), fun _ _ => ⟨rfl, rfl⟩⟩

namespace Parallel

variable {m : Machine σ ι ω} {field : Playfield} {k : Nat}

theorem get_eq (h : m.Parallel field k) {p : Position}
    (hp : ¬ m.OverwrittenBefore k p → field.get p = m.field.get p) :
    ((m.onField field).after k).field.get p = (m.after k).field.get p := by
  by_cases ho : m.OverwrittenBefore k p
  · exact h.overwritten p ho
  · obtain ⟨hm, hf⟩ := h.untouched p ho
    rw [hm, hf, hp ho]

theorem agree (h : m.Parallel field k)
    (hc : ∀ p, (m.after k).Consults p → ¬ m.OverwrittenBefore k p →
      field.get p = m.field.get p) :
    (m.after k).step.Agree
      (MovedTo (((m.onField field).after k).field.receive (m.after k).deposit))
      ((m.onField field).after k).step := by
  rw [h.rest]
  exact step_onField fun p hp => h.get_eq (hc p hp)

theorem succ (h : m.Parallel field k)
    (hc : ∀ p, (m.after k).Consults p → ¬ m.OverwrittenBefore k p →
      field.get p = m.field.get p) : m.Parallel field (k + 1) := by
  have hm : (m.after (k + 1)).field = (m.after k).field.receive (m.after k).deposit := by
    rw [after_succ, field_step]
  have ha : (m.onField field).after (k + 1) = (m.after (k + 1)).onField
      (((m.onField field).after k).field.receive (m.after k).deposit) := by
    rw [after_succ, after_succ]
    exact (h.agree hc).machine
  have hf : ((m.onField field).after (k + 1)).field =
      ((m.onField field).after k).field.receive (m.after k).deposit := by
    rw [ha]
    rfl
  refine ⟨by rw [hf, ha], fun p hp => ?_, fun p hp => ?_⟩
  -- both runs put down the same byte, so a cell is made equal now or was equal before
  · rw [hf, hm]
    by_cases ho : (m.after k).Overwrites p
    · obtain ⟨b, hb⟩ := ho
      rw [Playfield.get_receive_of_mem hb, Playfield.get_receive_of_mem hb]
    · have hn : ∀ b, (m.after k).deposit ≠ some (p, b) := fun b hb => ho ⟨b, hb⟩
      rw [Playfield.get_receive_of_not_mem hn, Playfield.get_receive_of_not_mem hn]
      exact h.overwritten p ((overwrittenBefore_succ.mp hp).resolve_right ho)
  · rw [overwrittenBefore_succ, not_or] at hp
    have hn : ∀ b, (m.after k).deposit ≠ some (p, b) := fun b hb => hp.2 ⟨b, hb⟩
    rw [hf, hm, Playfield.get_receive_of_not_mem hn, Playfield.get_receive_of_not_mem hn]
    exact h.untouched p hp.1

end Parallel

theorem parallel_of_agree {m : Machine σ ι ω} {field : Playfield} {k : Nat}
    (hc : ∀ i < k, ∀ p, (m.after i).Consults p → ¬ m.OverwrittenBefore i p →
      field.get p = m.field.get p) : m.Parallel field k := by
  induction k with
  | zero => exact parallel_zero m field
  | succ k ih =>
    exact (ih fun i hi => hc i (Nat.lt_succ_of_lt hi)).succ (hc k (Nat.lt_succ_self k))

/-- Machines that differ in the surface only. -/
def ButForField (m m' : Machine σ ι ω) : Prop := m' = m.onField m'.field

/-- The first `k` calls go on the other surface as they go on the machine's own. -/
structure Shadows (m : Machine σ ι ω) (field : Playfield) (k : Nat) : Prop
    extends Parallel m field k where
  calls : ∀ i < k, (m.after i).step.Agree ButForField ((m.onField field).after i).step
  run : (m.runFor k).Agree ButForField ((m.onField field).runFor k)
  agreed : ∀ p, field.get p = m.field.get p →
    ((m.onField field).after k).field.get p = (m.after k).field.get p

theorem shadows_of_agree {m : Machine σ ι ω} {field : Playfield} {k : Nat}
    (hc : ∀ i < k, ∀ p, (m.after i).Consults p → ¬ m.OverwrittenBefore i p →
      field.get p = m.field.get p) : m.Shadows field k := by
  have hp : ∀ i ≤ k, m.Parallel field i := fun i hi =>
    parallel_of_agree fun j hj => hc j (Nat.lt_of_lt_of_le hj hi)
  have hs : ∀ i < k, (m.after i).step.Agree ButForField ((m.onField field).after i).step := by
    intro i hi
    obtain ⟨ha, hr, hm⟩ := (hp i (Nat.le_of_lt hi)).agree (hc i hi)
    refine ⟨ha, hr, ?_⟩
    rw [MovedTo] at hm
    rw [ButForField, hm]
    rfl
  refine { hp k (Nat.le_refl k) with
    calls := hs
    run := agree_runFor (fun h => ?_) (fun h => ?_) rfl hs
    agreed := fun p he => (hp k (Nat.le_refl k)).get_eq fun _ => he }
  · rw [h]
    rfl
  · rw [h]
    rfl

/-- In particular a cell that no call consults may hold anything, such as one that is only ever
jumped over. -/
theorem run_depends_on_consulted_cells (m : Machine σ ι ω) (k : Nat) :
    (∀ field, (∀ i < k, ∀ p, (m.after i).Consults p → ¬ m.OverwrittenBefore i p →
      field.get p = m.field.get p) → m.Shadows field k) ∧
    ∀ p b, (∀ i < k, ¬ (m.after i).Consults p) → m.Shadows (m.field.set p b) k := by
  refine ⟨fun field h => shadows_of_agree h, fun p b h => shadows_of_agree fun i hi q hq _ => ?_⟩
  have hn : p ≠ q := fun he => h i hi (he ▸ hq)
  rw [Playfield.get_set, if_neg hn]

/-- Puts a bridge on the second cell, jumps over the third and halts on the fourth. -/
def bridging : Machine Script :=
  { start (.ofLines ["p??@".toList.map Char.toUInt8]) (.ofBytes []) .unlimited (.ofList []) with
    stack := .ofList [35, 1, 0] }

theorem run_depends_on_consulted_cells_bridging :
    bridging.Shadows (bridging.field.set ⟨1, 0⟩ 0) 3 ∧
      bridging.Shadows (bridging.field.set ⟨2, 0⟩ 0) 3 := by
  obtain ⟨hf, hs⟩ := run_depends_on_consulted_cells bridging 3
  have hw : bridging.OverwrittenBefore 1 ⟨1, 0⟩ := ⟨0, Nat.one_pos, 35, by rfl⟩
  have hc : ∀ i < 3, (bridging.after i).Consults ⟨1, 0⟩ → i = 1 := by decide +kernel
  refine ⟨hf _ fun i hi p hp hn => ?_, hs _ _ (by decide +kernel)⟩
  have hne : (⟨1, 0⟩ : Position) ≠ p := by
    rintro rfl
    exact hn (hc i hi hp ▸ hw)
  rw [Playfield.get_set, if_neg hne]

end Machine

end Befunge
