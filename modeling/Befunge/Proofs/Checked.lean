import Befunge.Proofs.Domains
import Befunge.Proofs.Reachable

/-! A machine that checks its operations. It makes every step out of operations that have no result
outside of their domains, and loses its own result with the first of theirs. As long as its counter
is a word it never does so, and makes the steps of the machine that checks nothing. -/

namespace Befunge

open Text Text.Decimal Unsigned

/-- What a machine can be asked to do from outside. -/
inductive Call where
  | step
  | runFor (limit : Nat)
  | push (v : Int64)
  | pop
  | swap
  | duplicate
deriving DecidableEq, Repr

namespace Machine

variable {σ ι ω : Type}

def advance? (m : Machine σ ι ω) : Option (Machine σ ι ω) := do
  let cursor ← m.cursor.advance?
  some { m with cursor }

def proceed? (m : Machine σ ι ω) : Option (Machine σ ι ω) := do
  let next ← m.advance?
  let steps ← add? m.steps 1
  some { next with steps }

def operate? (op : Operator) (m : Machine σ ι ω) : Option (Reply σ Unit ι ω) := do
  let v ← op.apply? m.stack.pop.top m.stack.top
  some ((m.mapStack (·.pop.pop.push v)).done (operandRecords op m.stack))

def getCell? (m : Machine σ ι ω) : Option (Reply σ Unit ι ω) := do
  let rest := m.mapStack fun s => s.pop.pop
  match ← m.field.read? m.stack.pop.top m.stack.top with
  | .ok b => some (rest.push (ofByte b)).done
  | .error fault => some (rest.refuse fault)

def putCell? (m : Machine σ ι ω) : Option (Reply σ Unit ι ω) := do
  let rest := m.mapStack fun s => s.pop.pop.pop
  match ← m.field.write? m.stack.pop.top m.stack.top m.stack.pop.pop.top with
  | .ok field => some { rest with field }.done
  | .error fault => some (rest.refuse fault)

def integerOnLine? (line : List UInt8) : Option (Int64 × List Record) := do
  let text := Utf8.decode line
  match ← slicedWord? text with
  | some v => some (v, [])
  | none => some (0, [.integerInputMalformed (trim text)])

def readInteger? [InputSource ι] (m : Machine σ ι ω) : Option (Reply σ Unit ι ω) :=
  let taken := InputSource.takeLine m.input
  let rest := { m with input := taken.2 }
  match taken.1 with
  | .got line => do
    let (v, records) ← integerOnLine? line
    some ((rest.push v).done records)
  | .ended => some ((rest.push 0).done [.integerInputEnded])
  | .failed cause => some (rest.refuse (.io cause))

def conclude? (begun : Record) (reply : Reply σ Unit ι ω) : Option (Reply σ Unit ι ω) :=
  match reply.answer with
  | .ok () => do
    let next ← reply.machine.proceed?
    some (next.done (begun :: reply.records))
  | .error _ => some { reply with records := begun :: reply.records }

section

variable [DirectionSource σ] [InputSource ι] [OutputSink ω]

/-- An instruction that is not listed makes no use of an operation that may have no result. -/
def perform? (i : Instruction) (m : Machine σ ι ω) : Option (Reply σ Unit ι ω) :=
  match i with
  | .bridge => do
    let next ← m.advance?
    some next.done
  | .operate op => m.operate? op
  | .get => m.getCell?
  | .put => m.putCell?
  | .readInteger => m.readInteger?
  | .writeCharacter => do
    let b ← lowByte? m.stack.top
    some (m.emit [b])
  | i => some (m.perform i)

def execute? (code : UInt8) (m : Machine σ ι ω) : Option (Reply σ Unit ι ω) :=
  if m.quoting && code != Instruction.quotationMark then some (m.push (ofByte code)).done
  else
    match Instruction.decode code with
    | some i => m.perform? i
    | none =>
      some (m.refuse (.unknownInstruction code m.cursor.position.x m.cursor.position.y))

def step? (m : Machine σ ι ω) : Option (Reply σ Unit ι ω) :=
  if m.halted then some m.done
  else do
    let code ← m.field.cell? m.cursor.position.x m.cursor.position.y
    let reply ← m.execute? code
    conclude? (.stepBegun m.steps m.cursor code) reply

/-- Compares the steps made with the limit before each of them. The fuel is one more than the limit,
and the run is lost if it is not enough. -/
def runFor? (limit : Nat) (m : Machine σ ι ω) : Option (Reply σ Nat ι ω) :=
  go (limit + 1) m #[]
where
  go (fuel : Nat) (current : Machine σ ι ω) (log : Array Record) : Option (Reply σ Nat ι ω) :=
    match fuel with
    | 0 => none
    | fuel + 1 => do
      let made ← sub? current.steps m.steps
      if current.halted then
        some ⟨.ok made, current, (log.push (.halted current.steps)).toList⟩
      else if made < limit then
        match ← current.step? with
        | ⟨.ok (), next, records⟩ => go fuel next (log ++ records)
        | ⟨.error fault, next, records⟩ => some ⟨.error fault, next, (log ++ records).toList⟩
      else some ⟨.ok made, current, log.toList⟩

/-- A call that fails leaves a machine that can be called again. -/
def obey (m : Machine σ ι ω) : Call → Machine σ ι ω
  | .step => m.step.machine
  | .runFor limit => (m.runFor limit).machine
  | .push v => m.push v
  | .pop => m.mapStack (·.pop)
  | .swap => m.mapStack (·.swap)
  | .duplicate => m.mapStack (·.duplicate)

def obey? (m : Machine σ ι ω) : Call → Option (Machine σ ι ω)
  | .step => m.step?.map (·.machine)
  | .runFor limit => (m.runFor? limit).map (·.machine)
  | call => some (m.obey call)

def obeyAll (m : Machine σ ι ω) (calls : List Call) : Machine σ ι ω := calls.foldl obey m

def obeyAll? (m : Machine σ ι ω) (calls : List Call) : Option (Machine σ ι ω) :=
  calls.foldlM obey? m

end

theorem advance?_eq (m : Machine σ ι ω) : m.advance? = some m.advance := by
  rw [advance?, Cursor.advance?_eq]
  rfl

theorem proceed?_eq {m : Machine σ ι ω} (h : m.steps + 1 < 2 ^ 64) :
    m.proceed? = some m.proceed := by
  rw [proceed?, advance?_eq, add?_of_lt h]
  rfl

theorem operate?_eq (op : Operator) (m : Machine σ ι ω) :
    m.operate? op = some ((m.mapStack (·.operate op)).done (operandRecords op m.stack)) := by
  rw [operate?, Operator.apply?_eq]
  rfl

theorem getCell?_eq (m : Machine σ ι ω) : m.getCell? = some m.getCell := by
  rw [getCell?, Playfield.read?_eq, getCell]
  cases m.field.read m.stack.pop.top m.stack.top <;> rfl

theorem putCell?_eq (m : Machine σ ι ω) : m.putCell? = some m.putCell := by
  rw [putCell?, Playfield.write?_eq, putCell]
  cases m.field.write m.stack.pop.top m.stack.top m.stack.pop.pop.top <;> rfl

theorem integerOnLine?_eq (line : List UInt8) :
    integerOnLine? line = some (integerOnLine line) := by
  rw [integerOnLine?, slicedWord?_eq, integerOnLine]
  cases leadingWord? (Utf8.decode line) <;> rfl

theorem readInteger?_eq [InputSource ι] (m : Machine σ ι ω) :
    m.readInteger? = some m.readInteger := by
  rw [readInteger?, readInteger]
  cases (InputSource.takeLine m.input).1 with
  | got line =>
    dsimp only
    rw [integerOnLine?_eq]
    rfl
  | ended => rfl
  | failed cause => rfl

theorem conclude?_eq {reply : Reply σ Unit ι ω} (begun : Record)
    (h : (conclude begun reply).machine.steps < 2 ^ 64) :
    conclude? begun reply = some (conclude begun reply) := by
  obtain ⟨answer, left, records⟩ := reply
  cases answer with
  | ok =>
    have hs : left.steps + 1 < 2 ^ 64 := h
    rw [conclude?, proceed?_eq hs]
    rfl
  | error fault => rfl

/-- The ranges that nothing in a machine leaves. Its types keep them; the machine that checks its
operations computes the coordinates without them and compares. -/
structure InRange (m : Machine σ ι ω) : Prop where
  column : m.cursor.position.x.val < 80
  row : m.cursor.position.y.val < 25
  rows : m.field.rows.toList.length = 25
  cells : ∀ row ∈ m.field.rows.toList, row.toList.length = 80 ∧ ∀ b ∈ row.toList, b.toNat < 256
  values : ∀ v ∈ m.stack.values, -2 ^ 63 ≤ v.toInt ∧ v.toInt < 2 ^ 63

theorem inRange (m : Machine σ ι ω) : m.InRange where
  column := m.cursor.position.x.isLt
  row := m.cursor.position.y.isLt
  rows := Vector.length_toList
  cells _ _ := ⟨Vector.length_toList, fun b _ => b.toNat_lt⟩
  values v _ := ⟨v.le_toInt, v.toInt_lt⟩

variable [DirectionSource σ] [InputSource ι] [OutputSink ω]

theorem perform?_eq (m : Machine σ ι ω) (i : Instruction) : m.perform? i = some (m.perform i) := by
  cases i with
  | bridge =>
    rw [perform?, advance?_eq]
    rfl
  | operate op => exact operate?_eq op m
  | get => exact getCell?_eq m
  | put => exact putCell?_eq m
  | readInteger => exact readInteger?_eq m
  | writeCharacter =>
    rw [perform?, lowByte?_eq]
    rfl
  | _ => rfl

theorem execute?_eq (m : Machine σ ι ω) (code : UInt8) :
    m.execute? code = some (m.execute code) := by
  unfold execute? execute
  split
  · rfl
  · cases Instruction.decode code with
    | some i => exact perform?_eq m i
    | none => rfl

theorem step?_eq {m : Machine σ ι ω} (h : m.step.machine.steps < 2 ^ 64) :
    m.step? = some m.step := by
  cases hh : m.halted with
  | true => rw [step?, step, hh, if_pos rfl, if_pos rfl]
  | false =>
    have hs : m.step = conclude m.begun (m.execute m.fetch) := by simp [step, hh]
    have hc : m.field.cell? m.cursor.position.x m.cursor.position.y = some m.fetch :=
      Playfield.cell?_eq m.field m.cursor.position
    rw [hs] at h
    rw [step?, hh, if_neg Bool.false_ne_true, hc, Option.bind_eq_bind, Option.bind_some,
      execute?_eq, hs]
    exact conclude?_eq m.begun h

theorem steps_step_cases (m : Machine σ ι ω) :
    m.step.machine.steps = m.steps ∨ m.step.machine.steps = m.steps + 1 := by
  cases hh : m.halted with
  | true =>
    rw [step_of_halted hh]
    exact .inl rfl
  | false =>
    cases ha : m.step.answer with
    | ok => exact .inr (steps_step_of_ok hh ha)
    | error fault => exact .inl (steps_step_of_error ha)

theorem steps_le_step (m : Machine σ ι ω) : m.steps ≤ m.step.machine.steps := by
  have hs := m.steps_step_cases
  omega

theorem steps_le_after (m : Machine σ ι ω) (k : Nat) : m.steps ≤ (m.after k).steps := by
  induction k with
  | zero => exact Nat.le_refl _
  | succ k ih =>
    rw [after_succ]
    exact Nat.le_trans ih (m.after k).steps_le_step

theorem steps_le_drive (m : Machine σ ι ω) (limit : Nat) :
    m.steps ≤ (m.drive limit).machine.steps := by
  obtain ⟨k, hk⟩ := m.exists_after_drive limit
  rw [hk]
  exact m.steps_le_after k

theorem steps_le_drive_succ {m : Machine σ ι ω} (h : m.halted = false) (limit : Nat) :
    m.step.machine.steps ≤ (m.drive (limit + 1)).machine.steps := by
  cases ha : m.step.answer with
  | ok =>
    rw [drive_of_ok h ha]
    exact m.step.machine.steps_le_drive limit
  | error fault => rw [drive_of_error h ha]

/-- The fuel that is left is one more than the steps that the limit still allows. -/
theorem runFor?_go_eq {m current : Machine σ ι ω} {left limit : Nat} (log : Array Record)
    (hm : m.steps ≤ current.steps) (hl : current.steps + left = m.steps + limit)
    (h : (current.drive left).machine.steps < 2 ^ 64) :
    runFor?.go limit m (left + 1) current log = some (runFor.go m left current log) := by
  induction left generalizing current log with
  | zero =>
    have hn : ¬ current.steps - m.steps < limit := by omega
    rw [runFor?.go, sub?_of_le hm, Option.bind_eq_bind, Option.bind_some, runFor.go]
    cases current.halted with
    | true => rfl
    | false => rw [if_neg Bool.false_ne_true, if_neg hn, if_neg Bool.false_ne_true]
  | succ left ih =>
    rw [runFor?.go, sub?_of_le hm, Option.bind_eq_bind, Option.bind_some, runFor.go]
    cases hh : current.halted with
    | true => rfl
    | false =>
      have hn : current.steps - m.steps < limit := by omega
      have hs : current.step.machine.steps < 2 ^ 64 :=
        Nat.lt_of_le_of_lt (steps_le_drive_succ hh left) h
      rw [if_neg Bool.false_ne_true, if_pos hn, if_neg Bool.false_ne_true, step?_eq hs]
      rcases he : current.step with ⟨answer, next, records⟩
      cases answer with
      | ok =>
        have ha : current.step.answer = .ok () := by rw [he]
        have hc := steps_step_of_ok hh ha
        rw [drive_of_ok hh ha] at h
        rw [he] at hc h
        dsimp only at hc
        exact ih _ (by omega) (by omega) h
      | error fault => rfl

theorem runFor?_eq {m : Machine σ ι ω} {limit : Nat} (h : (m.runFor limit).machine.steps < 2 ^ 64) :
    m.runFor? limit = some (m.runFor limit) := by
  rw [runFor_eq_drive] at h
  exact runFor?_go_eq #[] (Nat.le_refl _) rfl h

theorem steps_le_obey (m : Machine σ ι ω) (call : Call) : m.steps ≤ (m.obey call).steps := by
  cases call with
  | step => exact m.steps_le_step
  | runFor limit =>
    rw [obey, runFor_eq_drive]
    exact m.steps_le_drive limit
  | _ => exact Nat.le_refl _

theorem steps_le_obeyAll (m : Machine σ ι ω) (calls : List Call) :
    m.steps ≤ (m.obeyAll calls).steps := by
  induction calls generalizing m with
  | nil => exact Nat.le_refl _
  | cons call calls ih => exact Nat.le_trans (m.steps_le_obey call) (ih (m.obey call))

theorem obey?_eq {m : Machine σ ι ω} {call : Call} (h : (m.obey call).steps < 2 ^ 64) :
    m.obey? call = some (m.obey call) := by
  cases call with
  | step =>
    rw [obey?, step?_eq h]
    rfl
  | runFor limit =>
    rw [obey?, runFor?_eq h]
    rfl
  | _ => rfl

theorem obeyAll?_eq {m : Machine σ ι ω} {calls : List Call}
    (h : (m.obeyAll calls).steps < 2 ^ 64) : m.obeyAll? calls = some (m.obeyAll calls) := by
  induction calls generalizing m with
  | nil => rfl
  | cons call calls ih =>
    have hc : (m.obey call).steps < 2 ^ 64 :=
      Nat.lt_of_le_of_lt ((m.obey call).steps_le_obeyAll calls) h
    rw [obeyAll?, List.foldlM_cons, obey?_eq hc]
    exact ih h

/-- No operation of a call is outside of its domain, unless the counter of steps would overflow. -/
structure Defined (m : Machine σ ι ω) : Prop where
  step : m.steps < 2 ^ 64 - 1 → m.step? = some m.step
  runFor : ∀ limit, (m.runFor limit).machine.steps < 2 ^ 64 →
    m.runFor? limit = some (m.runFor limit)

theorem defined (m : Machine σ ι ω) : m.Defined where
  step h := by
    have hs := m.steps_step_cases
    exact step?_eq (by omega)
  runFor _ h := runFor?_eq h

theorem calls_stay_in_domain (field : Playfield) (input : ι) (output : ω) (directions : σ)
    (calls : List Call) :
    ((start field input output directions).obeyAll calls).InRange ∧
    ((start field input output directions).obeyAll calls).Defined ∧
    (((start field input output directions).obeyAll calls).steps < 2 ^ 64 →
      (start field input output directions).obeyAll? calls =
        some ((start field input output directions).obeyAll calls)) ∧
    ∀ line, integerOnLine? line = some (integerOnLine line) :=
  ⟨inRange _, defined _, obeyAll?_eq, integerOnLine?_eq⟩

/-- Leaves over the left edge; on its way back it divides, reads a line that is no text and writes
what it has read. -/
def leftward : Machine Script :=
  start (.ofLines ["<,&/".toList.map Char.toUInt8])
    (.ofBytes (" +7".toList.map Char.toUInt8 ++ [0xff, 0x0a])) .unlimited (.ofList [])

/-- Has the one quotient that does not fit computed. -/
def lap : List Call := [.push Int64.minValue, .push (-1), .runFor 80]

theorem calls_stay_in_domain_leftward :
    (leftward.obeyAll lap).steps < 2 ^ 64 ∧
    leftward.obeyAll? lap = some (leftward.obeyAll lap) ∧
    (leftward.obeyAll lap).step? = some (leftward.obeyAll lap).step ∧
    (leftward.obeyAll lap).cursor = ⟨.origin, .left⟩ ∧
    (leftward.obeyAll lap).stack.toList = [Int64.minValue] ∧
    (leftward.obeyAll lap).output.written = #[7] := by
  obtain ⟨-, hd, hc, -⟩ := calls_stay_in_domain (.ofLines ["<,&/".toList.map Char.toUInt8])
    (Input.ofBytes (" +7".toList.map Char.toUInt8 ++ [0xff, 0x0a])) Output.unlimited
    (Script.ofList []) lap
  have hs : (leftward.obeyAll lap).steps < 2 ^ 64 - 1 := by decide +kernel
  have hl : (leftward.obeyAll lap).steps < 2 ^ 64 := Nat.lt_of_lt_of_le hs (Nat.sub_le _ _)
  exact ⟨hl, hc hl, hd.step hs, by decide +kernel, by decide +kernel, by decide +kernel⟩

end Machine

end Befunge
