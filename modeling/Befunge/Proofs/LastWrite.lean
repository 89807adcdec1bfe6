import Befunge.Proofs.Footprint
import Befunge.Proofs.Words

/-! The playing surface as a memory. Whatever a run fetches from a cell, reads from it or leaves on
it is what was last written there, from outside or by the program itself. -/

namespace Befunge

theorem Position.ofCoordinates?_eq_some_iff {x y : Int64} {p : Position} :
    ofCoordinates? x y = some p ↔ x.toInt = p.x.val ∧ y.toInt = p.y.val := by
  obtain ⟨⟨px, hx⟩, ⟨py, hy⟩⟩ := p
  unfold ofCoordinates?
  split
  · simp only [Option.some.injEq, Position.mk.injEq, Fin.mk.injEq]
    omega
  · simp only [reduceCtorEq, false_iff]
    omega

/-- A value for the cell with the given coordinates. -/
structure Write where
  x : Int64
  y : Int64
  value : Int64
deriving DecidableEq, Repr

def Write.Hits (w : Write) (p : Position) : Prop :=
  w.x.toInt = p.x.val ∧ w.y.toInt = p.y.val

instance (w : Write) (p : Position) : Decidable (w.Hits p) := inferInstanceAs (Decidable (_ ∧ _))

namespace Playfield

def lastWritten (writes : List Write) (p : Position) : Option Int64 :=
  (writes.reverse.find? fun w => w.Hits p).map Write.value

/-- What the cell ought to hold after the writes: the low eight bits of the value that was last
written to it, or the byte that was loaded. -/
def remembered (loaded : Playfield) (writes : List Write) (p : Position) : Int :=
  match lastWritten writes p with
  | some v => v.toInt % 256
  | none => (loaded.get p).toNat

theorem remembered_append (loaded : Playfield) (writes : List Write) (w : Write) (p : Position) :
    loaded.remembered (writes ++ [w]) p =
      if w.Hits p then w.value.toInt % 256 else loaded.remembered writes p := by
  by_cases h : w.Hits p <;> simp [remembered, lastWritten, h]

/-- Every cell holds what it ought to hold after the writes. -/
def Remembers (loaded : Playfield) (writes : List Write) (field : Playfield) : Prop :=
  ∀ p, ((field.get p).toNat : Int) = loaded.remembered writes p

theorem remembers_loaded (loaded : Playfield) : loaded.Remembers [] loaded := fun _ => rfl

/-- A write that is not rejected goes to the cell that it hits, and to no other. -/
theorem Remembers.write {loaded field field' : Playfield} {writes : List Write} {w : Write}
    (h : loaded.Remembers writes field) (hw : field.write w.x w.y w.value = .ok field') :
    loaded.Remembers (writes ++ [w]) field' := by
  intro q
  cases hp : Position.ofCoordinates? w.x w.y with
  | none =>
    simp only [Playfield.write, hp] at hw
    contradiction
  | some p =>
    have hf : field.set p (lowByte w.value) = field' := by
      simpa only [Playfield.write, hp, Except.ok.injEq] using hw
    have hq : p = q ↔ w.Hits q := by
      rw [Write.Hits, ← Position.ofCoordinates?_eq_some_iff, hp, Option.some.injEq]
    rw [remembered_append, ← hf, get_set]
    by_cases he : p = q
    · rw [if_pos he, if_pos (hq.mp he), toNat_lowByte]
    · rw [if_neg he, if_neg fun hn => he (hq.mpr hn), h]

end Playfield

namespace Machine

variable {σ ι ω : Type}

/-- What is done to a machine: its surface is written to from outside, or it is told to step. -/
inductive Act where
  | poke (w : Write)
  | step

/-- A write that is rejected changes nothing. -/
def poke (w : Write) (m : Machine σ ι ω) : Machine σ ι ω :=
  match m.field.write w.x w.y w.value with
  | .ok field => { m with field }
  | .error _ => m

/-- The write that the next step asks for. -/
def request (m : Machine σ ι ω) : Option Write :=
  if m.order = some .put then some ⟨m.stack.pop.top, m.stack.top, m.stack.pop.pop.top⟩ else none

theorem order_of_request {m : Machine σ ι ω} {w : Write} (h : m.request = some w) :
    m.order = some .put ∧ w = ⟨m.stack.pop.top, m.stack.top, m.stack.pop.pop.top⟩ := by
  unfold request at h
  split at h
  next ho => exact ⟨ho, (Option.some.inj h).symm⟩
  next => contradiction

theorem order_ne_of_request {m : Machine σ ι ω} (h : m.request = none) :
    m.order ≠ some .put := by
  intro ho
  rw [request, if_pos ho] at h
  contradiction

def asked (a : Act) (m : Machine σ ι ω) : Option Write :=
  match a with
  | .poke w => some w
  | .step => m.request

variable [DirectionSource σ] [InputSource ι] [OutputSink ω]

def act (a : Act) (m : Machine σ ι ω) : Machine σ ι ω :=
  match a with
  | .poke w => m.poke w
  | .step => m.step.machine

def answered (a : Act) (m : Machine σ ι ω) : Except Fault Unit :=
  match a with
  | .poke w => (m.field.write w.x w.y w.value).map fun _ => ()
  | .step => m.step.answer

/-- The write that is asked for, if the answer is that it has succeeded. -/
def written (a : Act) (m : Machine σ ι ω) : Option Write :=
  match m.answered a with
  | .ok () => m.asked a
  | .error _ => none

def acted : List Act → Machine σ ι ω → Machine σ ι ω
  | [], m => m
  | a :: acts, m => (m.act a).acted acts

/-- The writes that succeed one after the other. -/
def history : List Act → Machine σ ι ω → List Write
  | [], _ => []
  | a :: acts, m => (m.written a).toList ++ (m.act a).history acts

theorem field_act_of_asked_eq_none {m : Machine σ ι ω} {a : Act} (h : m.asked a = none) :
    (m.act a).field = m.field := by
  cases a with
  | poke w => contradiction
  | step =>
    rw [act, field_step, deposit, if_neg (order_ne_of_request h)]
    rfl

theorem act_of_asked {m : Machine σ ι ω} {a : Act} {w : Write} (h : m.asked a = some w) :
    m.answered a = (m.field.write w.x w.y w.value).map (fun _ => ()) ∧
      (m.act a).field = (m.poke w).field := by
  cases a with
  | poke w' =>
    obtain rfl : w' = w := Option.some.inj h
    exact ⟨rfl, rfl⟩
  | step =>
    obtain ⟨ho, rfl⟩ := order_of_request h
    rw [answered, act, step_of_order ho, answer_conclude, observe_conclude (·.field) fun _ => rfl]
    simp only [perform, putCell, poke]
    cases m.field.write m.stack.pop.top m.stack.top m.stack.pop.pop.top <;> exact ⟨rfl, rfl⟩

theorem field_act_of_error {m : Machine σ ι ω} {a : Act} {fault : Fault}
    (h : m.answered a = .error fault) : (m.act a).field = m.field := by
  cases hr : m.asked a with
  | none => exact field_act_of_asked_eq_none hr
  | some w =>
    obtain ⟨ha, hf⟩ := act_of_asked hr
    rw [hf, poke]
    cases hw : m.field.write w.x w.y w.value with
    | ok field =>
      rw [ha, hw] at h
      contradiction
    | error fault' => rfl

theorem remembers_act {loaded : Playfield} {writes : List Write} {m : Machine σ ι ω}
    (h : loaded.Remembers writes m.field) (a : Act) :
    loaded.Remembers (writes ++ (m.written a).toList) (m.act a).field := by
  cases ha : m.answered a with
  | error fault =>
    rw [field_act_of_error ha]
    simpa [written, ha] using h
  | ok =>
    cases hr : m.asked a with
    | none =>
      rw [field_act_of_asked_eq_none hr]
      simpa [written, ha, hr] using h
    | some w =>
      obtain ⟨hs, hf⟩ := act_of_asked hr
      cases hw : m.field.write w.x w.y w.value with
      | ok field => simpa [written, ha, hr, hf, poke, hw] using h.write hw
      | error fault =>
        rw [hs, hw] at ha
        contradiction

theorem remembers_acted {loaded : Playfield} {writes : List Write} {m : Machine σ ι ω}
    (h : loaded.Remembers writes m.field) (acts : List Act) :
    loaded.Remembers (writes ++ m.history acts) (m.acted acts).field := by
  induction acts generalizing writes m with
  | nil => simpa [history, acted] using h
  | cons a acts ih =>
    rw [history, ← List.append_assoc]
    exact ih (remembers_act h a)

theorem stack_step_of_get {m : Machine σ ι ω} (ho : m.order = some .get)
    (ha : m.step.answer = .ok ()) :
    ∃ p, Position.ofCoordinates? m.stack.pop.top m.stack.top = some p ∧
      m.step.machine.stack = m.stack.pop.pop.push (ofByte (m.field.get p)) := by
  rw [step_of_order ho, answer_conclude] at ha
  rw [step_of_order ho, observe_conclude (·.stack) fun _ => rfl]
  simp only [perform, getCell, Playfield.read] at ha ⊢
  cases hp : Position.ofCoordinates? m.stack.pop.top m.stack.top with
  | none =>
    rw [hp] at ha
    contradiction
  | some p => exact ⟨p, rfl, rfl⟩

theorem last_write_wins (m : Machine σ ι ω) (acts : List Act) :
    ((m.acted acts).fetch.toNat : Int) =
      m.field.remembered (m.history acts) (m.acted acts).cursor.position ∧
    ((m.acted acts).order = some .get → (m.acted acts).step.answer = .ok () →
      ∃ p v, (m.acted acts).stack.pop.top.toInt = p.x.val ∧
        (m.acted acts).stack.top.toInt = p.y.val ∧
        (m.acted acts).step.machine.stack = (m.acted acts).stack.pop.pop.push v ∧
        v.toInt = m.field.remembered (m.history acts) p) ∧
    (∀ x y p, x.toInt = p.x.val → y.toInt = p.y.val →
      ∃ b, (m.acted acts).field.read x y = .ok b ∧
        (b.toNat : Int) = m.field.remembered (m.history acts) p) ∧
    ∀ a fault, (m.acted acts).answered a = .error fault →
      ((m.acted acts).act a).field = (m.acted acts).field := by
  have h : m.field.Remembers (m.history acts) (m.acted acts).field :=
    remembers_acted (Playfield.remembers_loaded m.field) acts
  refine ⟨h _, fun ho ha => ?_, fun x y p hx hy => ?_, fun a fault => field_act_of_error⟩
  · obtain ⟨p, hp, hs⟩ := stack_step_of_get ho ha
    obtain ⟨hx, hy⟩ := Position.ofCoordinates?_eq_some_iff.mp hp
    exact ⟨p, _, hx, hy, hs, (toInt_ofByte _).trans (h p)⟩
  · have hp := Position.ofCoordinates?_eq_some_iff.mpr ⟨hx, hy⟩
    refine ⟨(m.acted acts).field.get p, ?_, h p⟩
    rw [Playfield.read, hp]

/-- Writes to a cell that has been written to from outside, and reads it. -/
def recalling : Machine Script :=
  { start (.ofLines ["pg@".toList.map Char.toUInt8]) (.ofBytes []) .unlimited (.ofList []) with
    stack := .ofList [5, 1, -2, 5, 1] }

def recalled : List Act := [.poke ⟨5, 1, 300⟩, .poke ⟨80, 0, 7⟩, .step]

theorem last_write_wins_recalling :
    recalling.history recalled = [⟨5, 1, 300⟩, ⟨5, 1, -2⟩] ∧
    ∃ v, (recalling.acted recalled).step.machine.stack.toList = [v] ∧ v.toInt = 254 := by
  have hh : recalling.history recalled = [⟨5, 1, 300⟩, ⟨5, 1, -2⟩] := by decide +kernel
  have ho : (recalling.acted recalled).order = some .get := by decide +kernel
  have hr : recalling.field.remembered (recalling.history recalled) ⟨5, 1⟩ = 254 := by
    rw [hh]
    decide +kernel
  obtain ⟨-, hg, -⟩ := last_write_wins recalling recalled
  obtain ⟨p, v, hx, hy, hs, hv⟩ := hg ho rfl
  have hp : p = ⟨5, 1⟩ :=
    Option.some.inj ((Position.ofCoordinates?_eq_some_iff.mpr ⟨hx, hy⟩).symm.trans rfl)
  rw [hp, hr] at hv
  rw [hs]
  exact ⟨hh, v, rfl, hv⟩

end Machine

end Befunge
