import Befunge.Proofs.OutputCapacity
import Befunge.Proofs.InputCausality
import Befunge.Proofs.Outcomes
import Befunge.Proofs.Transcript

/-! A terminal kept in memory, and the session at it. In whatever pieces the input arrives, and
however often the machine waits for it, the session comes to the outcome of the request. -/

namespace Befunge

/-- What becomes of bytes that a terminal with this sink passes on. -/
def OutputSink.pass {ω : Type} [OutputSink ω] (bytes : List UInt8) (o : ω) :
    Except String Unit × ω :=
  if bytes.isEmpty then (.ok (), o) else deliver bytes o

namespace Machine

variable {σ ι ω : Type}

theorem outgoing_ne_nil {m : Machine σ ι ω} (h : m.Writes) : m.outgoing ≠ [] := by
  rcases h with ho | ho
  · obtain ⟨-, hf⟩ := fetch_of_order ho (by decide)
    rw [outgoing_of_writeInteger hf, numeral]
    exact List.append_ne_nil_of_right_ne_nil _ (List.cons_ne_nil _ _)
  · obtain ⟨-, hf⟩ := fetch_of_order ho (by decide)
    rw [outgoing_of_writeCharacter hf]
    exact List.cons_ne_nil _ _

section

variable [DirectionSource σ] [InputSource ι] [OutputSink ω] {m : Machine σ ι}

theorem written_step_of_writes (hm : m.output = .unlimited) (hw : m.Writes) :
    m.step.machine.output.written.toList = m.outgoing := by
  rw [output_step_of_writes hw, hm, Output.deliver_of_free ⟨rfl, rfl⟩]
  simp [Output.appended, Output.unlimited]

/-- A step on any sink is a step on an output of its own, from which the bytes are passed on. -/
theorem step_onOutput {o output : ω} {answer : Except String Unit} (hm : m.output = .unlimited)
    (h : OutputSink.pass m.step.machine.output.written.toList o = (answer, output)) :
    (answer = .ok () → m.step.Agree (fun a b => b = a.onOutput output) (m.onOutput o).step) ∧
    ∀ cause, answer = .error cause → (m.onOutput o).step.answer = .error (.io cause) ∧
      (m.onOutput o).step.machine.output = output := by
  by_cases hw : m.Writes
  · have he : (m.onOutput o).step = conclude m.begun ((m.onOutput o).emit m.outgoing) :=
      step_of_writes (m := m.onOutput o) hw
    have hf : m.output.Free := by
      rw [hm]
      exact ⟨rfl, rfl⟩
    have hd : OutputSink.deliver m.outgoing o = (answer, output) := by
      rw [← h, written_step_of_writes hm hw, OutputSink.pass]
      exact (if_neg (by simpa using outgoing_ne_nil hw)).symm
    rw [step_of_writes hw, he]
    refine ⟨fun ha => agree_conclude _ ?_ fun hr => by rw [hr]; rfl, fun cause ha => ?_⟩
    · simp only [emit, onOutput, Output.deliver_of_free hf, hd, ha]
      exact ⟨rfl, rfl, rfl⟩
    · have hc : ((m.onOutput o).emit m.outgoing).answer = .error (.io cause) :=
        answer_emit_eq_error_iff.mpr ⟨cause, rfl, (congrArg Prod.fst hd).trans ha⟩
      rw [answer_conclude, machine_conclude_of_error _ hc, machine_emit]
      exact ⟨hc, congrArg Prod.snd hd⟩
  · rw [output_step_of_silent hw, hm] at h
    cases h
    exact ⟨fun _ => step_onOutput_of_silent o hw, fun _ ha => by contradiction⟩

theorem records_perform_of_error {m : Machine σ ι ω} {i : Instruction} {fault : Fault}
    (h : (m.perform i).answer = .error fault) : (m.perform i).records = [] := by
  cases i with
  | readInteger =>
    obtain ⟨cause, -, hr⟩ := readInteger_eq_error_iff.mp h
    rw [perform, records_readInteger, hr]
  | readCharacter =>
    obtain ⟨cause, -, hr⟩ := readCharacter_eq_error_iff.mp h
    rw [perform, records_readCharacter, hr]
  | get => exact records_getCell m
  | put => exact records_putCell m
  | writeInteger | writeCharacter => exact records_emit m _
  | _ => contradiction

/-- A step that fails has nothing to remark on. -/
theorem records_step_of_error {m : Machine σ ι ω} {fault : Fault}
    (h : m.step.answer = .error fault) : m.step.records = [m.begun] := by
  rcases m.step_cases with ⟨-, he⟩ | ⟨-, -, he⟩ | ⟨i, -, he⟩ | ⟨-, -, -, he⟩
  · rw [he] at h
    contradiction
  · rw [he] at h
    contradiction
  · rw [he, answer_conclude] at h
    rw [he, records_conclude, records_perform_of_error h]
  · rw [he, records_conclude]
    rfl

end

theorem failure_step [DirectionSource σ] [OutputSink ω] (m : Machine σ Input ω) :
    m.step.machine.input.failure = m.input.failure := by
  rcases m.input_step with h | h | h
  · rw [h]
  · rw [h]
    simp only [InputSource.takeLine, Input.takeLine]
    split <;> rfl
  · rw [h]
    simp only [InputSource.takeByte, Input.takeByte]
    split <;> rfl

end Machine

namespace CommandLine

open Machine

/-- What a terminal in memory has still to give, and what it has got. -/
structure Console where
  contents : String → Except String (List UInt8)
  /-- The pieces in which the input arrives; none of them is empty. -/
  pieces : List (UInt8 × List UInt8)
  /-- Why receiving fails after the last piece; without a cause the input simply ends. -/
  failure : Option String
  output : Output
  complaints : String

namespace Console

def terminal : Terminal (StateM Console) where
  contents path := fun c => (c.contents path, c)
  receive := fun c =>
    match c.pieces, c.failure with
    | (b, bytes) :: pieces, _ => (.ok (b :: bytes), { c with pieces })
    | [], none => (.ok [], c)
    | [], some cause => (.error cause, c)
  send bytes := fun c =>
    let sent := OutputSink.deliver bytes c.output
    (sent.1, { c with output := sent.2 })
  complain text := fun c => ((), { c with complaints := c.complaints ++ text })

def pending (c : Console) : List UInt8 := c.pieces.flatMap fun (b, bytes) => b :: bytes

def complaining (text : String) (c : Console) : Console :=
  { c with complaints := c.complaints ++ text }

variable {σ : Type}

/-- The machine with all its input. -/
def fed (c : Console) (m : Machine σ) : Machine σ :=
  m.onInput ⟨m.input.pending ++ c.pending, c.failure⟩

/-- The machine with all its input, and with the output that the console has. -/
def complete (c : Console) (m : Machine σ) : Machine σ := (c.fed m).onOutput c.output

/-- A machine to which input is handed and from which output is taken away. -/
structure Served (m : Machine σ) : Prop where
  failure : m.input.failure = none
  output : m.output = .unlimited

theorem pass_terminal (bytes : List UInt8) (c : Console) :
    terminal.pass bytes c =
      ((OutputSink.pass bytes c.output).1,
        { c with output := (OutputSink.pass bytes c.output).2 }) := by
  cases bytes <;> rfl

theorem conclude_terminal (m : Machine σ) (answer : Except Fault Unit) (c : Console) :
    terminal.conclude m answer c =
      (.exited (Request.verdict ⟨answer, m, []⟩).1,
        c.complaining (Request.verdict ⟨answer, m, []⟩).2) := rfl

theorem logText_begun (r : Request) (m : Machine σ) : r.logText [m.begun] = "" := by
  refine Request.logText_eq_empty ?_
  cases hv : r.verbose <;> simp [Record.reaches, Request.threshold, hv, begun, Record.level,
    Level.severity]

variable [DirectionSource σ]

/-- The session has exited with what the run of the request comes to. -/
def Ended (r : Request) (c : Console) (whole : Machine σ) (status : Nat) (next : Console) : Prop :=
  ∃ reply, r.ComesTo whole reply ∧ (Request.verdict reply).1 = status ∧
    next.output = reply.machine.output ∧
    next.complaints = c.complaints ++ (r.logText reply.records ++ (Request.verdict reply).2)

/-- What a turn of the session at the console does for the machine that it completes. -/
inductive Turns (r : Request) (c : Console) (whole : Machine σ) : Stage σ × Console → Prop where
  | waited {m : Machine σ} {next : Console} (hm : Served m) (hw : next.complete m = whole)
      (hp : next.pieces.length < c.pieces.length) (hc : next.complaints = c.complaints) :
      Turns r c whole (.working r m, next)
  | stepped {m : Machine σ} {next : Console} (hs : r.stops whole = false)
      (ha : whole.step.answer = .ok ()) (hm : Served m)
      (hw : next.complete m = whole.step.machine)
      (hc : next.complaints = c.complaints ++ r.logText whole.step.records) :
      Turns r c whole (.working r m, next)
  | ended {status : Nat} {next : Console} (h : Ended r c whole status next) :
      Turns r c whole (.exited status, next)

variable {r : Request} {c : Console} {m : Machine σ}

theorem turns_failed {fault : Fault} {next : Console} (hs : r.stops (c.complete m) = false)
    (ha : (c.complete m).step.answer = .error fault)
    (ho : next.output = (c.complete m).step.machine.output)
    (hc : next.complaints = c.complaints ++ ("\nerror: " ++ fault.message ++ "\n")) :
    Turns r c (c.complete m) (.exited 1, next) := by
  have hv : Request.verdict (c.complete m).step = (1, "\nerror: " ++ fault.message ++ "\n") := by
    rw [Request.verdict, ha]
  refine .ended ⟨_, .failed hs ha, congrArg Prod.fst hv, ho, ?_⟩
  rw [records_step_of_error ha, logText_begun, String.empty_append, hv, hc]

/-- A step that needs no more than the machine has, or more than there is. -/
theorem step_fed (hm : Served m) (he : ¬ m.ReachesEnd ∨ c.pieces = [] ∧ c.failure = none) :
    m.step.Agree (fun a b => b = c.fed a) (c.fed m).step := by
  rcases he with he | ⟨hp, hf⟩
  · have hs := step_of_ahead ⟨_, Input.delivers m.input.pending c.pending c.failure, rfl⟩ he
    obtain ⟨source, hd, hr⟩ := hs.machine
    rw [Input.eq_of_delivers hd] at hr
    exact ⟨hs.answer, hs.records, hr⟩
  · have hi (a : Machine σ) (ha : a.input.failure = none) : c.fed a = a := by
      rw [fed, pending, hp, hf, List.flatMap_nil, List.append_nil, ← ha]
      rfl
    rw [hi m hm.failure]
    exact ⟨rfl, rfl, (hi _ ((failure_step m).trans hm.failure)).symm⟩

/-- The whole machine makes the step that the served one makes, unless its sink fails. -/
theorem step_complete {answer : Except String Unit} {output : Output} (hm : Served m)
    (he : ¬ m.ReachesEnd ∨ c.pieces = [] ∧ c.failure = none)
    (h : OutputSink.pass m.step.machine.output.written.toList c.output = (answer, output)) :
    (answer = .ok () →
      m.step.Agree (fun a b => b = { c with output }.complete a) (c.complete m).step) ∧
    ∀ cause, answer = .error cause → (c.complete m).step.answer = .error (.io cause) ∧
      (c.complete m).step.machine.output = output := by
  have hi := step_fed hm he
  have ho : (c.fed m).output = .unlimited := hm.output
  have hb : OutputSink.pass (c.fed m).step.machine.output.written.toList c.output =
      (answer, output) := by
    rw [hi.machine]
    exact h
  obtain ⟨hok, herr⟩ := step_onOutput ho hb
  refine ⟨fun ha => ?_, herr⟩
  have hs := hok ha
  exact ⟨hi.answer.trans hs.answer, hi.records.trans hs.records,
    hs.machine.trans (congrArg (onOutput output) hi.machine)⟩

theorem advance_terminal (r : Request) (c : Console) (m : Machine σ) :
    r.advance terminal m c =
      match OutputSink.pass m.step.machine.output.written.toList c.output, m.step.answer with
      | (.error cause, output), _ => terminal.conclude m (.error (.io cause)) { c with output }
      | (.ok (), output), .error fault =>
        terminal.conclude m (.error fault)
          ({ c with output }.complaining (r.logText m.step.records))
      | (.ok (), output), .ok () =>
        (.working r { m.step.machine with output := .unlimited },
          { c with output }.complaining (r.logText m.step.records)) := by
  simp only [Request.advance, bind, StateT.bind, pass_terminal]
  rcases OutputSink.pass m.step.machine.output.written.toList c.output with ⟨answer, output⟩
  cases answer with
  | error cause => rfl
  | ok => cases m.step.answer <;> rfl

theorem turns_advance (hm : Served m) (hs : r.stops m = false)
    (he : ¬ m.ReachesEnd ∨ c.pieces = [] ∧ c.failure = none) :
    Turns r c (c.complete m) (r.advance terminal m c) := by
  rcases hp : OutputSink.pass m.step.machine.output.written.toList c.output with ⟨answer, output⟩
  obtain ⟨hok, herr⟩ := step_complete hm he hp
  rw [advance_terminal, hp]
  cases answer with
  | error cause =>
    obtain ⟨ha, ho⟩ := herr cause rfl
    exact turns_failed hs ha ho.symm rfl
  | ok =>
    obtain ⟨ha, hr, hl⟩ := hok rfl
    cases hc : m.step.answer with
    | error fault =>
      dsimp only
      rw [conclude_terminal, records_step_of_error hc, logText_begun]
      refine turns_failed hs (ha.symm.trans hc) (congrArg Machine.output hl).symm ?_
      simp [complaining, Request.verdict]
    | ok =>
      refine .stepped hs (ha.symm.trans hc) ⟨(failure_step m).trans hm.failure, rfl⟩ hl.symm ?_
      rw [← hr]
      rfl

theorem turns_turn (hm : Served m) : Turns r c (c.complete m) (r.turn terminal m c) := by
  cases hs : r.stops m with
  | true =>
    have ht : r.turn terminal m c = terminal.conclude m (.ok ())
        (c.complaining (r.logText (if m.halted then [.halted m.steps] else []))) := by
      simp only [Request.turn, hs, if_true]
      rfl
    rw [ht, conclude_terminal]
    exact .ended ⟨_, .stopped (m := c.complete m) hs, rfl, rfl, String.append_assoc⟩
  | false =>
    cases hw : m.awaitsInput with
    | false =>
      have ht : r.turn terminal m c = r.advance terminal m c := by
        simp [Request.turn, hs, hw]
      rw [ht]
      exact turns_advance hm hs (.inl fun he => by
        rw [(awaitsInput_iff m).mpr he] at hw
        contradiction)
    | true =>
      have he := (awaitsInput_iff m).mp hw
      rcases hp : c.pieces with _ | ⟨⟨b, bytes⟩, pieces⟩
      · cases hf : c.failure with
        | none =>
          have ht : r.turn terminal m c = r.advance terminal m c := by
            simp [Request.turn, hs, hw, bind, StateT.bind, terminal, hp, hf]
          rw [ht]
          exact turns_advance hm hs (.inr ⟨hp, hf⟩)
        | some cause =>
          have ht : r.turn terminal m c = terminal.conclude m (.error (.io cause)) c := by
            simp [Request.turn, hs, hw, bind, StateT.bind, terminal, hp, hf]
          have hb : InputSource.Broken (⟨c.pending, c.failure⟩ : Input) cause := by
            rw [pending, hp, hf]
            exact ⟨rfl, rfl⟩
          obtain ⟨ha, lost, hl⟩ := step_of_broken (m := m.onOutput c.output)
            ⟨_, Input.delivers m.input.pending c.pending c.failure, rfl⟩ he hb
          rw [ht, conclude_terminal]
          exact turns_failed hs ha (congrArg Machine.output hl).symm rfl
      · have ht : r.turn terminal m c = (.working r
            { m with input.pending := m.input.pending ++ b :: bytes }, { c with pieces }) := by
          simp [Request.turn, hs, hw, bind, StateT.bind, terminal, hp]
          rfl
        rw [ht]
        refine .waited ⟨hm.failure, hm.output⟩ ?_ ?_ rfl
        · simp [complete, fed, pending, hp, onInput]
        · simp [hp]

theorem Ended.stepped {whole : Machine σ} {status : Nat} {next last : Console}
    (hs : r.stops whole = false) (ha : whole.step.answer = .ok ())
    (hc : next.complaints = c.complaints ++ r.logText whole.step.records)
    (h : Ended r next whole.step.machine status last) : Ended r c whole status last := by
  obtain ⟨reply, hr, hv, ho, hl⟩ := h
  refine ⟨_, .step hs ha hr, hv, ho, ?_⟩
  rw [hl, hc, Request.logText_append, String.append_assoc, String.append_assoc]
  rfl

theorem attend_succ (n : Nat) (r : Request) (m : Machine σ) (c : Console) :
    terminal.attend (n + 1) (.working r m) c =
      terminal.attend n (r.turn terminal m c).1 (r.turn terminal m c).2 := rfl

theorem attend_exited (n status : Nat) (c : Console) :
    terminal.attend n (Stage.exited (σ := σ) status) c = (.exited status, c) := by
  cases n <;> rfl

theorem attend_add (n k : Nat) (stage : Stage σ) (c : Console) :
    terminal.attend (n + k) stage c =
      terminal.attend k (terminal.attend n stage c).1 (terminal.attend n stage c).2 := by
  induction n generalizing stage c with
  | zero => rw [Nat.zero_add]; rfl
  | succ n ih =>
    cases stage with
    | working r m => rw [Nat.succ_add, attend_succ, attend_succ, ih]
    | exited status => rw [attend_exited, attend_exited, attend_exited]

/-- A session that has exited has come to what the run of the request comes to. -/
theorem ended_of_attend {n status : Nat} {last : Console} (hm : Served m)
    (h : terminal.attend n (.working r m) c = (.exited status, last)) :
    Ended r c (c.complete m) status last := by
  induction n generalizing m c with
  | zero => cases h
  | succ n ih =>
    rw [attend_succ] at h
    have ht := turns_turn (r := r) (c := c) hm
    generalize r.turn terminal m c = turned at h ht
    cases ht with
    | waited hn hw _ hc =>
      have hl := ih hn h
      rwa [hw, Ended, hc] at hl
    | stepped hs ha hn hw hc =>
      have hl := ih hn h
      rw [hw] at hl
      exact hl.stepped hs ha hc
    | ended he =>
      rw [attend_exited] at h
      cases h
      exact he

/-- The machine waits for no more pieces than there are, and then makes its step. -/
theorem exists_attend_step (hm : Served m) :
    ∃ n, (∃ status last, terminal.attend n (.working r m) c = (.exited status, last)) ∨
      ∃ next m', terminal.attend n (.working r m) c = (.working r m', next) ∧ Served m' ∧
        r.stops (c.complete m) = false ∧ (c.complete m).step.answer = .ok () ∧
        next.complete m' = (c.complete m).step.machine := by
  induction hp : c.pieces.length using Nat.strongRecOn generalizing m c with
  | ind pieces ih =>
    have ht := turns_turn (r := r) (c := c) hm
    generalize he : r.turn terminal m c = turned at ht
    have ha (n : Nat) : terminal.attend (n + 1) (.working r m) c =
        terminal.attend n turned.1 turned.2 := by
      rw [attend_succ, he]
    cases ht with
    | waited hn hw hl _ =>
      obtain ⟨n, h⟩ := ih _ (hp ▸ hl) hn rfl
      rw [hw, ← ha] at h
      exact ⟨n + 1, h⟩
    | stepped hs hok hn hw _ => exact ⟨1, .inr ⟨_, _, ha 0, hn, hs, hok, hw⟩⟩
    | ended _ => exact ⟨1, .inl ⟨_, _, ha 0⟩⟩

theorem exists_attend_exited {whole : Machine σ} {reply : Reply σ Unit} (hr : r.ComesTo whole reply)
    (hm : Served m) (hw : c.complete m = whole) :
    ∃ n status last, terminal.attend n (.working r m) c = (.exited status, last) := by
  induction hr generalizing m c with
  | stopped hs =>
    obtain ⟨n, h | ⟨_, _, -, -, hn, -⟩⟩ := exists_attend_step (r := r) (c := c) hm
    · exact ⟨n, h⟩
    · rw [hw, hs] at hn
      contradiction
  | failed _ ha =>
    obtain ⟨n, h | ⟨_, _, -, -, -, hn, -⟩⟩ := exists_attend_step (r := r) (c := c) hm
    · exact ⟨n, h⟩
    · rw [hw, ha] at hn
      contradiction
  | step _ _ _ ih =>
    obtain ⟨n, h | ⟨next, m', he, hm', -, -, hl⟩⟩ := exists_attend_step (r := r) (c := c) hm
    · exact ⟨n, h⟩
    · obtain ⟨k, status, last, hk⟩ := ih hm' (hl.trans (by rw [hw]))
      exact ⟨n + k, status, last, by rw [attend_add, he, hk]⟩

/-- What the console has got from a session with this exit status. -/
def outcome (c : Console) (status : Nat) : Outcome :=
  ⟨status, c.output.written.toList, c.complaints⟩

/-- The outcomes of a session that goes on from this stage. -/
def Reaches (c : Console) (stage : Stage σ) (o : Outcome) : Prop :=
  ∃ n status last, terminal.attend n stage c = (.exited status, last) ∧ last.outcome status = o

theorem reaches_exited_iff {status : Nat} {o : Outcome} :
    c.Reaches (Stage.exited (σ := σ) status) o ↔ c.outcome status = o := by
  constructor
  · rintro ⟨n, status', last, h, rfl⟩
    rw [attend_exited] at h
    cases h
    rfl
  · exact fun h => ⟨0, status, c, rfl, h⟩

/-- The machine that is served comes to what the machine with the whole input comes to, whatever
becomes of the output. -/
theorem reaches_working_iff {field : Playfield} {directions : σ} {earlier : List Record}
    (hc : c.complaints = r.logText earlier) {o : Outcome} :
    c.Reaches (.working r (.start field (.ofBytes []) .unlimited directions)) o ↔
      ∃ fuel, r.execute fuel earlier (.start field ⟨c.pending, c.failure⟩ c.output directions) =
        some o := by
  have hm : Served (.start field (.ofBytes []) .unlimited directions) := ⟨rfl, rfl⟩
  have ho {status : Nat} {last : Console} {reply : Reply σ Unit}
      (hv : (Request.verdict reply).1 = status) (hw : last.output = reply.machine.output)
      (hl : last.complaints =
        c.complaints ++ (r.logText reply.records ++ (Request.verdict reply).2)) :
      last.outcome status = r.outcome earlier reply := by
    rw [outcome, hw, hl, hc, ← String.append_assoc, ← Request.logText_append, ← hv]
    rfl
  rw [Request.execute_eq_some_iff earlier rfl]
  constructor
  · rintro ⟨n, status, last, h, rfl⟩
    obtain ⟨reply, hr, hv, hw, hl⟩ := ended_of_attend hm h
    exact ⟨reply, hr, (ho hv hw hl).symm⟩
  · rintro ⟨reply, hr, rfl⟩
    obtain ⟨n, status, last, h⟩ := exists_attend_exited hr hm rfl
    obtain ⟨reply', hr', hv, hw, hl⟩ := ended_of_attend hm h
    obtain rfl := hr.unique hr'
    exact ⟨n, status, last, h, ho hv hw hl⟩

theorem reaches_finish_iff (ho : c.output = .unlimited) (hc : c.complaints = "") {o o' : Outcome} :
    let finished := terminal.finish (σ := σ) o c
    finished.2.Reaches finished.1 o' ↔ o = o' := by
  intro finished
  have hp : (OutputSink.pass o.stdout c.output).2.written.toList = o.stdout := by
    rw [ho, OutputSink.pass, Output.deliver_of_free ⟨rfl, rfl⟩]
    cases o.stdout <;> simp [Output.appended, Output.unlimited]
  have hf : finished = (.exited o.status,
      { c with output := (OutputSink.pass o.stdout c.output).2 }.complaining o.stderr) := by
    simp only [finished, Terminal.finish, bind, StateT.bind, pass_terminal]
    rfl
  rw [hf, reaches_exited_iff]
  dsimp only [outcome, complaining]
  rw [hp, hc, String.empty_append]

theorem reaches_begin_iff (ho : c.output = .unlimited) (hc : c.complaints = "") (directions : σ)
    {o : Outcome} :
    let begun := r.begin terminal directions c
    begun.2.Reaches begun.1 o ↔
      ∃ fuel, r.perform fuel c.contents ⟨c.pending, c.failure⟩ directions = some o := by
  intro begun
  cases hp : r.program with
  | none =>
    have hb : begun = terminal.finish (printed usageLine) c := by
      simp only [begun, Request.begin, hp]
    simp [hb, reaches_finish_iff ho hc, Request.perform, hp]
  | some path =>
    cases hs : r.settle (Playfield.loadFile path (c.contents path)) with
    | error result =>
      have hb : begun = terminal.finish result c := by
        simp [begun, Request.begin, hp, bind, StateT.bind, terminal, hs]
      simp [hb, reaches_finish_iff ho hc, Request.perform, hp, hs]
    | ok field =>
      have hb : begun = (.working r (.start field (.ofBytes []) .unlimited directions),
          c.complaining (r.logText (Playfield.loadFile path (c.contents path)).records)) := by
        simp [begun, Request.begin, hp, bind, StateT.bind, terminal, hs]
        rfl
      rw [hb]
      refine (reaches_working_iff (by rw [complaining, hc, String.empty_append])).trans ?_
      change (∃ fuel, r.execute fuel _ (.start field _ c.output directions) = some o) ↔ _
      simp only [Request.perform, hp, hs, ho]
      rfl

end Console

/-- A session at a console to which nothing has been said comes to the outcome of the session for
all the input that the console holds. -/
theorem session_at_console {c : Console} (ho : c.output = .unlimited) (hf : c.failure = none)
    (hc : c.complaints = "") (otherSeed : UInt64) (arguments : List String) (o : Outcome) :
    let begun := Console.terminal.begin otherSeed arguments c
    begun.2.Reaches begun.1 o ↔
      ∃ fuel, session fuel c.contents c.pending otherSeed arguments = some o := by
  unfold Terminal.begin session
  cases Command.ofArguments arguments with
  | error fault => simp [Console.reaches_finish_iff ho hc]
  | ok command =>
    cases command with
    | help => simp [Console.reaches_finish_iff ho hc]
    | run r =>
      have hr := Console.reaches_begin_iff (r := r) (o := o) ho hc (r.directions otherSeed)
      rwa [hf] at hr

end CommandLine

end Befunge
