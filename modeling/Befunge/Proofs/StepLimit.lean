import Befunge.CommandLine.Session
import Befunge.Proofs.Reachable
import Befunge.Proofs.StraightLine

/-! What a session reports, as a function of the limit on its steps. A limit that lets the run see
its end makes no difference to it; any smaller one stops the run after exactly that many steps. -/

namespace Befunge

namespace Machine

variable {σ ι ω : Type} [DirectionSource σ] [InputSource ι] [OutputSink ω]
variable {m left other : Machine σ ι ω} {n k limit : Nat} {answer : Except Fault Unit}

/-- Calls that succeed and leave a machine at work are the whole run with their number for its
limit. -/
theorem Passes.drive_eq (h : m.Passes n left) (hh : left.halted = false) :
    (m.drive n).answer = .ok n ∧ (m.drive n).machine = left ∧ left.steps = m.steps + n := by
  induction n generalizing m with
  | zero =>
    obtain ⟨-, rfl⟩ := h
    exact ⟨rfl, rfl, rfl⟩
  | succ n ih =>
    obtain ⟨ha, hm⟩ := h
    have hc : m.halted = false := by
      refine Bool.eq_false_iff.mpr fun hc => ?_
      rw [← hm, after_of_halted hc, hc] at hh
      contradiction
    have h0 : m.step.answer = .ok () := ha 0 (Nat.succ_pos n)
    have hn := steps_step_of_ok hc h0
    obtain ⟨hd, hl, hs⟩ := ih (m := m.step.machine)
      ⟨fun i hi => ha (i + 1) (Nat.succ_lt_succ hi), hm⟩
    rw [drive_of_ok hc h0]
    exact ⟨by simp [Reply.following, hd, Except.map], hl, by omega⟩

theorem ends_or_passes (m : Machine σ ι ω) (limit : Nat) :
    (∃ n answer left, m.Ends n answer left ∧ Seen limit n answer) ∨
      ∃ left, m.Passes limit left ∧ left.halted = false := by
  induction limit generalizing m with
  | zero =>
    cases hh : m.halted with
    | true => exact .inl ⟨0, _, m, .halted hh, Nat.le_refl 0⟩
    | false => exact .inr ⟨m, ⟨fun i hi => absurd hi (Nat.not_lt_zero i), rfl⟩, hh⟩
  | succ limit ih =>
    cases hh : m.halted with
    | true => exact .inl ⟨0, _, m, .halted hh, Nat.zero_le _⟩
    | false =>
      cases ha : m.step.answer with
      | error fault => exact .inl ⟨0, _, _, .failed hh ha, Nat.succ_pos limit⟩
      | ok =>
        rcases ih m.step.machine with ⟨n, answer, left, he, hs⟩ | ⟨left, hp, hl⟩
        · exact .inl ⟨n + 1, answer, left, .step hh ha he, seen_add_one_iff.mpr hs⟩
        · refine .inr ⟨left, ?_, hl⟩
          rw [Nat.add_comm]
          exact (passes_step ha).trans hp

theorem Ends.not_seen (h : m.Ends n answer other) (hp : m.Passes limit left)
    (hh : left.halted = false) : ¬ Seen limit n answer := by
  intro hs
  obtain ⟨ha, hm, -⟩ := hp.drive_eq hh
  obtain ⟨records, hd⟩ := h.drive_eq
  rw [hd limit hs] at ha hm
  cases answer with
  | ok =>
    have ho := h.halted_of_ok rfl
    rw [show other = left from hm, hh] at ho
    contradiction
  | error => contradiction

theorem accepted_drive (m : Machine σ ι ω) (h : n ≤ k) :
    OutputSink.accepted (m.drive n).machine.output <+:
      OutputSink.accepted (m.drive k).machine.output := by
  obtain ⟨d, rfl⟩ := Nat.exists_eq_add_of_le h
  rw [drive_add]
  rcases hd : m.drive n with ⟨answer, next, records⟩
  cases answer with
  | error => exact List.prefix_rfl
  | ok =>
    obtain ⟨j, hj⟩ := exists_after_drive next d
    dsimp only
    rw [hj]
    exact accepted_after next (Nat.zero_le j)

end Machine

namespace CommandLine

/-- What an outcome tells of a machine that was allowed so many steps. -/
structure Outcome.Tells {σ : Type} [DirectionSource σ] (o : Outcome) (m : Machine σ) (log : String)
    (limit : Nat) : Prop where
  halted : o.status = 0 ↔ ∃ n ≤ limit, ∃ left, m.Ends n (.ok ()) left
  failed : o.status = 1 ↔ ∃ n < limit, ∃ fault left, m.Ends n (.error fault) left
  silent : o.status = 0 → o.stderr = log
  complaint : ∀ n < limit, ∀ fault left, m.Ends n (.error fault) left →
    o.stderr = log ++ ("\nerror: " ++ fault.message ++ "\n")
  stopped : o.status = 0 ∨ o.status = 1 ∨ o.status = 2 ∧
    ∃ left, m.Passes limit left ∧ left.halted = false ∧ left.steps = limit ∧
      o.stdout = left.output.written.toList ∧
      o.stderr = log ++ ("\nstep limit of " ++ Text.Decimal.text limit ++
        " reached without halting\n")

namespace Request

/-- The same request with another limit, or with none. -/
def withLimit (limit : Option Nat) (r : Request) : Request := { r with stepLimit := limit }

section

variable {σ α β : Type} (r : Request) (earlier records : List Record) {left : Machine σ}

theorem outcome_map (f : α → β) (answer : Except Fault α) :
    r.outcome earlier ⟨answer.map f, left, records⟩ =
      r.outcome earlier ⟨answer, left, records⟩ := by
  cases answer <;> rfl

theorem outcome_of_halted (hh : left.halted = true) (a : α) :
    r.outcome earlier ⟨.ok a, left, records⟩ =
      ⟨0, left.output.written.toList, r.logText (earlier ++ records)⟩ := by
  simp [outcome, verdict, hh]

theorem outcome_of_stopped (hh : left.halted = false) (a : α) :
    r.outcome earlier ⟨.ok a, left, records⟩ =
      ⟨2, left.output.written.toList, r.logText (earlier ++ records) ++
        ("\nstep limit of " ++ Text.Decimal.text left.steps ++ " reached without halting\n")⟩ := by
  simp [outcome, verdict, hh]

end

variable {σ : Type} [DirectionSource σ] {m left : Machine σ} {n k : Nat}
  {answer : Except Fault Unit} (r : Request) (earlier : List Record)

/-- One outcome for every limit that lets the run see its end, and for no limit. -/
theorem outcome_of_ends (h : m.Ends n answer left) :
    ∃ o, o.status ≠ 2 ∧ (∀ limit, Machine.Seen limit n answer →
        r.outcome earlier (m.runFor limit) = o) ∧
      ∀ fuel, (m.run? fuel).map (r.outcome earlier) = if n < fuel then some o else none := by
  obtain ⟨records, hl, hf⟩ := h.runFor_eq
  refine ⟨r.outcome earlier ⟨answer, left, records⟩, ?_, fun limit hs => ?_, fun fuel => ?_⟩
  · cases answer with
    | ok =>
      rw [outcome_of_halted r earlier records (h.halted_of_ok rfl)]
      exact Nat.zero_ne_add_one 1
    | error => exact Nat.succ_ne_succ_iff.mpr Nat.zero_ne_one
  · rw [hl limit hs, outcome_map]
  · rw [hf]
    split <;> rfl

theorem outcome_of_passes (h : m.Passes n left) (hh : left.halted = false) (hm : m.steps = 0) :
    r.outcome earlier (m.runFor n) = ⟨2, left.output.written.toList,
      r.logText (earlier ++ (m.runFor n).records) ++ ("\nstep limit of " ++ Text.Decimal.text n ++
        " reached without halting\n")⟩ := by
  obtain ⟨ha, hl, hs⟩ := h.drive_eq hh
  rw [Machine.runFor_eq_drive, ha, hl, outcome_of_stopped r earlier _ hh, hs, hm, Nat.zero_add]

theorem outcome_tells (hm : m.steps = 0) (limit : Nat) :
    (r.outcome earlier (m.runFor limit)).Tells m
      (r.logText (earlier ++ (m.runFor limit).records)) limit := by
  rcases m.ends_or_passes limit with ⟨n, answer, left, he, hl⟩ | ⟨left, hp, hh⟩
  · obtain ⟨records, hr, -⟩ := he.runFor_eq
    rw [hr limit hl, outcome_map]
    cases answer with
    | ok =>
      have hn : ∀ k fault left, ¬ m.Ends k (.error fault) left := by
        intro k fault left hk
        cases (he.unique hk).2.1
      rw [outcome_of_halted r earlier records (he.halted_of_ok rfl)]
      exact {
        halted := iff_of_true rfl ⟨n, hl, left, he⟩
        failed := iff_of_false Nat.zero_ne_one fun ⟨k, _, fault, left, hk⟩ => hn k fault left hk
        silent := fun _ => rfl
        complaint := fun k _ fault left hk => absurd hk (hn k fault left)
        stopped := .inl rfl }
    | error fault =>
      exact {
        halted := iff_of_false Nat.one_ne_zero fun ⟨k, _, left, hk⟩ => by
          cases (he.unique hk).2.1
        failed := iff_of_true rfl ⟨n, hl, fault, left, he⟩
        silent := fun h => absurd h Nat.one_ne_zero
        complaint := fun k _ fault' left hk => by
          cases (he.unique hk).2.1
          rfl
        stopped := .inr (.inl rfl) }
  · have hn : ∀ k answer left, m.Ends k answer left → ¬ Machine.Seen limit k answer :=
      fun _ _ _ hk => hk.not_seen hp hh
    rw [outcome_of_passes r earlier hp hh hm]
    exact {
      halted := iff_of_false (Nat.succ_ne_zero 1) fun ⟨k, hl, left, hk⟩ => hn k _ left hk hl
      failed := iff_of_false (Nat.succ_ne_self 1) fun ⟨k, hl, fault, left, hk⟩ => hn k _ left hk hl
      silent := fun h => absurd h (Nat.succ_ne_zero 1)
      complaint := fun k hl fault left hk => absurd hl (hn k _ left hk)
      stopped := .inr (.inr ⟨rfl, left, hp, hh, by rw [(hp.drive_eq hh).2.2, hm, Nat.zero_add], rfl,
        rfl⟩) }

theorem outcome_prefix_of_le (h : n ≤ k) :
    (r.outcome earlier (m.runFor n)).stdout <+: (r.outcome earlier (m.runFor k)).stdout := by
  rw [Machine.runFor_eq_drive, Machine.runFor_eq_drive]
  exact Machine.accepted_drive m h

/-- A run that was not stopped by its limit has seen how the machine ends. -/
theorem exists_ends_of_status (hm : m.steps = 0)
    (h : (r.outcome earlier (m.runFor n)).status ≠ 2) :
    ∃ s answer left, m.Ends s answer left ∧ Machine.Seen n s answer := by
  refine (m.ends_or_passes n).resolve_right fun ⟨left, hp, hh⟩ => h ?_
  rw [outcome_of_passes r earlier hp hh hm]

/-- A run without a limit ends as the run that is limited by its fuel. -/
theorem outcome_of_run? {fuel : Nat} {o : Outcome}
    (h : (m.run? fuel).map (r.outcome earlier) = some o) :
    o.status ≠ 2 ∧ r.outcome earlier (m.runFor fuel) = o := by
  obtain ⟨reply, hr, -⟩ := Option.map_eq_some_iff.mp h
  obtain ⟨n, he⟩ := Machine.ends_of_run?_go hr
  obtain ⟨o', hs, hl, hu⟩ := r.outcome_of_ends earlier he
  rw [hu] at h
  obtain ⟨hn, ho⟩ := Option.ite_none_right_eq_some.mp h
  obtain rfl := Option.some.inj ho
  exact ⟨hs, hl fuel (.of_lt hn)⟩

theorem outcome_eq_of_status (hm : m.steps = 0)
    (h : (r.outcome earlier (m.runFor n)).status ≠ 2) :
    (∀ k ≥ n, r.outcome earlier (m.runFor k) = r.outcome earlier (m.runFor n)) ∧
      ∃ s, ∀ fuel, (m.run? fuel).map (r.outcome earlier) =
        if s < fuel then some (r.outcome earlier (m.runFor n)) else none := by
  obtain ⟨s, answer, left, he, hn⟩ := r.exists_ends_of_status earlier hm h
  obtain ⟨o, -, hl, hu⟩ := r.outcome_of_ends earlier he
  rw [hl n hn]
  exact ⟨fun k hk => hl k (hn.mono hk), s, hu⟩

theorem perform_withLimit {path : String} {source : List UInt8}
    {contents : String → Except String (List UInt8)} (hp : r.program = some path)
    (hd : r.dump = false) (hc : contents path = .ok source) (limit : Option Nat) (fuel : Nat)
    (stdin : Input) (directions : σ) :
    (r.withLimit limit).perform fuel contents stdin directions =
      (r.withLimit limit).execute fuel (Playfield.loadFile path (contents path)).records
        (.start (.parse source) stdin .unlimited directions) := by
  simp [perform, settle, withLimit, hp, hd, hc, Playfield.loadFile]

theorem outcome_by_step_limit (r : Request) {path : String} {source : List UInt8}
    {contents : String → Except String (List UInt8)} (hp : r.program = some path)
    (hd : r.dump = false) (hc : contents path = .ok source) (stdin : Input) (directions : σ) :
    let m : Machine σ := .start (.parse source) stdin .unlimited directions
    let log := fun n =>
      r.logText ((Playfield.loadFile path (contents path)).records ++ (m.runFor n).records)
    let under := fun limit fuel => (r.withLimit limit).perform fuel contents stdin directions
    (∀ n, ∃ o, (∀ fuel, under (some n) fuel = some o) ∧ o.Tells m (log n) n) ∧
    (r.verbose = false → ∀ n, log n = "") ∧
    (∀ fuel o, under none fuel = some o → o.status ≠ 2 ∧ under (some fuel) fuel = some o) ∧
    (∀ n k fuel o o', n ≤ k → under (some n) fuel = some o → under (some k) fuel = some o' →
      o.stdout <+: o'.stdout ∧
      (o.status ≠ 2 →
        o' = o ∧ ∃ s, ∀ fuel, under none fuel = if s < fuel then some o else none)) ∧
    ∀ arguments limit, Command.ofArguments arguments = .ok (.run (r.withLimit limit)) →
      ∀ fuel bytes otherSeed, session fuel contents bytes otherSeed arguments =
        (r.withLimit limit).perform fuel contents (.ofBytes bytes) (r.directions otherSeed) := by
  intro m log under
  let earlier := (Playfield.loadFile path (contents path)).records
  have hm : m.steps = 0 := rfl
  have hl : ∀ n fuel, under (some n) fuel = some (r.outcome earlier (m.runFor n)) :=
    fun n fuel => r.perform_withLimit hp hd hc (some n) fuel stdin directions
  have hf : ∀ fuel, under none fuel = (m.run? fuel).map (r.outcome earlier) :=
    fun fuel => r.perform_withLimit hp hd hc none fuel stdin directions
  refine ⟨fun n => ⟨_, hl n, r.outcome_tells earlier hm n⟩, fun hv n => ?_, fun fuel o h => ?_,
    fun n k fuel o o' hk h h' => ?_, fun arguments limit ha fuel bytes otherSeed => ?_⟩
  · exact logText_of_quiet hv _
  · rw [hf] at h
    obtain ⟨hs, ho⟩ := r.outcome_of_run? earlier h
    exact ⟨hs, by rw [hl, ho]⟩
  · rw [hl] at h h'
    obtain rfl := Option.some.inj h
    obtain rfl := Option.some.inj h'
    refine ⟨r.outcome_prefix_of_le earlier hk, fun hs => ?_⟩
    obtain ⟨he, s, hu⟩ := r.outcome_eq_of_status earlier hm hs
    exact ⟨he k hk, s, fun fuel => (hf fuel).trans (hu fuel)⟩
  · rw [session, ha]
    rfl

def derailing : Request := ⟨some "seven", none, none, false, false⟩

def sevenThenUnknown : String → Except String (List UInt8) :=
  fun _ => .ok ("7.x".toList.map Char.toUInt8)

def derailed (limit : Nat) : Option Outcome :=
  (derailing.withLimit (some limit)).perform 0 sevenThenUnknown (.ofBytes []) (Script.ofList [])

theorem outcome_by_step_limit_derailing :
    (∃ o, derailed 2 = some o ∧ o.status = 2) ∧
    (∀ k ≥ 3, derailed k =
      some ⟨1, [0x37, 0x20], "\nerror: unknown instruction 'x' (code 120) at (2, 0)\n"⟩) ∧
    session 0 sevenThenUnknown [] 0 ["--step-limit", "3", "seven"] =
      some ⟨1, [0x37, 0x20], "\nerror: unknown instruction 'x' (code 120) at (2, 0)\n"⟩ := by
  have h2 : (derailed 2).map (·.status) = some 2 := by rfl
  have h3 : derailed 3 =
      some ⟨1, [0x37, 0x20], "\nerror: unknown instruction 'x' (code 120) at (2, 0)\n"⟩ := by rfl
  have hc : sevenThenUnknown "seven" = .ok ("7.x".toList.map Char.toUInt8) := rfl
  obtain ⟨ho, -, -, hm, hs⟩ :=
    outcome_by_step_limit derailing rfl rfl hc (.ofBytes []) (Script.ofList [])
  refine ⟨Option.map_eq_some_iff.mp h2, fun k hk => ?_, ?_⟩
  · obtain ⟨o, hu, -⟩ := ho k
    rw [← ((hm 3 k 0 _ o hk h3 (hu 0)).2 (by decide)).1]
    exact hu 0
  · have ha : Command.ofArguments ["--step-limit", "3", "seven"] =
        .ok (.run (derailing.withLimit (some 3))) := rfl
    rw [hs _ (some 3) ha]
    rfl

end Request

end CommandLine

end Befunge
