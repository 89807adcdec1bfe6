import Befunge.Machine.Step

/-! Runs: many steps, until the machine halts, a step fails, or a limit is reached. -/

namespace Befunge.Machine

variable {σ ι ω : Type} [DirectionSource σ] [InputSource ι] [OutputSink ω]

/-- Steps until the machine halts, a step fails, or `limit` steps have been made; the answer is
the number of steps made. -/
def runFor (limit : Nat) (m : Machine σ ι ω) : Reply σ Nat ι ω :=
  go limit m #[]
where
  go (left : Nat) (current : Machine σ ι ω) (log : Array Record) : Reply σ Nat ι ω :=
    if current.halted then
      ⟨.ok (current.steps - m.steps), current, (log.push (.halted current.steps)).toList⟩
    else
      match left with
      | 0 => ⟨.ok (current.steps - m.steps), current, log.toList⟩
      | left + 1 =>
        match current.step with
        | ⟨.ok (), next, records⟩ => go left next (log ++ records)
        | ⟨.error fault, next, records⟩ => ⟨.error fault, next, (log ++ records).toList⟩

/-- Steps until the machine halts or a step fails; `none` when the fuel runs out first. -/
def run? (fuel : Nat) (m : Machine σ ι ω) : Option (Reply σ Unit ι ω) :=
  go fuel m #[]
where
  go (fuel : Nat) (current : Machine σ ι ω) (log : Array Record) : Option (Reply σ Unit ι ω) :=
    match fuel with
    | 0 => none
    | fuel + 1 =>
      if current.halted then
        some ⟨.ok (), current, (log.push (.halted current.steps)).toList⟩
      else
        match current.step with
        | ⟨.ok (), next, records⟩ => go fuel next (log ++ records)
        | ⟨.error fault, next, records⟩ =>
          some ⟨.error fault, next, (log ++ records).toList⟩

end Befunge.Machine
