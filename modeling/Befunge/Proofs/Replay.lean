import Befunge.Directions.Drawn
import Befunge.Proofs.Lockstep

/-! Recording and replaying the directions of a run. A run knows no more of its source of directions
than the ones that it has drawn, one for each `?` that it executed. -/

namespace Befunge

/-- A source of directions together with all that it has given, the first one first. -/
structure Recorder (σ : Type) where
  source : σ
  given : List Direction

instance {σ : Type} [DirectionSource σ] : DirectionSource (Recorder σ) where
  next r :=
    let (d, source) := DirectionSource.next r.source
    (d, ⟨source, r.given ++ [d]⟩)

theorem Script.directionsOf_ofList (directions : List Direction) :
    directionsOf directions.length (ofList directions) = directions := by
  have h : ∀ rest all, directionsOf rest.length (Script.mk ⟨rest, all⟩) = rest := by
    intro rest all
    induction rest with
    | nil => rfl
    | cons d rest ih => exact congrArg (d :: ·) ih
  exact h directions directions

namespace Machine

variable {σ σ' ι ω : Type}

def onDirections (directions : σ') (m : Machine σ ι ω) : Machine σ' ι ω := { m with directions }

/-- Machines that differ in their sources of directions only. -/
def ButForDirections (m : Machine σ ι ω) (m' : Machine σ' ι ω) : Prop :=
  m' = m.onDirections m'.directions

def recording (given : List Direction) (m : Machine σ ι ω) : Machine (Recorder σ) ι ω :=
  m.onDirections ⟨m.directions, given⟩

/-- What the next step draws from its source. -/
def draws [DirectionSource σ] (m : Machine σ ι ω) : List Direction :=
  if m.order = some .wander then [(DirectionSource.next m.directions).1] else []

/-- What the next step leaves of a source. -/
def spare [DirectionSource σ'] (m : Machine σ ι ω) (directions : σ') : σ' :=
  if m.order = some .wander then (DirectionSource.next directions).2 else directions

theorem spare_of_ne [DirectionSource σ'] {m : Machine σ ι ω} (h : m.order ≠ some .wander)
    (directions : σ') : m.spare directions = directions := if_neg h

theorem spare_recorder [DirectionSource σ] (m : Machine σ ι ω) (given : List Direction) :
    m.spare (⟨m.directions, given⟩ : Recorder σ) = ⟨m.spare m.directions, given ++ m.draws⟩ := by
  by_cases h : m.order = some .wander
  · simp only [spare, draws, if_pos h]
    rfl
  · simp only [spare, draws, if_neg h, List.append_nil]

variable [DirectionSource σ] [DirectionSource σ'] [InputSource ι] [OutputSink ω]

/-- The directions that the source gives during the first `k` calls of `step`. -/
def yielded (k : Nat) (m : Machine σ ι ω) : List Direction :=
  ((m.recording []).after k).directions.given

theorem perform_onDirections (m : Machine σ ι ω) (directions : σ') {i : Instruction}
    (hi : i ≠ .wander) :
    (m.perform i).Agree (fun a b => b = a.onDirections directions)
      ((m.onDirections directions).perform i) := by
  cases i with
  | wander => contradiction
  | get => exact agree_getCell rfl rfl fun _ => rfl
  | put => exact agree_putCell rfl rfl fun _ => rfl
  | readInteger => exact agree_readInteger rfl (fun _ => rfl) fun _ _ => rfl
  | readCharacter => exact agree_readCharacter rfl (fun _ => rfl) fun _ _ => rfl
  | writeInteger | writeCharacter => exact agree_emit _ rfl fun _ => rfl
  | _ => exact ⟨rfl, rfl, rfl⟩

theorem wander_onDirections {m : Machine σ ι ω} {directions : σ'}
    (h : (DirectionSource.next directions).1 = (DirectionSource.next m.directions).1) :
    (m.perform .wander).Agree
      (fun a b => b = a.onDirections (DirectionSource.next directions).2)
      ((m.onDirections directions).perform .wander) := by
  refine ⟨rfl, rfl, ?_⟩
  simp only [perform, done, turn, onDirections, h]

/-- A step on another source, which gives the same direction if it is asked for one. -/
theorem step_onDirections {m : Machine σ ι ω} (directions : σ')
    (h : m.order = some .wander →
      (DirectionSource.next directions).1 = (DirectionSource.next m.directions).1) :
    m.step.Agree (fun a b => b = a.onDirections (m.spare directions))
      (m.onDirections directions).step :=
  Alike.step {
    halted := rfl
    steps := rfl
    cursor := rfl
    quoting := rfl
    fetch := fun _ => rfl
    related := fun ho => by rw [spare_of_ne (by simp [ho])]
    push := fun ho _ => by rw [spare_of_ne (by simp [ho])]; rfl
    perform := fun i ho => by
      by_cases hi : i = .wander
      · subst hi
        rw [spare, if_pos ho]
        exact wander_onDirections (h ho)
      · rw [spare_of_ne fun hw => hi (Option.some.inj (ho.symm.trans hw))]
        exact perform_onDirections m directions hi
    proceed := fun ha => by rw [ha]; rfl }

theorem directions_step (m : Machine σ ι ω) :
    m.step.machine.directions = m.spare m.directions :=
  congrArg (·.directions) (step_onDirections m.directions fun _ => rfl).machine

theorem heading_step_of_wander {m : Machine σ ι ω} (h : m.order = some .wander) :
    m.step.machine.cursor.heading = (DirectionSource.next m.directions).1 := by
  rw [step_of_order h, observe_conclude (·.cursor.heading) fun _ => rfl]
  rfl

theorem step_recording (m : Machine σ ι ω) (given : List Direction) :
    (m.recording given).step.machine = m.step.machine.recording (given ++ m.draws) := by
  have h := (step_onDirections (m := m) (Recorder.mk m.directions given) fun _ => rfl).machine
  rw [recording, h, spare_recorder, ← directions_step]
  rfl

theorem after_recording (m : Machine σ ι ω) (given : List Direction) (k : Nat) :
    (m.recording given).after k =
      (m.after k).recording (given ++ (List.range k).flatMap fun i => (m.after i).draws) := by
  induction k with
  | zero => rw [List.range_zero, List.flatMap_nil, List.append_nil]; rfl
  | succ k ih =>
    rw [after_succ, ih, step_recording, after_succ, List.range_succ, List.flatMap_append,
      List.append_assoc]
    simp

theorem yielded_eq (m : Machine σ ι ω) (k : Nat) :
    m.yielded k = (List.range k).flatMap fun i => (m.after i).draws := by
  rw [yielded, after_recording]
  rfl

theorem yielded_succ (m : Machine σ ι ω) (k : Nat) :
    m.yielded (k + 1) = m.draws ++ m.step.machine.yielded k := by
  rw [yielded_eq, yielded_eq, List.range_succ_eq_map, List.flatMap_cons, List.flatMap_map]
  rfl

/-- One direction is drawn for each `?`, and the cursor takes it. -/
theorem yielded_eq_headings (m : Machine σ ι ω) (k : Nat) :
    m.yielded k = ((List.range k).filter fun i => (m.after i).order = some .wander).map
      fun i => (m.after (i + 1)).cursor.heading := by
  rw [yielded_eq]
  induction k with
  | zero => rfl
  | succ k ih =>
    rw [List.range_succ, List.flatMap_append, List.filter_append, List.map_append, ih]
    congr 1
    by_cases h : (m.after k).order = some .wander
    · simp [draws, h, after_succ, heading_step_of_wander h]
    · simp [draws, h]

theorem directionsOf_yielded (m : Machine σ ι ω) (k : Nat) :
    directionsOf (m.yielded k).length m.directions = m.yielded k := by
  induction k generalizing m with
  | zero => rfl
  | succ k ih =>
    have hi := ih m.step.machine
    rw [directions_step] at hi
    rw [yielded_succ]
    by_cases h : m.order = some .wander
    · simp only [spare, draws, if_pos h] at hi ⊢
      exact congrArg (_ :: ·) hi
    · simpa only [spare, draws, if_neg h, List.nil_append] using hi

theorem inStep_onDirections {m : Machine σ ι ω} {directions : σ'} {k : Nat}
    (h : directionsOf (m.yielded k).length directions = m.yielded k) :
    InStep ButForDirections m (m.onDirections directions) k := by
  have hh : ∀ {a : Machine σ ι ω} {b : Machine σ' ι ω}, ButForDirections a b →
      a.halted = b.halted := fun h => by rw [h]; rfl
  have hc : ∀ {a : Machine σ ι ω} {b : Machine σ' ι ω}, ButForDirections a b →
      a.steps = b.steps := fun h => by rw [h]; rfl
  -- the source is used up from the front, so the induction takes off the first call
  induction k generalizing m directions with
  | zero => exact inStep_of_step hh hc rfl nofun
  | succ k ih =>
    rw [yielded_succ] at h
    have hd : (m.order = some .wander →
          (DirectionSource.next directions).1 = (DirectionSource.next m.directions).1) ∧
        directionsOf (m.step.machine.yielded k).length (m.spare directions) =
          m.step.machine.yielded k := by
      by_cases ho : m.order = some .wander
      · simp only [draws, spare, if_pos ho] at h ⊢
        obtain ⟨hd, hr⟩ := List.cons.inj h
        exact ⟨fun _ => hd, hr⟩
      · simp only [draws, spare, if_neg ho, List.nil_append] at h ⊢
        exact ⟨fun hw => absurd hw ho, h⟩
    obtain ⟨ha, hr, hm⟩ := step_onDirections directions hd.1
    have hi := ih hd.2
    rw [← hm] at hi
    exact inStep_succ hh hc rfl ⟨ha, hr, by rw [hm]; rfl⟩ hi

theorem drawn_directions_replay (m : Machine σ ι ω) (k : Nat) :
    m.yielded k = ((List.range k).filter fun i => (m.after i).order = some .wander).map
      (fun i => (m.after (i + 1)).cursor.heading) ∧
    InStep ButForDirections m (m.onDirections (Script.ofList (m.yielded k))) k ∧
    (∀ {σ' : Type} [DirectionSource σ'] (other : σ'), m.yielded k = [] →
      InStep ButForDirections m (m.onDirections other) k) ∧
    ∀ {σ' : Type} [DirectionSource σ'] (other : σ'),
      directionsOf (m.yielded k).length other =
          directionsOf (m.yielded k).length m.directions →
        InStep ButForDirections m (m.onDirections other) k := by
  refine ⟨yielded_eq_headings m k, inStep_onDirections (Script.directionsOf_ofList _), ?_, ?_⟩
  · intro σ' _ other h
    exact inStep_onDirections (by rw [h]; rfl)
  · intro σ' _ other h
    exact inStep_onDirections (h.trans (directionsOf_yielded m k))

/-- Goes down to a row in which a second `?` is pushed as a character. -/
def roving : Machine (Drawn (Cycle UInt64)) :=
  .start (.ofLines ["?".toList.map Char.toUInt8, "?\x22?\x22@".toList.map Char.toUInt8])
    (.ofBytes []) .unlimited ⟨.ofList [0xc000000000000000, 0x2000000000000000, 0]⟩

theorem drawn_directions_replay_roving :
    roving.yielded 6 = [.down, .right] ∧
      ((roving.onDirections (Script.ofList [.down, .right, .up])).after 6).stack.toList = [63] := by
  have hy : roving.yielded 6 = [.down, .right] := by decide +kernel
  have hs : (roving.after 6).stack.toList = [63] := by decide +kernel
  obtain ⟨-, -, -, h⟩ := drawn_directions_replay roving 6
  have hd : directionsOf (roving.yielded 6).length (Script.ofList [.down, .right, .up]) =
      directionsOf (roving.yielded 6).length roving.directions := by
    rw [hy]
    decide +kernel
  rw [(h _ hd).after 6 (Nat.le_refl 6)]
  exact ⟨hy, hs⟩

end Machine

end Befunge
