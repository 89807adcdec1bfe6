import Befunge.CommandLine.Options
import Befunge.Text.Decimal

/-! What a command line asks for: choices, each on a subject of its own, and the arguments that
spell them. -/

namespace Befunge.CommandLine

section

variable {digits text : List Char} {n k : Nat}

theorem le_ofDigitChars (digits : List Char) (n : Nat) : n ≤ Nat.ofDigitChars 10 digits n := by
  induction digits generalizing n with
  | nil => exact Nat.le_refl n
  | cons c digits ih =>
    have h := ih (10 * n + (c.toNat - '0'.toNat))
    rw [Nat.ofDigitChars_cons]
    omega

theorem extendNumber_eq_ok_iff (hn : n < UInt64.size) : extendNumber n digits = .ok k ↔
    (∀ c ∈ digits, c.isDigit = true) ∧ Nat.ofDigitChars 10 digits n = k ∧ k < UInt64.size := by
  induction digits generalizing n with
  | nil =>
    simp only [extendNumber, Except.ok.injEq, List.not_mem_nil, Nat.ofDigitChars_nil]
    constructor
    · rintro rfl
      exact ⟨nofun, rfl, hn⟩
    · exact fun h => h.2.1
  | cons c digits ih =>
    rw [extendNumber, List.forall_mem_cons, Nat.ofDigitChars_cons]
    cases hc : c.isDigit with
    | false => simp
    | true =>
      by_cases hl : 10 * n + (c.toNat - '0'.toNat) < UInt64.size
      · simp only [if_true, hl, ih hl, true_and]
      · -- the number only grows from here
        have hg := le_ofDigitChars digits (10 * n + (c.toNat - '0'.toNat))
        simp only [if_true, hl, if_false, reduceCtorEq, true_and, false_iff]
        omega

/-- A number is some digits after at most one plus sign, of a value below `2 ^ 64`. -/
theorem readNumber_eq_ok_iff : readNumber text = .ok k ↔
    ∃ digits, (text = digits ∨ text = '+' :: digits) ∧ digits ≠ [] ∧
      (∀ c ∈ digits, c.isDigit = true) ∧ Nat.ofDigitChars 10 digits 0 = k ∧ k < UInt64.size := by
  have he (digits : List Char) : extendNumber 0 digits = .ok k ↔ _ :=
    extendNumber_eq_ok_iff (by decide)
  have hp : ('+' : Char).isDigit ≠ true := by decide
  unfold readNumber
  split
  case h_1 => simp
  case h_2 =>
    refine iff_of_false nofun ?_
    rintro ⟨digits, rfl | h, hn, hd, -⟩
    · exact hp (hd '+' List.mem_cons_self)
    · exact hn (List.cons.inj h).2.symm
  case h_3 digits hne =>
    rw [he]
    constructor
    · rintro ⟨hd, hv⟩
      exact ⟨digits, .inr rfl, hne, hd, hv⟩
    · rintro ⟨digits', rfl | h, hn, hd, hv⟩
      · exact absurd (hd '+' List.mem_cons_self) hp
      · cases h
        exact ⟨hd, hv⟩
  case h_4 hn _ hp =>
    rw [he]
    constructor
    · rintro ⟨hd, hv⟩
      exact ⟨text, .inl rfl, hn, hd, hv⟩
    · rintro ⟨digits, rfl | rfl, -, hd, hv⟩
      · exact ⟨hd, hv⟩
      · exact absurd rfl (hp digits)

theorem readNumber_lt (h : readNumber text = .ok k) : k < UInt64.size := by
  obtain ⟨-, -, -, -, -, hk⟩ := readNumber_eq_ok_iff.mp h
  exact hk

theorem readNumber_text (hn : n < UInt64.size) :
    readNumber (Text.Decimal.text n).toList = .ok n := by
  have ht : (Text.Decimal.text n).toList = Nat.toDigits 10 n := by
    simp [Text.Decimal.text, Text.Decimal.ofInt]
  rw [ht]
  exact readNumber_eq_ok_iff.mpr ⟨_, .inl rfl, Nat.toDigits_ne_nil,
    fun c hc => Nat.isDigit_of_mem_toDigits (by decide) (by decide) hc,
    Nat.ofDigitChars_ten_toDigits, hn⟩

end

/-- One thing that a command line can ask for. -/
inductive Choice where
  | setting (o : Setting) (n : Nat)
  | dump
  | verbose
  | program (path : String)
deriving DecidableEq, Repr

inductive Subject where
  | setting (o : Setting)
  | dump
  | verbose
  | program
deriving DecidableEq, Repr

namespace Choice

def subject : Choice → Subject
  | setting o _ => .setting o
  | dump => .dump
  | verbose => .verbose
  | program _ => .program

def apply (r : Request) : Choice → Request
  | setting .seed n => { r with seed := some n }
  | setting .stepLimit n => { r with stepLimit := some n }
  | dump => { r with dump := true }
  | verbose => { r with verbose := true }
  | program path => { r with program := some path }

end Choice

namespace Request

def Asks (r : Request) : Choice → Prop
  | .setting .seed n => r.seed = some n
  | .setting .stepLimit n => r.stepLimit = some n
  | .dump => r.dump = true
  | .verbose => r.verbose = true
  | .program path => r.program = some path

/-- What has been asked for on a subject. -/
def answer (r : Request) : Subject → Option Choice
  | .setting .seed => r.seed.map (.setting .seed)
  | .setting .stepLimit => r.stepLimit.map (.setting .stepLimit)
  | .dump => if r.dump then some .dump else none
  | .verbose => if r.verbose then some .verbose else none
  | .program => r.program.map .program

/-- The choices are on different subjects, and nothing has been asked for on any of them. -/
def Admits (r : Request) (cs : List Choice) : Prop :=
  (cs.map Choice.subject).Nodup ∧ ∀ c ∈ cs, r.answer c.subject = none

variable {r q : Request} {c : Choice} {cs : List Choice}

theorem asks_iff : r.Asks c ↔ r.answer c.subject = some c := by
  cases c with
  | setting o n => cases o <;> simp [Asks, answer, Choice.subject]
  | _ => simp [Asks, answer, Choice.subject]

/-- A request is what it asks for. -/
theorem eq_of_asks_iff (h : ∀ c, r.Asks c ↔ q.Asks c) : r = q := by
  have hp : r.program = q.program := Option.ext fun path => h (.program path)
  have hs : r.seed = q.seed := Option.ext fun n => h (.setting .seed n)
  have hl : r.stepLimit = q.stepLimit := Option.ext fun n => h (.setting .stepLimit n)
  have hd : r.dump = q.dump := Bool.eq_iff_iff.mpr (h .dump)
  have hv : r.verbose = q.verbose := Bool.eq_iff_iff.mpr (h .verbose)
  cases r
  cases q
  simp_all

theorem answer_default (subject : Subject) : Request.default.answer subject = none := by
  cases subject with
  | setting o => cases o <;> rfl
  | _ => rfl

theorem answer_apply (r : Request) (c : Choice) (subject : Subject) :
    (c.apply r).answer subject = if subject = c.subject then some c else r.answer subject := by
  cases c with
  | setting o n => cases o <;> rcases subject with ⟨_ | _⟩ | _ | _ | _ <;> rfl
  | _ => rcases subject with ⟨_ | _⟩ | _ | _ | _ <;> rfl

theorem answer_program_eq_none_iff : r.answer .program = none ↔ r.program = none := by
  simp [answer]

theorem admits_nil (r : Request) : r.Admits [] := ⟨List.nodup_nil, nofun⟩

theorem admits_default (h : (cs.map Choice.subject).Nodup) : Request.default.Admits cs :=
  ⟨h, fun c _ => answer_default c.subject⟩

theorem admits_cons :
    r.Admits (c :: cs) ↔ r.answer c.subject = none ∧ (c.apply r).Admits cs := by
  simp only [Admits, List.map_cons, List.nodup_cons, List.mem_map, List.forall_mem_cons,
    answer_apply]
  constructor
  · rintro ⟨⟨hn, hd⟩, hc, hr⟩
    refine ⟨hc, hd, fun e he => ?_⟩
    rw [if_neg fun h => hn ⟨e, he, h⟩, hr e he]
  · rintro ⟨hc, hd, hr⟩
    have hn : ∀ e ∈ cs, e.subject ≠ c.subject := by
      intro e he h
      have hs := hr e he
      rw [if_pos h] at hs
      contradiction
    refine ⟨⟨fun ⟨e, he, h⟩ => hn e he h, hd⟩, hc, fun e he => ?_⟩
    rw [← hr e he, if_neg (hn e he)]

/-- Choices on different subjects are all kept. -/
theorem asks_foldl_apply (h : r.Admits cs) :
    (cs.foldl Choice.apply r).Asks c ↔ c ∈ cs ∨ r.Asks c := by
  induction cs generalizing r with
  | nil => simp
  | cons d cs ih =>
    obtain ⟨hn, ht⟩ := admits_cons.mp h
    rw [List.foldl_cons, ih ht, asks_iff, asks_iff, answer_apply, List.mem_cons]
    split
    next hs => simp [hs, hn, or_comm, eq_comm (a := d)]
    next hs =>
      have hc : c ≠ d := fun e => hs (congrArg Choice.subject e)
      simp [hc]

theorem not_asks_default (c : Choice) : ¬ Request.default.Asks c := by
  rw [asks_iff, answer_default]
  nofun

theorem asks_foldl_default (h : (cs.map Choice.subject).Nodup) :
    (cs.foldl Choice.apply .default).Asks c ↔ c ∈ cs := by
  rw [asks_foldl_apply (admits_default h), or_iff_left (not_asks_default c)]

end Request

def Setting.name : Setting → String
  | .seed => "seed"
  | .stepLimit => "step-limit"

def Setting.flag (o : Setting) : String := "--" ++ o.name

def Switch.name : Switch → String
  | .dump => "dump"
  | .verbose => "verbose"
  | .help => "help"

def Switch.flag (w : Switch) : String := "--" ++ w.name

/-- What a switch asks for, other than help. -/
def Switch.choice? : Switch → Option Choice
  | .dump => some .dump
  | .verbose => some .verbose
  | .help => none

/-- Arguments that make one choice. -/
inductive Spells : Choice → List String → Prop where
  | separate (o : Setting) {v : String} {n : Nat} (hn : readNumber v.toList = .ok n) :
    Spells (.setting o n) [o.flag, v]
  | attached (o : Setting) {v : String} {n : Nat} (hn : readNumber v.toList = .ok n) :
    Spells (.setting o n) [o.flag ++ "=" ++ v]
  | switch {w : Switch} {c : Choice} (hc : w.choice? = some c) : Spells c [w.flag]
  | letter : Spells .verbose ["-v"]
  | program {path : String} (he : path ≠ "") (hd : path = "-" ∨ path.toList.head? ≠ some '-') :
    Spells (.program path) [path]

theorem Spells.ne_nil {c : Choice} {part : List String} (h : Spells c part) : part ≠ [] := by
  cases h <;> exact List.cons_ne_nil _ _

/-- Arguments that make some choices, one after the other. After two dashes alone only the program
can follow, and then any text names it. -/
inductive SpellsAll : List Choice → List String → Prop where
  | nil : SpellsAll [] []
  | separator : SpellsAll [] ["--"]
  | separated {path : String} (he : path ≠ "") : SpellsAll [.program path] ["--", path]
  | cons {c : Choice} {cs : List Choice} {part rest : List String} (hc : Spells c part)
    (hr : SpellsAll cs rest) : SpellsAll (c :: cs) (part ++ rest)

theorem SpellsAll.lt_of_mem {cs : List Choice} {args : List String} (h : SpellsAll cs args)
    {o : Setting} {n : Nat} (hm : .setting o n ∈ cs) : n < UInt64.size := by
  induction h with
  | nil => contradiction
  | separator => contradiction
  | separated => cases List.mem_singleton.mp hm
  | cons hc _ ih =>
    rcases List.mem_cons.mp hm with rfl | hm
    · cases hc with
      | separate _ hv => exact readNumber_lt hv
      | attached _ hv => exact readNumber_lt hv
      | @switch w _ hw => cases w <;> cases hw
    · exact ih hm

end Befunge.CommandLine
