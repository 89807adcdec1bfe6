import Befunge.Proofs.Scanning

/-! A command line is read as a request exactly when its arguments spell choices on different
subjects, in any order, and then the request asks for these choices and for nothing else. -/

namespace Befunge.CommandLine

namespace Scan

variable {s t : Scan} {r q : Request} {b : Bool} {text : String} {args : List String}

/-- After one more choice, the scan holds it along with what it held before. -/
theorem Stands.arguments_of_spells {c : Choice} {part : List String} (h : s.Stands r false)
    (hc : Spells c part) (hn : r.answer c.subject = none) (rest : List String) :
    ∃ t : Scan, t.Stands (c.apply r) false ∧ s.arguments (part ++ rest) = t.arguments rest := by
  cases hc with
  | @separate o v n hv =>
    have hr := Request.assign_eq_ok_iff.mpr ⟨hn, n, hv, rfl⟩
    refine ⟨⟨r, some (.setting o (some v)), false⟩, stands_setting hr, ?_⟩
    have ho : s.argument o.flag = .ok (some ⟨r, some (.setting o none), false⟩) := by
      rw [h.argument_long (Shape.ofArgument_flag o), long_setting]
      rfl
    rw [List.cons_append, arguments_cons ho]
    refine arguments_cons ?_ rest
    simp only [argument, Shape.ofArgument_of_readNumber hv]
    rfl
  | @attached o v n hv =>
    have hr := Request.assign_eq_ok_iff.mpr ⟨hn, n, hv, rfl⟩
    refine ⟨_, stands_settled _ _, arguments_cons ?_ rest⟩
    have hs : Scan.setting ⟨r, none, false⟩ o (some v) = .ok ⟨_, none, false⟩ :=
      (stands_setting hr).settle
    rw [h.argument_long (Shape.ofArgument_attached o v), long_setting, hs]
    rfl
  | @switch w _ hw =>
    refine ⟨_, stands_settled _ _, arguments_cons ?_ rest⟩
    rw [h.argument_long (Shape.ofArgument_switch w), long_switch]
    exact switch_eq_ok_iff.mpr ⟨c, hw, hn, rfl⟩
  | letter =>
    have ht : Shape.ofArgument "-v" = .letters ['v'] := rfl
    refine ⟨_, stands_settled _ _, arguments_cons ?_ rest⟩
    rw [h.argument_letters ht, letters, switch_eq_ok_iff.mpr ⟨.verbose, rfl, hn, rfl⟩]
    rfl
  | program he hd =>
    refine ⟨_, stands_program he, arguments_cons ?_ rest⟩
    have hp : r.program = none := Request.answer_program_eq_none_iff.mp hn
    rw [h.argument_plain (Shape.ofArgument_eq_plain_iff.mpr hd), hp]
    rfl

/-- Choices on subjects that nothing has been asked for yet are all taken up. -/
theorem Stands.arguments_of_spellsAll {cs : List Choice} (h : s.Stands r false)
    (hc : SpellsAll cs args) (ha : r.Admits cs) :
    s.arguments args = .ok (.run (cs.foldl Choice.apply r)) := by
  induction hc generalizing s r with
  | nil => exact arguments_nil_eq_run_iff.mpr ⟨_, h.settle, rfl⟩
  | separator =>
    rw [arguments_cons h.argument_separator]
    exact h.separator.arguments_after_separator.mpr (.inl ⟨rfl, rfl⟩)
  | @separated path he =>
    have hp : r.program = none :=
      Request.answer_program_eq_none_iff.mp (Request.admits_cons.mp ha).1
    rw [arguments_cons h.argument_separator]
    exact h.separator.arguments_after_separator.mpr (.inr ⟨path, rfl, he, hp, rfl⟩)
  | cons hc _ ih =>
    obtain ⟨hn, ht⟩ := Request.admits_cons.mp ha
    obtain ⟨t, hs, he⟩ := h.arguments_of_spells hc hn _
    rw [he, List.foldl_cons]
    exact ih hs ht

section

variable {fault : OptionFault} (h : s.settle = .error fault)
include h

theorem plain_of_settle_error (text : String) : ∃ fault', s.plain text = .error fault' := by
  cases hp : s.hasProgram with
  | true => exact ⟨_, plain_of_hasProgram hp text⟩
  | false =>
    refine ⟨fault, ?_⟩
    simp only [plain, hp, h]
    rfl

theorem switch_of_settle_error (w : Switch) : s.switch w = .error fault := by
  rw [switch, h]
  rfl

theorem setting_of_settle_error (o : Setting) (attached : Option String) :
    s.setting o attached = .error fault := by
  rw [setting, h]
  rfl

theorem long_of_settle_error (name : String) (attached : Option String) :
    ∃ fault', s.long name attached = .error fault' := by
  unfold long
  simp only [setting_of_settle_error h, switch_of_settle_error h]
  split <;> cases attached <;> exact ⟨_, rfl⟩

theorem letters_of_settle_error (c : Char) (cs : List Char) :
    ∃ fault', s.letters (c :: cs) = .error fault' := by
  rw [letters.eq_def]
  simp only [switch_of_settle_error h]
  split
  case h_1 hc => cases hc
  all_goals exact ⟨_, rfl⟩

theorem argument_of_settle_error
    (hu : ∀ o, s.unsettled = some (.setting o none) → s.afterSeparator = true) (text : String) :
    s.argument text = .ok (some { s with afterSeparator := true }) ∨
      ∃ fault', s.argument text = .error fault' := by
  obtain ⟨fault', hp⟩ := plain_of_settle_error h text
  cases ha : s.afterSeparator with
  | true => exact .inr ⟨fault', by rw [argument_after_separator ha, hp]; rfl⟩
  | false =>
    have hn : ∀ o, s.unsettled ≠ some (.setting o none) := fun o ho =>
      absurd (hu o ho) (by rw [ha]; exact Bool.false_ne_true)
    simp only [argument, ha, hp]
    cases hs : Shape.ofArgument text with
    | separator => exact .inl rfl
    | long name attached => exact .inr (long_of_settle_error h name attached)
    | letters cs =>
      obtain ⟨c, cs, rfl⟩ :=
        List.exists_cons_of_ne_nil (Shape.eq_of_ofArgument_eq_letters hs).2
      exact .inr (letters_of_settle_error h c cs)
    | plain => exact .inr ⟨fault', rfl⟩

theorem arguments_of_settle_error
    (hu : ∀ o, s.unsettled = some (.setting o none) → s.afterSeparator = true) :
    s.arguments args ≠ .ok (.run q) := by
  induction args generalizing s fault with
  | nil =>
    rw [Ne, arguments_nil_eq_run_iff, h]
    nofun
  | cons text args ih =>
    rw [Ne, arguments_cons_eq_run_iff]
    rintro ⟨t, ht, hr⟩
    rcases argument_of_settle_error h hu text with hs | ⟨fault', hs⟩
    · rw [hs] at ht
      cases ht
      have he : Scan.settle { s with afterSeparator := true } = .error fault := by
        rw [settle_separator, h]
        rfl
      exact ih he (fun _ _ => rfl) hr
    · rw [hs] at ht
      contradiction

end

/-- A scan that ends well has nothing at fault among what it has not judged. -/
theorem exists_settle_of_arguments (h : s.arguments args = .ok (.run q))
    (hu : ∀ o, s.unsettled ≠ some (.setting o none)) : ∃ t, s.settle = .ok t := by
  cases hs : s.settle with
  | error => exact absurd h (arguments_of_settle_error hs fun o ho => absurd ho (hu o))
  | ok t => exact ⟨t, rfl⟩

/-- A setting without a value takes the next argument for it. -/
theorem exists_assign_of_arguments {o : Setting}
    (h : Scan.arguments ⟨r, some (.setting o none), false⟩ args = .ok (.run q)) :
    ∃ v rest p, args = v :: rest ∧ r.assign o v = .ok p ∧
      Scan.arguments ⟨r, some (.setting o (some v)), false⟩ rest = .ok (.run q) := by
  have he (b : Bool) : Scan.settle ⟨r, some (.setting o none), b⟩ = .error _ := rfl
  rcases args with _ | ⟨v, rest⟩
  · obtain ⟨t, ht, -⟩ := arguments_nil_eq_run_iff.mp h
    contradiction
  obtain ⟨t, ht, hr⟩ := arguments_cons_eq_run_iff.mp h
  simp only [argument] at ht
  cases hs : Shape.ofArgument v with
  | separator =>
    rw [hs] at ht
    cases ht
    exact absurd hr (arguments_of_settle_error (he true) fun _ _ => rfl)
  | long name attached =>
    obtain ⟨fault, hf⟩ := long_of_settle_error (he false) name attached
    rw [hs] at ht
    cases hf.symm.trans ht
  | letters cs =>
    obtain ⟨c, cs, rfl⟩ := List.exists_cons_of_ne_nil (Shape.eq_of_ofArgument_eq_letters hs).2
    obtain ⟨fault, hf⟩ := letters_of_settle_error (he false) c cs
    rw [hs] at ht
    cases hf.symm.trans ht
  | plain =>
    rw [hs] at ht
    cases ht
    obtain ⟨t, ht⟩ := exists_settle_of_arguments hr (by simp)
    obtain ⟨p, hp, -⟩ := settle_setting_eq_ok_iff.mp ht
    exact ⟨v, rest, p, rfl, hp, hr⟩

theorem letters_cons_eq_ok {c : Char} {cs : List Char}
    (h : Scan.letters ⟨r, none, b⟩ (c :: cs) = .ok (some t)) :
    c = 'v' ∧ r.answer .verbose = none ∧
      Scan.letters ⟨Choice.verbose.apply r, none, b⟩ cs = .ok (some t) := by
  by_cases hv : c = 'v'
  · subst hv
    rw [letters] at h
    cases hs : Scan.switch ⟨r, none, b⟩ .verbose with
    | error =>
      rw [hs] at h
      contradiction
    | ok next =>
      rw [hs] at h
      cases next with
      | none => cases h
      | some next =>
        obtain ⟨c, hc, hn, rfl⟩ := switch_eq_ok_iff.mp hs
        cases hc
        exact ⟨rfl, hn, h⟩
  by_cases hh : c = 'h'
  · subst hh
    rw [letters] at h
    obtain ⟨c, hc, -⟩ := switch_eq_ok_iff.mp h
    contradiction
  · simp only [letters] at h
    contradiction

/-- No letter but that of the verbose switch can stand, and it can stand only once. -/
theorem letters_eq_ok {c : Char} {cs : List Char}
    (h : Scan.letters ⟨r, none, b⟩ (c :: cs) = .ok (some t)) : c = 'v' ∧ cs = [] ∧
      r.answer .verbose = none ∧ t = ⟨Choice.verbose.apply r, none, b⟩ := by
  obtain ⟨hc, hr, ht⟩ := letters_cons_eq_ok h
  rcases cs with _ | ⟨d, cs⟩
  · cases ht
    exact ⟨hc, rfl, hr, rfl⟩
  · obtain ⟨-, hd, -⟩ := letters_cons_eq_ok ht
    contradiction

theorem long_eq_ok {name : String} {attached : Option String}
    (h : s.long name attached = .ok (some t)) :
    (∃ o : Setting, name = o.name ∧ s.setting o attached = .ok t) ∨
      ∃ w : Switch, name = w.name ∧ attached = none ∧ s.switch w = .ok (some t) := by
  have hs {o : Setting} (h : some <$> s.setting o attached = .ok (some t)) :
      s.setting o attached = .ok t := by
    cases ho : s.setting o attached <;> rw [ho] at h <;> cases h
    rfl
  cases attached with
  | none =>
    simp only [long] at h
    split at h
    case h_1 => exact .inl ⟨.seed, rfl, hs h⟩
    case h_2 => exact .inl ⟨.stepLimit, rfl, hs h⟩
    case h_3 => exact .inr ⟨.dump, rfl, rfl, h⟩
    case h_4 => exact .inr ⟨.verbose, rfl, rfl, h⟩
    case h_5 => exact .inr ⟨.help, rfl, rfl, h⟩
    case h_6 => contradiction
  | some v =>
    simp only [long] at h
    split at h
    case h_1 => exact .inl ⟨.seed, rfl, hs h⟩
    case h_2 => exact .inl ⟨.stepLimit, rfl, hs h⟩
    all_goals contradiction

/-- What an accepted command line begins with, when it is not the separator, is one more choice. -/
theorem Stands.exists_spells (h : s.Stands r false)
    (ha : s.arguments (text :: args) = .ok (.run q)) :
    text = "--" ∧ Scan.arguments { s with afterSeparator := true } args = .ok (.run q) ∨
      ∃ (c : Choice) (part rest : List String) (t : Scan), text :: args = part ++ rest ∧
        Spells c part ∧ r.answer c.subject = none ∧ t.Stands (c.apply r) false ∧
        t.arguments rest = .ok (.run q) := by
  obtain ⟨t, ht, hr⟩ := arguments_cons_eq_run_iff.mp ha
  cases hs : Shape.ofArgument text with
  | separator =>
    obtain rfl := Shape.ofArgument_eq_separator_iff.mp hs
    rw [h.argument_separator] at ht
    cases ht
    exact .inl ⟨rfl, hr⟩
  | long name attached =>
    have he := Shape.eq_of_ofArgument_eq_long hs
    rw [h.argument_long hs] at ht
    obtain ⟨o, rfl, ho⟩ | ⟨w, rfl, rfl, hw⟩ := long_eq_ok ht
    · rcases attached with _ | v
      · cases ho
        obtain ⟨v, rest, p, rfl, hp, hr⟩ := exists_assign_of_arguments hr
        obtain ⟨hn, n, hv, rfl⟩ := Request.assign_eq_ok_iff.mp hp
        refine .inr ⟨_, _, rest, _, ?_, .separate o hv, hn, stands_setting hp, hr⟩
        simp [he, Setting.flag]
      · obtain ⟨p, hp, rfl⟩ := settle_setting_eq_ok_iff.mp ho
        obtain ⟨hn, n, hv, rfl⟩ := Request.assign_eq_ok_iff.mp hp
        refine .inr ⟨_, _, args, _, ?_, .attached o hv, hn, stands_settled _ _, hr⟩
        simp [he, Setting.flag, String.append_assoc]
    · obtain ⟨c, hc, hn, rfl⟩ := switch_eq_ok_iff.mp hw
      refine .inr ⟨c, _, args, _, ?_, .switch hc, hn, stands_settled _ _, hr⟩
      simp [he, Switch.flag]
  | letters cs =>
    obtain ⟨he, hne⟩ := Shape.eq_of_ofArgument_eq_letters hs
    obtain ⟨c, cs, rfl⟩ := List.exists_cons_of_ne_nil hne
    rw [h.argument_letters hs] at ht
    obtain ⟨rfl, rfl, hn, rfl⟩ := letters_eq_ok ht
    have hd : text = "-v" := String.toList_inj.mp he
    exact .inr ⟨.verbose, _, args, _, by rw [hd]; rfl, .letter, hn, stands_settled _ _, hr⟩
  | plain =>
    rw [h.argument_plain hs] at ht
    cases hp : r.program with
    | some =>
      rw [hp] at ht
      contradiction
    | none =>
      rw [hp] at ht
      cases ht
      obtain ⟨t, ht⟩ := exists_settle_of_arguments hr (by simp)
      have he := (settle_program_eq_ok_iff.mp ht).1
      have hd := Shape.ofArgument_eq_plain_iff.mp hs
      exact .inr ⟨_, [text], args, _, rfl, .program he hd,
        Request.answer_program_eq_none_iff.mpr hp, stands_program he, hr⟩

theorem Stands.exists_spellsAll (h : s.Stands r false)
    (ha : s.arguments args = .ok (.run q)) :
    ∃ cs, SpellsAll cs args ∧ r.Admits cs ∧ cs.foldl Choice.apply r = q := by
  induction hl : args.length using Nat.strongRecOn generalizing s r args with
  | _ n ih =>
    rcases args with _ | ⟨text, args⟩
    · obtain ⟨t, ht, rfl⟩ := arguments_nil_eq_run_iff.mp ha
      cases h.settle.symm.trans ht
      exact ⟨[], .nil, Request.admits_nil r, rfl⟩
    rcases h.exists_spells ha with ⟨rfl, hr⟩ | ⟨c, part, rest, t, he, hc, hn, ht, hr⟩
    · rcases h.separator.arguments_after_separator.mp hr with ⟨rfl, rfl⟩ | ⟨path, rfl, hp, hn, rfl⟩
      · exact ⟨[], .separator, Request.admits_nil q, rfl⟩
      · have ha : r.Admits [.program path] := Request.admits_cons.mpr
          ⟨Request.answer_program_eq_none_iff.mpr hn, Request.admits_nil _⟩
        exact ⟨[.program path], .separated hp, ha, rfl⟩
    · have hlt : rest.length < n := by
        have := List.length_pos_iff.mpr hc.ne_nil
        rw [← hl, he, List.length_append]
        omega
      obtain ⟨cs, hs, hcs, rfl⟩ := ih _ hlt ht hr rfl
      exact ⟨c :: cs, he ▸ .cons hc hs, Request.admits_cons.mpr ⟨hn, hcs⟩, rfl⟩

theorem stands_start : start.Stands .default false := stands_settled _ _

end Scan

namespace Command

variable {args : List String} {cs : List Choice} {r : Request} {path : String}

theorem ofArguments_of_spellsAll (hs : SpellsAll cs args) (hd : (cs.map Choice.subject).Nodup) :
    ofArguments args = .ok (.run (cs.foldl Choice.apply .default)) :=
  Scan.stands_start.arguments_of_spellsAll hs (Request.admits_default hd)

/-- The command lines that are read as a request are those that spell choices on different
subjects. The request asks for these choices and for nothing else. -/
theorem ofArguments_eq_run_iff : ofArguments args = .ok (.run r) ↔
    ∃ cs, SpellsAll cs args ∧ (cs.map Choice.subject).Nodup ∧ ∀ c, r.Asks c ↔ c ∈ cs := by
  constructor
  · intro h
    obtain ⟨cs, hs, ⟨hd, -⟩, rfl⟩ := Scan.stands_start.exists_spellsAll h
    exact ⟨cs, hs, hd, fun c => Request.asks_foldl_default hd⟩
  · rintro ⟨cs, hs, hd, hr⟩
    have he : r = cs.foldl Choice.apply .default :=
      Request.eq_of_asks_iff fun c => (hr c).trans (Request.asks_foldl_default hd).symm
    rw [he, ofArguments_of_spellsAll hs hd]

theorem lt_of_asks (h : ofArguments args = .ok (.run r)) {o : Setting} {n : Nat}
    (hr : r.Asks (.setting o n)) : n < UInt64.size := by
  obtain ⟨cs, hs, -, hc⟩ := ofArguments_eq_run_iff.mp h
  exact hs.lt_of_mem ((hc _).mp hr)

section

variable (he : path ≠ "") (hd : path = "-" ∨ path.toList.head? ≠ some '-')
include he hd

theorem ofArguments_program :
    ofArguments [path] = .ok (.run { Request.default with program := some path }) :=
  ofArguments_of_spellsAll (.cons (.program he hd) .nil) (by simp)

theorem ofArguments_setting (o : Setting) {n : Nat} (hn : n < UInt64.size) :
    ofArguments [o.flag, Text.Decimal.text n, path] =
      .ok (.run ((Choice.setting o n).apply { Request.default with program := some path })) := by
  have hs : SpellsAll [.setting o n, .program path] [o.flag, Text.Decimal.text n, path] :=
    .cons (.separate o (readNumber_text hn)) (.cons (.program he hd) .nil)
  rw [ofArguments_of_spellsAll hs (by simp [Choice.subject])]
  cases o <;> rfl

end

example : ofArguments ["--step-limit", "3", "seven"] =
    .ok (.run ⟨some "seven", none, some 3, false, false⟩) := rfl

end Command

end Befunge.CommandLine
