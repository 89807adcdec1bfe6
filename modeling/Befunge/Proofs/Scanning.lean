import Befunge.Proofs.Choices

/-! What one argument does to a scan that holds a request. An argument that has been seen and not
judged counts as settled here: whatever comes next settles it. -/

namespace Befunge.CommandLine

section

variable {ε α β : Type} {e : ε} {x : Except ε α} {a : α} {b : β}

theorem bind_eq_ok_iff {f : α → Except ε β} :
    x >>= f = .ok b ↔ ∃ a, x = .ok a ∧ f a = .ok b := by
  cases x <;> simp [bind, Except.bind]

theorem map_eq_ok_iff {f : α → β} : f <$> x = .ok b ↔ ∃ a, x = .ok a ∧ f a = b := by
  cases x <;> simp [Functor.map, Except.map]

theorem pure_eq_ok_iff {a' : α} : (pure a : Except ε α) = .ok a' ↔ a = a' := by
  simp [pure, Except.pure]

theorem throw_ne_ok : (throw e : Except ε α) ≠ .ok a := nofun

end

namespace Shape

variable {text name : String}

theorem ofArgument_eq_separator_iff : ofArgument text = .separator ↔ text = "--" := by
  rw [← String.toList_inj, ofArgument]
  split
  case h_1 h => simp [h]
  case h_2 h =>
    dsimp only
    split <;> simp_all
  case h_3 hn _ h => simpa [h] using hn
  case h_4 h _ _ => simpa using h

theorem ofArgument_eq_plain_iff :
    ofArgument text = .plain ↔ text = "-" ∨ text.toList.head? ≠ some '-' := by
  rw [← String.toList_inj, ofArgument]
  split
  case h_1 h => simp [h]
  case h_2 h =>
    rw [h]
    dsimp only
    split <;> simp
  case h_3 h => simp [h]
  case h_4 h =>
    refine iff_of_true rfl ?_
    cases ht : text.toList with
    | nil => exact .inr nofun
    | cons c rest =>
      by_cases hc : c = '-'
      · subst hc
        cases rest with
        | nil => exact .inl rfl
        | cons d rest => exact absurd ht (h d rest)
      · exact .inr (by simpa using hc)

theorem ofArgument_of_readNumber {n : Nat} (h : readNumber text.toList = .ok n) :
    ofArgument text = .plain := by
  obtain ⟨digits, hv, hn, hd, -⟩ := readNumber_eq_ok_iff.mp h
  refine ofArgument_eq_plain_iff.mpr (.inr ?_)
  obtain ⟨c, rest, rfl⟩ := List.exists_cons_of_ne_nil hn
  rcases hv with hv | hv
  · rw [hv]
    intro hc
    have := hd c List.mem_cons_self
    cases hc
    contradiction
  · rw [hv]
    nofun

theorem ofArgument_flag (o : Setting) : ofArgument o.flag = .long o.name none := by
  cases o <;> rfl

theorem ofArgument_switch (w : Switch) : ofArgument w.flag = .long w.name none := by
  cases w <;> rfl

theorem ofArgument_attached (o : Setting) (v : String) :
    ofArgument (o.flag ++ "=" ++ v) = .long o.name (some v) := by
  cases o <;> simp [ofArgument, Setting.flag, Setting.name]

theorem eq_of_ofArgument_eq_long {attached : Option String}
    (h : ofArgument text = .long name attached) :
    text = "--" ++ name ++ attached.elim "" ("=" ++ ·) := by
  rw [ofArgument] at h
  split at h
  case h_1 => contradiction
  case h_2 rest _ ht =>
    have hs := (List.takeWhile_append_dropWhile (p := (· != '=')) (l := rest)).symm
    rw [← String.toList_inj, ht]
    dsimp only at h
    split at h
    case h_1 he =>
      rw [he] at hs
      cases h
      simpa using hs
    case h_2 c rest' he =>
      have hc := List.head?_dropWhile_not (· != '=') rest
      rw [he] at hs hc
      cases h
      simpa [show c = '=' by simpa using hc] using hs
  case h_3 => contradiction
  case h_4 => contradiction

theorem eq_of_ofArgument_eq_letters {cs : List Char} (h : ofArgument text = .letters cs) :
    text.toList = '-' :: cs ∧ cs ≠ [] := by
  rw [ofArgument] at h
  split at h
  case h_1 => contradiction
  case h_2 =>
    dsimp only at h
    split at h <;> contradiction
  case h_3 ht =>
    cases h
    exact ⟨ht, List.cons_ne_nil _ _⟩
  case h_4 => contradiction

end Shape

theorem Request.assign_eq_ok_iff {r q : Request} {o : Setting} {v : String} :
    r.assign o v = .ok q ↔ r.answer (.setting o) = none ∧
      ∃ n, readNumber v.toList = .ok n ∧ (Choice.setting o n).apply r = q := by
  cases o with
  | seed =>
    cases hs : r.seed <;> cases hv : readNumber v.toList <;>
      simp [assign, answer, hs, hv, Choice.apply, map_eq_ok_iff, bind_eq_ok_iff, pure_eq_ok_iff,
        throw_ne_ok]
  | stepLimit =>
    cases hs : r.stepLimit <;> cases hv : readNumber v.toList <;>
      simp [assign, answer, hs, hv, Choice.apply, map_eq_ok_iff, bind_eq_ok_iff, pure_eq_ok_iff,
        throw_ne_ok]

namespace Scan

variable {s t : Scan} {r q : Request} {b : Bool} {text : String} {args : List String}

/-- A scan that holds a request, whether or not its last argument has been judged, and that has
seen the separator or not. -/
structure Stands (s : Scan) (r : Request) (b : Bool) : Prop where
  afterSeparator : s.afterSeparator = b
  settle : s.settle = .ok ⟨r, none, b⟩
  hasProgram : s.hasProgram = r.program.isSome

theorem stands_settled (r : Request) (b : Bool) : Stands ⟨r, none, b⟩ r b := ⟨rfl, rfl, rfl⟩

theorem settle_setting_eq_ok_iff {o : Setting} {v : String} :
    Scan.settle ⟨r, some (.setting o (some v)), b⟩ = .ok t ↔
      ∃ q, r.assign o v = .ok q ∧ t = ⟨q, none, b⟩ := by
  simp [settle, map_eq_ok_iff, eq_comm (a := t)]

theorem stands_setting {o : Setting} {v : String} (h : r.assign o v = .ok q) :
    Stands ⟨r, some (.setting o (some v)), b⟩ q b := by
  refine ⟨rfl, settle_setting_eq_ok_iff.mpr ⟨q, h, rfl⟩, ?_⟩
  obtain ⟨-, n, -, rfl⟩ := Request.assign_eq_ok_iff.mp h
  cases o <;> rfl

theorem settle_program_eq_ok_iff : Scan.settle ⟨r, some (.program text), b⟩ = .ok t ↔
    text ≠ "" ∧ t = ⟨{ r with program := some text }, none, b⟩ := by
  rw [eq_comm (a := t)]
  by_cases ht : text = "" <;> simp [settle, ht, map_eq_ok_iff, pure_eq_ok_iff, throw_ne_ok]

theorem stands_program (h : text ≠ "") :
    Stands ⟨r, some (.program text), b⟩ { r with program := some text } b :=
  ⟨rfl, settle_program_eq_ok_iff.mpr ⟨h, rfl⟩, rfl⟩

/-- What has been seen is judged alike after the separator. -/
theorem settle_separator (s : Scan) : Scan.settle { s with afterSeparator := true } =
    s.settle.map fun t => { t with afterSeparator := true } := by
  rcases s with ⟨request, _ | ⟨o, _ | v⟩ | path, a⟩
  case none => rfl
  case setting.none => rfl
  case setting.some =>
    simp only [settle]
    cases request.assign o v <;> rfl
  case program =>
    simp only [settle]
    cases path.isEmpty <;> rfl

namespace Stands

theorem separator (h : s.Stands r b) : Stands { s with afterSeparator := true } r true := by
  refine ⟨rfl, ?_, h.hasProgram⟩
  rw [settle_separator, h.settle]
  rfl

theorem setting_eq (h : s.Stands r b) (o : Setting) (attached : Option String) :
    s.setting o attached = Scan.setting ⟨r, none, b⟩ o attached := by
  simp only [Scan.setting, h.settle]
  rfl

theorem switch_eq (h : s.Stands r b) (w : Switch) :
    s.switch w = Scan.switch ⟨r, none, b⟩ w := by
  simp only [Scan.switch, h.settle]
  rfl

theorem plain_eq (h : s.Stands r b) (text : String) : s.plain text =
    if r.program.isSome then .error (.unexpectedArgument text)
    else .ok ⟨r, some (.program text), b⟩ := by
  simp only [plain, h.hasProgram, h.settle]
  split <;> rfl

theorem unsettled_ne (h : s.Stands r b) (o : Setting) :
    s.unsettled ≠ some (.setting o none) := by
  intro ho
  have hs := h.settle
  rw [Scan.settle, ho] at hs
  contradiction

theorem argument_plain (h : s.Stands r false) (ht : Shape.ofArgument text = .plain) :
    s.argument text = if r.program.isSome then .error (.unexpectedArgument text)
      else .ok (some ⟨r, some (.program text), false⟩) := by
  simp only [argument, h.afterSeparator, ht, h.plain_eq]
  split
  next => contradiction
  split
  next o ho => exact absurd ho (h.unsettled_ne o)
  split <;> rfl

theorem argument_separator (h : s.Stands r false) :
    s.argument "--" = .ok (some { s with afterSeparator := true }) := by
  simp only [argument, h.afterSeparator]
  rfl

theorem argument_long (h : s.Stands r false) {name : String} {attached : Option String}
    (ht : Shape.ofArgument text = .long name attached) :
    s.argument text = Scan.long ⟨r, none, false⟩ name attached := by
  simp only [argument, h.afterSeparator, ht, long, h.setting_eq, h.switch_eq]
  rfl

theorem argument_letters (h : s.Stands r false) {c : Char} {cs : List Char}
    (ht : Shape.ofArgument text = .letters (c :: cs)) :
    s.argument text = Scan.letters ⟨r, none, false⟩ (c :: cs) := by
  simp only [argument, h.afterSeparator, ht]
  change s.letters (c :: cs) = _
  by_cases hv : c = 'v'
  · subst hv
    simp only [letters, h.switch_eq]
  by_cases hh : c = 'h'
  · subst hh
    simp only [letters, h.switch_eq]
  · simp only [letters]

end Stands

theorem arguments_nil_eq_run_iff :
    s.arguments [] = .ok (.run q) ↔ ∃ t, s.settle = .ok t ∧ t.request = q := by
  simp [arguments, map_eq_ok_iff]

theorem arguments_cons (h : s.argument text = .ok (some t)) (args : List String) :
    s.arguments (text :: args) = t.arguments args := by
  rw [arguments, h]
  rfl

theorem arguments_cons_eq_run_iff : s.arguments (text :: args) = .ok (.run q) ↔
    ∃ t, s.argument text = .ok (some t) ∧ t.arguments args = .ok (.run q) := by
  rw [arguments, bind_eq_ok_iff]
  constructor
  · rintro ⟨_ | t, ht, hr⟩
    · cases hr
    · exact ⟨t, ht, hr⟩
  · exact fun ⟨t, ht, hr⟩ => ⟨some t, ht, hr⟩

theorem argument_after_separator (h : s.afterSeparator = true) (text : String) :
    s.argument text = (s.plain text).map some := by
  simp only [argument, h]
  rfl

theorem plain_of_hasProgram (h : s.hasProgram = true) (text : String) :
    s.plain text = .error (.unexpectedArgument text) := by
  simp only [plain, h]
  rfl

/-- After the separator at most one more argument is taken, the program. -/
theorem Stands.arguments_after_separator (h : s.Stands r true) :
    s.arguments args = .ok (.run q) ↔ args = [] ∧ q = r ∨
      ∃ path, args = [path] ∧ path ≠ "" ∧ r.program = none ∧
        q = { r with program := some path } := by
  rcases args with _ | ⟨path, rest⟩
  · simp [arguments_nil_eq_run_iff, h.settle, eq_comm (a := q)]
  rw [arguments_cons_eq_run_iff, argument_after_separator h.afterSeparator, h.plain_eq]
  cases hp : r.program with
  | some => simp [Except.map]
  | none =>
    rcases rest with _ | ⟨text, rest⟩
    · simp [Except.map, arguments_nil_eq_run_iff, settle_program_eq_ok_iff, and_assoc,
        eq_comm (a := q)]
    · have ha : Scan.argument ⟨r, some (.program path), true⟩ text =
          .error (.unexpectedArgument text) := by
        rw [argument_after_separator rfl, plain_of_hasProgram rfl]
        rfl
      simp [Except.map, arguments_cons_eq_run_iff, ha]

theorem switch_eq_ok_iff {w : Switch} : Scan.switch ⟨r, none, b⟩ w = .ok (some t) ↔
    ∃ c, w.choice? = some c ∧ r.answer c.subject = none ∧ t = ⟨c.apply r, none, b⟩ := by
  rcases r with ⟨p, n, l, _ | _, _ | _⟩ <;> cases w <;>
    simp [switch, settle, Switch.choice?, Choice.subject, Choice.apply, Request.answer,
      map_eq_ok_iff, pure_eq_ok_iff, throw_ne_ok, eq_comm (a := t)]

theorem long_setting (s : Scan) (o : Setting) (attached : Option String) :
    s.long o.name attached = some <$> s.setting o attached := by
  cases o <;> rfl

theorem long_switch (s : Scan) (w : Switch) : s.long w.name none = s.switch w := by
  cases w <;> rfl

end Scan

end Befunge.CommandLine
