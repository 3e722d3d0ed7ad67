import Mathlib.Data.List.Induction
import Diagnostics.Proofs.CommandLine.Options

/-! # Options among other arguments

Options may stand anywhere among the arguments, and where they stand changes nothing.

* **One pass** (`Options.take`).  The arguments can be read one after the other, up to the first option that is refused
  (`parse_eq_foldlM`).
* **What is read** (`Options.Tells`).  A flag counts wherever it stands, and a value counts if no other value of its sort
  follows.  Reading one more argument accounts for that argument (`Tells.take`), so a whole pass accounts for all of them
  (`tells_of_parse_eq_ok`).
* **Arguments in two parts** (`Options.merge`).  What the second part sets prevails over what the first part sets
  (`parse_append`). -/

namespace Diagnostics

namespace CommandLine

/-! ### Single options -/

namespace Setting

/-- An option is refused, and why. -/
inductive Offends : (argument : String) → Misuse → Prop
  | badColumns (value : String) :
      (∀ n ≤ Count.limit, ¬ Numeral.Spells value.toList n) →
      Offends ("--columns=" ++ value) (.badNumber .columns value)
  | unknown {argument : String} :
      argument ∉ flags → (∀ value, argument ≠ "--columns=" ++ value) → (∀ name, argument ≠ "--cwd=" ++ name) →
      Offends argument (.unknownOption argument)

variable {argument flag : String} {misuse : Misuse} {setting setting' : Setting}

theorem exists_read_of_mem_flags (h : argument ∈ flags) : ∃ setting, read argument = .ok setting := by
  simp only [flags, List.mem_cons, List.not_mem_nil, or_false] at h
  rcases h with rfl | rfl | rfl | rfl
  · exact ⟨_, read_eq_ok_iff.2 .warningsOff⟩
  · exact ⟨_, read_eq_ok_iff.2 .debug⟩
  · exact ⟨_, read_eq_ok_iff.2 .performance⟩
  · exact ⟨_, read_eq_ok_iff.2 .plain⟩

theorem read_eq_error_iff : read argument = .error misuse ↔ Offends argument misuse := by
  constructor
  · intro h
    have hflags : argument ∉ flags := by
      intro hmem
      obtain ⟨setting, hread⟩ := exists_read_of_mem_flags hmem
      exact absurd (h.symm.trans hread) (by simp)
    rw [read_of_not_mem_flags hflags] at h
    split at h
    · next value hvalue =>
      split at h
      · exact absurd h (by simp)
      · next hcount =>
        rw [← Except.error.inj h, value?_eq_some_iff.1 hvalue]
        exact .badColumns _ (by simpa using Numeral.count?_eq_none_iff.1 hcount)
    · next hcolumns =>
      split at h
      · exact absurd h (by simp)
      · next hdirectory =>
        rw [← Except.error.inj h]
        exact .unknown hflags (value?_eq_none_iff.1 hcolumns) (value?_eq_none_iff.1 hdirectory)
  · intro h
    cases h with
    | badColumns value hvalue => exact read_columns_of_forall_not hvalue
    | unknown hflags hcolumns hdirectory =>
        rw [read_of_not_mem_flags hflags, value?_eq_none_iff.2 hcolumns, value?_eq_none_iff.2 hdirectory]

theorem Denotes.unique (h : Denotes argument setting) (h' : Denotes argument setting') : setting = setting' :=
  Except.ok.inj ((read_eq_ok_iff.2 h).symm.trans (read_eq_ok_iff.2 h'))

/-- A flag is among some arguments if one of them sets what only the flag sets. -/
theorem Denotes.mem_concat_iff {arguments : List String} (h : Denotes argument setting)
    (hflag : Denotes flag setting') (honly : ∀ a, Denotes a setting' → a = flag) :
    flag ∈ arguments ++ [argument] ↔ flag ∈ arguments ∨ setting = setting' := by
  have hargument : argument = flag ↔ setting = setting' := by
    constructor
    · rintro rfl
      exact h.unique hflag
    · rintro rfl
      exact honly argument h
  rw [List.mem_append, List.mem_singleton, eq_comm, hargument]

theorem Denotes.isOption (h : Denotes argument setting) : Options.isOption argument = true := by
  cases h with
  | warningsOff => decide
  | debug => decide
  | performance => decide
  | plain => decide
  | columns value n _ _ => simp [Options.isOption, List.isPrefixOf, ← String.toList_inj]
  | directory name => simp [Options.isOption, List.isPrefixOf, ← String.toList_inj]

/-- `x` is what the last of the arguments sets that sets anything of one sort. -/
def Last {β : Type} (sort : β → Setting) (arguments : List String) (x : β) : Prop :=
  ∃ before a after, arguments = before ++ a :: after ∧ Denotes a (sort x) ∧ ∀ b ∈ after, ∀ y, ¬ Denotes b (sort y)

theorem last_concat_iff {β : Type} {sort : β → Setting} {arguments : List String} {a : String} {x : β} :
    Last sort (arguments ++ [a]) x ↔ Denotes a (sort x) ∨ (∀ y, ¬ Denotes a (sort y)) ∧ Last sort arguments x := by
  constructor
  · rintro ⟨before, b, after, h, hb, hafter⟩
    rcases List.eq_nil_or_concat after with rfl | ⟨after, c, rfl⟩
    · obtain ⟨-, hlast⟩ := List.append_inj' h rfl
      exact .inl (List.singleton_inj.1 hlast ▸ hb)
    · rw [List.concat_eq_append, List.forall_mem_append, List.forall_mem_singleton] at hafter
      have hconcat : arguments ++ [a] = (before ++ b :: after) ++ [c] := by simpa using h
      obtain ⟨hinit, hlast⟩ := List.append_inj' hconcat rfl
      exact .inr ⟨List.singleton_inj.1 hlast ▸ hafter.2, before, b, after, hinit, hb, hafter.1⟩
  · rintro (ha | ⟨ha, before, b, after, rfl, hb, hafter⟩)
    · exact ⟨arguments, a, [], rfl, ha, List.forall_mem_nil _⟩
    · refine ⟨before, b, after ++ [a], by rw [List.append_assoc, List.cons_append], hb, ?_⟩
      rw [List.forall_mem_append, List.forall_mem_singleton]
      exact ⟨hafter, ha⟩

end Setting

/-! ### All options -/

namespace Options

/-- What is read of some arguments and one more. -/
def take (read : Options × List String) (argument : String) : Except Misuse (Options × List String) :=
  if isOption argument then (Setting.read argument).map fun setting => (read.1.set setting, read.2)
  else .ok (read.1, read.2 ++ [argument])

/-- Options that are set by some arguments and then by others. -/
def merge (first second : Options) : Options where
  warningsOff := first.warningsOff || second.warningsOff
  debug := first.debug || second.debug
  performance := first.performance || second.performance
  plain := first.plain || second.plain
  columns := second.columns.or first.columns
  directory := second.directory.or first.directory

/-- The options say what some arguments set. -/
structure Tells (arguments : List String) (options : Options) : Prop where
  warningsOff : options.warningsOff = true ↔ "--woff" ∈ arguments
  debug : options.debug = true ↔ "--debug" ∈ arguments
  performance : options.performance = true ↔ "--wperf" ∈ arguments
  plain : options.plain = true ↔ "--nowrap" ∈ arguments
  columns : ∀ n, options.columns = some n ↔ Setting.Last .columns arguments n
  directory : ∀ name, options.directory = some name ↔ Setting.Last .directory arguments name

/-! ### One pass -/

theorem parse_concat (arguments : List String) (a : String) :
    parse (arguments ++ [a]) = parse arguments >>= fun read => take read a := by
  simp only [parse, take, List.filter_append, List.mapM_append]
  cases h : isOption a with
  | false => cases (arguments.filter isOption).mapM Setting.read <;> simp [h, bind, Except.bind, pure, Except.pure]
  | true =>
      cases (arguments.filter isOption).mapM Setting.read with
      | error misuse => rfl
      | ok settings => cases hread : Setting.read a <;> simp [h, hread, bind, Except.bind, pure, Except.pure, Except.map]

/-- The arguments can be read one after the other. -/
theorem parse_eq_foldlM (arguments : List String) : parse arguments = arguments.foldlM take ({}, []) := by
  induction arguments using List.reverseRecOn with
  | nil => rfl
  | append_singleton arguments a ih =>
      rw [parse_concat, ih, List.foldlM_append]
      simp

variable {arguments : List String} {options options' : Options} {rest rest' : List String} {a : String}

namespace Tells

theorem start : Tells [] {} := by
  constructor <;> simp [Setting.Last]

section denotes
variable {setting : Setting} (ha : Setting.Denotes a setting)
include ha

theorem last_concat_of_denotes {β : Type} {sort : β → Setting} {value? : Option β}
    (hvalue : ∀ x, value? = some x ↔ Setting.Last sort arguments x) (x : β) :
    Setting.Last sort (arguments ++ [a]) x ↔ setting = sort x ∨ (∀ y, setting ≠ sort y) ∧ value? = some x := by
  have hsort (y : β) : Setting.Denotes a (sort y) ↔ setting = sort y := ⟨ha.unique, fun e => e ▸ ha⟩
  simp only [Setting.last_concat_iff, hsort, hvalue]

theorem concat_of_denotes (h : Tells arguments options) : Tells (arguments ++ [a]) (options.set setting) where
  warningsOff := by
    rw [ha.mem_concat_iff .warningsOff fun _ h => by cases h; rfl, ← h.warningsOff]
    cases setting <;> simp [set]
  debug := by
    rw [ha.mem_concat_iff .debug fun _ h => by cases h; rfl, ← h.debug]
    cases setting <;> simp [set]
  performance := by
    rw [ha.mem_concat_iff .performance fun _ h => by cases h; rfl, ← h.performance]
    cases setting <;> simp [set]
  plain := by
    rw [ha.mem_concat_iff .plain fun _ h => by cases h; rfl, ← h.plain]
    cases setting <;> simp [set]
  columns n := by
    rw [last_concat_of_denotes ha h.columns]
    cases setting <;> simp [set]
  directory name := by
    rw [last_concat_of_denotes ha h.directory]
    cases setting <;> simp [set]

end denotes

theorem concat_of_not_isOption (h : Tells arguments options) (ha : isOption a = false) :
    Tells (arguments ++ [a]) options := by
  have hflag (flag : String) (hflag : isOption flag = true) : flag ∈ arguments ++ [a] ↔ flag ∈ arguments := by
    have hne : flag ≠ a := by
      rintro rfl
      exact absurd (hflag.symm.trans ha) (by decide)
    rw [List.mem_append, List.mem_singleton, or_iff_left hne]
  have hlast {β : Type} (sort : β → Setting) (x : β) :
      Setting.Last sort (arguments ++ [a]) x ↔ Setting.Last sort arguments x := by
    have hnone (y : β) : ¬ Setting.Denotes a (sort y) := by
      intro hdenotes
      exact absurd (hdenotes.isOption.symm.trans ha) (by decide)
    rw [Setting.last_concat_iff, or_iff_right (hnone x), and_iff_right hnone]
  constructor
  · rw [hflag "--woff" (by decide), h.warningsOff]
  · rw [hflag "--debug" (by decide), h.debug]
  · rw [hflag "--wperf" (by decide), h.performance]
  · rw [hflag "--nowrap" (by decide), h.plain]
  · intro n
    rw [hlast, h.columns]
  · intro name
    rw [hlast, h.directory]

theorem take (h : Tells arguments options) (htake : Options.take (options, rest) a = .ok (options', rest')) :
    Tells (arguments ++ [a]) options' := by
  unfold Options.take at htake
  split at htake
  · cases hread : Setting.read a with
    | error misuse => simp [hread, Except.map] at htake
    | ok setting =>
        rw [hread] at htake
        obtain ⟨rfl, -⟩ := Prod.mk.inj (Except.ok.inj htake)
        exact h.concat_of_denotes (Setting.read_eq_ok_iff.1 hread)
  · next hoption =>
    obtain ⟨rfl, -⟩ := Prod.mk.inj (Except.ok.inj htake)
    exact h.concat_of_not_isOption (Bool.eq_false_iff.2 hoption)

theorem unique (h : Tells arguments options) (h' : Tells arguments options') : options = options' := by
  obtain ⟨warningsOff, debug, performance, plain, columns, directory⟩ := options
  obtain ⟨warningsOff', debug', performance', plain', columns', directory'⟩ := options'
  have hw := Bool.eq_iff_iff.2 (h.warningsOff.trans h'.warningsOff.symm)
  have hd := Bool.eq_iff_iff.2 (h.debug.trans h'.debug.symm)
  have hp := Bool.eq_iff_iff.2 (h.performance.trans h'.performance.symm)
  have hn := Bool.eq_iff_iff.2 (h.plain.trans h'.plain.symm)
  have hc := Option.ext fun n => (h.columns n).trans (h'.columns n).symm
  have hf := Option.ext fun name => (h.directory name).trans (h'.directory name).symm
  simp only at hw hd hp hn hc hf
  rw [hw, hd, hp, hn, hc, hf]

end Tells

theorem tells_of_parse_eq_ok (h : parse arguments = .ok (options, rest)) : Tells arguments options := by
  induction arguments using List.reverseRecOn generalizing options rest with
  | nil =>
      obtain ⟨rfl, -⟩ := Prod.mk.inj (Except.ok.inj h)
      exact .start
  | append_singleton arguments a ih =>
      rw [parse_concat] at h
      cases hparse : parse arguments with
      | error misuse => simp [hparse, bind, Except.bind] at h
      | ok read =>
          rw [hparse] at h
          exact (ih hparse).take h

theorem rest_of_parse_eq_ok (h : parse arguments = .ok (options, rest)) : rest = arguments.filter (!isOption ·) := by
  unfold parse at h
  cases hsettings : (arguments.filter isOption).mapM Setting.read with
  | error misuse => simp [hsettings, bind, Except.bind] at h
  | ok settings =>
      rw [hsettings] at h
      exact (Prod.mk.inj (Except.ok.inj h)).2.symm

theorem parse_eq_ok_iff :
    parse arguments = .ok (options, rest) ↔
      (∀ a ∈ arguments, ¬ Setting.Malformed a) ∧ Tells arguments options ∧ rest = arguments.filter (!isOption ·) := by
  constructor
  · intro h
    refine ⟨fun a ha hmalformed => ?_, tells_of_parse_eq_ok h, rest_of_parse_eq_ok h⟩
    obtain ⟨misuse, herror⟩ := exists_parse_eq_error_iff.2 ⟨a, ha, hmalformed⟩
    exact absurd (h.symm.trans herror) (by simp)
  · rintro ⟨hwell, htells, rfl⟩
    cases hparse : parse arguments with
    | error misuse =>
        obtain ⟨a, ha, hmalformed⟩ := exists_parse_eq_error_iff.1 ⟨misuse, hparse⟩
        exact absurd hmalformed (hwell a ha)
    | ok read =>
        obtain ⟨options', rest'⟩ := read
        rw [(tells_of_parse_eq_ok hparse).unique htells, rest_of_parse_eq_ok hparse]

/-- The first option that is malformed decides the misuse. -/
theorem parse_eq_error_iff_offends {misuse : Misuse} :
    parse arguments = .error misuse ↔
      ∃ before a after, arguments = before ++ a :: after ∧ isOption a = true ∧ Setting.Offends a misuse ∧
        ∀ b ∈ before, ¬ Setting.Malformed b := by
  rw [parse_eq_error_iff]
  constructor
  · rintro ⟨before, a, after, hfilter, hread, hbefore⟩
    obtain ⟨first, last, rfl, rfl, hlast⟩ := List.filter_eq_append_iff.1 hfilter
    obtain ⟨others, more, rfl, hothers, ha, -⟩ := List.filter_eq_cons_iff.1 hlast
    refine ⟨first ++ others, a, more, (List.append_assoc ..).symm, ha, Setting.read_eq_error_iff.1 hread, ?_⟩
    intro b hb hmalformed
    rcases List.mem_append.1 hb with hb | hb
    · obtain ⟨setting, hsetting⟩ := hbefore b (List.mem_filter.2 ⟨hb, hmalformed.1⟩)
      exact hmalformed.2 setting (Setting.read_eq_ok_iff.1 hsetting)
    · exact hothers b hb hmalformed.1
  · rintro ⟨before, a, after, rfl, ha, hoffends, hbefore⟩
    refine ⟨before.filter isOption, a, after.filter isOption, ?_, Setting.read_eq_error_iff.2 hoffends, ?_⟩
    · rw [List.filter_append, List.filter_cons_of_pos ha]
    · intro b hb
      obtain ⟨hmem, hoption⟩ := List.mem_filter.1 hb
      cases hread : Setting.read b with
      | ok setting => exact ⟨setting, rfl⟩
      | error misuse =>
          have hmalformed : Setting.Malformed b :=
            ⟨hoption, Setting.exists_read_eq_error_iff.1 ⟨misuse, hread⟩⟩
          exact absurd hmalformed (hbefore b hmem)

theorem parse_congr {arguments' : List String} (hoptions : arguments'.filter isOption = arguments.filter isOption)
    (hothers : arguments'.filter (!isOption ·) = arguments.filter (!isOption ·)) :
    parse arguments' = parse arguments := by
  rw [parse, parse, hoptions, hothers]

/-! ### Two parts -/

theorem set_merge (first second : Options) (setting : Setting) :
    (first.merge second).set setting = first.merge (second.set setting) := by
  cases setting <;> simp [set, merge]

theorem merge_default (options : Options) : options.merge {} = options := by
  simp [merge]

theorem foldl_set (options : Options) (settings : List Setting) :
    settings.foldl set options = options.merge (settings.foldl set {}) := by
  induction settings using List.reverseRecOn with
  | nil => exact options.merge_default.symm
  | append_singleton settings setting ih => rw [List.foldl_concat, List.foldl_concat, ih, set_merge]

theorem parse_append (xs ys : List String) :
    parse (xs ++ ys) = do
      let first ← parse xs
      let second ← parse ys
      return (first.1.merge second.1, first.2 ++ second.2) := by
  simp only [parse, List.filter_append, List.mapM_append]
  cases (xs.filter isOption).mapM Setting.read with
  | error misuse => rfl
  | ok settings =>
      cases (ys.filter isOption).mapM Setting.read with
      | error misuse => rfl
      | ok settings' => simp [bind, Except.bind, pure, Except.pure, ← foldl_set]

/-- **What some arguments choose.**  They are read in one pass, and only the order of the options among themselves and of
the other arguments among themselves matters.  They are refused exactly if an option is malformed, and the first such
option says why; otherwise the other arguments are kept in order, every flag counts wherever it stands, and of several
values of one sort the last one counts.  Arguments in two parts are refused as the first part is or else as the second
one is, and otherwise what the second part sets prevails. -/
theorem choices_of_arguments (arguments : List String) :
    parse arguments = arguments.foldlM take ({}, []) ∧
      (∀ arguments', arguments'.filter isOption = arguments.filter isOption →
        arguments'.filter (!isOption ·) = arguments.filter (!isOption ·) → parse arguments' = parse arguments) ∧
      ((∃ misuse, parse arguments = .error misuse) ↔ ∃ a ∈ arguments, Setting.Malformed a) ∧
      (∀ misuse, parse arguments = .error misuse ↔
        ∃ before a after, arguments = before ++ a :: after ∧ isOption a = true ∧ Setting.Offends a misuse ∧
          ∀ b ∈ before, ¬ Setting.Malformed b) ∧
      (∀ options rest, parse arguments = .ok (options, rest) ↔
        (∀ a ∈ arguments, ¬ Setting.Malformed a) ∧ Tells arguments options ∧
          rest = arguments.filter (!isOption ·)) ∧
      ∀ more, parse (arguments ++ more) = do
        let first ← parse arguments
        let second ← parse more
        return (first.1.merge second.1, first.2 ++ second.2) := by
  refine ⟨parse_eq_foldlM arguments, fun _ => parse_congr, exists_parse_eq_error_iff, fun misuse => ?_,
    fun options rest => ?_, parse_append arguments⟩
  · exact parse_eq_error_iff_offends
  · exact parse_eq_ok_iff

/-- The later of two column counts stays when the other arguments come last. -/
theorem choices_of_late_options :
    let arguments := ["report", "--columns=+007", "--", "--woff", "--cwd=", "-", "--columns=9"]
    let arguments' := ["--columns=+007", "--woff", "--cwd=", "--columns=9", "report", "--", "-"]
    arguments'.filter isOption = arguments.filter isOption ∧
      arguments'.filter (!isOption ·) = arguments.filter (!isOption ·) ∧
      parse arguments' = parse arguments ∧
      parse arguments = .ok ({ warningsOff := true, columns := some 9, directory := some "" }, ["report", "--", "-"]) ∧
      parse (arguments ++ ["--x", "--columns="]) = .error (.unknownOption "--x") := by
  intro arguments arguments'
  have hoptions : arguments'.filter isOption = arguments.filter isOption := by decide
  have hothers : arguments'.filter (!isOption ·) = arguments.filter (!isOption ·) := by decide
  obtain ⟨-, hcongr, -⟩ := choices_of_arguments arguments
  exact ⟨hoptions, hothers, hcongr arguments' hoptions hothers, by decide, by decide⟩

end Options
end CommandLine

end Diagnostics
