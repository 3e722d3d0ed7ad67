import Mathlib.Data.List.Basic
import Mathlib.Data.List.Forall2
import Diagnostics.CommandLine
import Diagnostics.Proofs.Text

/-! # The grammar of options

Options and groups of arguments are read one after the other, and the first failure ends the reading.

* **Attempts in order.**  All of them succeed, each for itself (`mapM_eq_ok_iff`), or there is a first one that fails,
  and it decides the failure (`mapM_eq_error_iff`).
* **Options.**  `Setting.Denotes argument setting` says what an argument sets.  Reading stops at the first option that
  sets nothing (`Options.parse_eq_error_iff`), so one such option anywhere is enough for the arguments to be refused
  (`Options.exists_parse_eq_error_iff`). -/

namespace Diagnostics

/-! ## Attempts in order -/

namespace CommandLine

section attempts
variable {α β ε : Type} {f : α → Except ε β} {l : List α} {e : ε}

theorem mapM_cons_eq_error_iff {a : α} :
    (a :: l).mapM f = .error e ↔ f a = .error e ∨ (∃ y, f a = .ok y) ∧ l.mapM f = .error e := by
  rw [List.mapM_cons]
  cases f a with
  | error e' => simp [bind, Except.bind]
  | ok y => cases l.mapM f <;> simp [bind, Except.bind, pure, Except.pure]

/-- Attempts that are made in order fail as the first one does that fails. -/
theorem mapM_eq_error_iff :
    l.mapM f = .error e ↔
      ∃ before a after, l = before ++ a :: after ∧ f a = .error e ∧ ∀ b ∈ before, ∃ y, f b = .ok y := by
  induction l with
  | nil => simp [pure, Except.pure]
  | cons a l ih =>
      rw [mapM_cons_eq_error_iff, ih]
      constructor
      · rintro (ha | ⟨ha, before, b, after, rfl, hb, hbefore⟩)
        · exact ⟨[], a, l, rfl, ha, by simp⟩
        · exact ⟨a :: before, b, after, rfl, hb, List.forall_mem_cons.2 ⟨ha, hbefore⟩⟩
      · rintro ⟨before, b, after, h, hb, hbefore⟩
        cases before with
        | nil =>
            obtain ⟨rfl, -⟩ := List.cons.inj h
            exact .inl hb
        | cons c before =>
            obtain ⟨rfl, rfl⟩ := List.cons.inj h
            obtain ⟨ha, hbefore'⟩ := List.forall_mem_cons.1 hbefore
            exact .inr ⟨ha, before, b, after, rfl, hb, hbefore'⟩

/-- Attempts succeed together exactly if each of them does, in order. -/
theorem mapM_eq_ok_iff {ys : List β} : l.mapM f = .ok ys ↔ List.Forall₂ (fun a y => f a = .ok y) l ys := by
  induction l generalizing ys with
  | nil => cases ys <;> simp [pure, Except.pure]
  | cons a l ih =>
      rw [List.mapM_cons, List.forall₂_cons_left_iff]
      simp only [← ih]
      cases f a with
      | error e => simp [bind, Except.bind]
      | ok y => cases l.mapM f <;> simp [bind, Except.bind, pure, Except.pure, eq_comm]

/-- Attempts that are made in order fail exactly if one of them does. -/
theorem exists_mapM_eq_error_iff : (∃ e, l.mapM f = .error e) ↔ ∃ a ∈ l, ∃ e, f a = .error e := by
  induction l with
  | nil => simp [pure, Except.pure]
  | cons a l ih =>
      simp only [mapM_cons_eq_error_iff, exists_or, exists_and_left, ih, List.exists_mem_cons_iff]
      cases f a <;> simp

end attempts

/-! ## The grammar of options -/

/-! ### Single options -/

namespace Setting

/-- An argument is an option that sets something. -/
inductive Denotes : String → Setting → Prop
  | warningsOff : Denotes "--woff" warningsOff
  | debug : Denotes "--debug" debug
  | performance : Denotes "--wperf" performance
  | plain : Denotes "--nowrap" plain
  | columns (value : String) (n : Nat) :
      Numeral.Spells value.toList n → n ≤ Count.limit → Denotes ("--columns=" ++ value) (columns n)
  | directory (name : String) : Denotes ("--cwd=" ++ name) (directory name)

theorem value?_eq_some_iff {name argument : String} {value : List Char} :
    value? name argument = some value ↔ argument = name ++ String.ofList value := by
  rw [value?, List.isPrefixOf?_eq_some_iff_append_eq, ← String.toList_inj]
  simp [eq_comm]

theorem value?_append (name value : String) : value? name (name ++ value) = some value.toList :=
  value?_eq_some_iff.2 (by simp)

theorem value?_eq_none_iff {name argument : String} :
    value? name argument = none ↔ ∀ value, argument ≠ name ++ value := by
  constructor
  · rintro h value rfl
    rw [value?_append] at h
    exact absurd h (by simp)
  · intro h
    exact Option.eq_none_iff_forall_ne_some.2 fun value hvalue => h _ (value?_eq_some_iff.1 hvalue)

/-- The options that set something without a value. -/
def flags : List String := ["--woff", "--debug", "--wperf", "--nowrap"]

theorem read_of_not_mem_flags {argument : String} (h : argument ∉ flags) :
    read argument =
      match value? "--columns=" argument with
      | some value =>
        match Numeral.count? value with
        | some count => .ok (.columns count)
        | none => .error (.badNumber .columns (String.ofList value))
      | none =>
        match value? "--cwd=" argument with
        | some name => .ok (.directory (String.ofList name))
        | none => .error (.unknownOption argument) := by
  unfold read
  split
  · exact absurd (by decide) h
  · exact absurd (by decide) h
  · exact absurd (by decide) h
  · exact absurd (by decide) h
  · rfl

theorem append_not_mem_flags {name : String} (h : ∀ flag ∈ flags, value? name flag = none) (value : String) :
    name ++ value ∉ flags :=
  fun hmem => value?_eq_none_iff.1 (h _ hmem) value rfl

theorem read_columns_of_spells {value : String} {n : Nat} (h : Numeral.Spells value.toList n) (hle : n ≤ Count.limit) :
    read ("--columns=" ++ value) = .ok (.columns n) := by
  have hcount : Numeral.count? value.toList = some n := Numeral.count?_eq_some_iff.2 ⟨h, hle⟩
  rw [read_of_not_mem_flags (append_not_mem_flags (by decide) value), value?_append]
  simp only [hcount]

theorem read_columns_of_forall_not {value : String} (h : ∀ n ≤ Count.limit, ¬ Numeral.Spells value.toList n) :
    read ("--columns=" ++ value) = .error (.badNumber .columns value) := by
  have hcount : Numeral.count? value.toList = none := Numeral.count?_eq_none_iff.2 h
  rw [read_of_not_mem_flags (append_not_mem_flags (by decide) value), value?_append]
  simp only [hcount, String.ofList_toList]

theorem read_directory (name : String) : read ("--cwd=" ++ name) = .ok (.directory name) := by
  have hcolumns : value? "--columns=" ("--cwd=" ++ name) = none := by simp [value?, List.isPrefixOf?]
  rw [read_of_not_mem_flags (append_not_mem_flags (by decide) name), hcolumns, value?_append]
  simp only [String.ofList_toList]

theorem read_eq_ok_iff {argument : String} {setting : Setting} :
    read argument = .ok setting ↔ Denotes argument setting := by
  constructor
  · intro h
    unfold read at h
    split at h
    · exact Except.ok.inj h ▸ .warningsOff
    · exact Except.ok.inj h ▸ .debug
    · exact Except.ok.inj h ▸ .performance
    · exact Except.ok.inj h ▸ .plain
    · split at h
      · next value hvalue =>
        split at h
        · next n hn =>
          obtain ⟨hspells, hle⟩ := Numeral.count?_eq_some_iff.1 hn
          rw [← Except.ok.inj h, value?_eq_some_iff.1 hvalue]
          exact .columns _ n (by simpa using hspells) hle
        · exact absurd h (by simp)
      · split at h
        · next name hname =>
          rw [← Except.ok.inj h, value?_eq_some_iff.1 hname]
          exact .directory _
        · exact absurd h (by simp)
  · intro h
    cases h with
    | warningsOff => rfl
    | debug => rfl
    | performance => rfl
    | plain => rfl
    | columns value n hspells hle => exact read_columns_of_spells hspells hle
    | directory name => exact read_directory name

/-- An argument that looks like an option and sets nothing. -/
def Malformed (argument : String) : Prop :=
  Options.isOption argument = true ∧ ∀ setting, ¬ Denotes argument setting

theorem exists_read_eq_error_iff {argument : String} :
    (∃ misuse, read argument = .error misuse) ↔ ∀ setting, ¬ Denotes argument setting := by
  simp only [← read_eq_ok_iff]
  cases read argument <;> simp

end Setting

/-! ### All options -/

namespace Options

/-- Options are misused as the first of them is that sets nothing. -/
theorem parse_eq_error_iff {arguments : List String} {misuse : Misuse} :
    parse arguments = .error misuse ↔
      ∃ before a after, arguments.filter isOption = before ++ a :: after ∧ Setting.read a = .error misuse ∧
        ∀ b ∈ before, ∃ setting, Setting.read b = .ok setting := by
  rw [← mapM_eq_error_iff, parse]
  cases (arguments.filter isOption).mapM Setting.read <;> simp [bind, Except.bind, pure, Except.pure]

/-- Arguments are refused for their options exactly if one of these is malformed. -/
theorem exists_parse_eq_error_iff {arguments : List String} :
    (∃ misuse, parse arguments = .error misuse) ↔ ∃ a ∈ arguments, Setting.Malformed a := by
  simp only [parse_eq_error_iff, ← mapM_eq_error_iff, exists_mapM_eq_error_iff, Setting.exists_read_eq_error_iff,
    List.mem_filter, Setting.Malformed, and_assoc]

end Options
end CommandLine

end Diagnostics
