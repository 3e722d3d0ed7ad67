import Diagnostics.Proofs.CommandLine.Messages
import Diagnostics.Proofs.Session.Transcript
import Diagnostics.Proofs.SourceName
import Diagnostics.Proofs.Spelling.Bound

/-! # How the program ends

The arguments alone tell how the program ends, up to the directory that it runs in.

* **Misuse** (`Misused`).  Either an option is malformed, or a command refuses its operands (`Refuses`).  There is one
  misuse at most (`Misused.unique`).
* **Failure** (`Fails`).  A command runs, and an error is among the reports or no candidate is near the query.
* **Abort** (`Unlocated`).  The one operand of `split` has no location.

Every other command succeeds (`status?_of_forall_not`).  A misuse and an abort are found before anything is written, so
nothing but their own text is (`run_of_misused`, `run_of_unlocated`).  What a report command writes is what a session
writes that gets its reports (`outputs_of_reports`).

The arguments are texts here.  One that is not valid Unicode stops the program before it looks at any of them. -/

namespace Diagnostics

theorem Session.errorCount_emitAll (session : Session) (files : Files) (reports : List Report) :
    (session.emitAll files reports).errorCount = session.errorCount + reports.countP fun r => r.kind.isError := by
  induction reports generalizing session with
  | nil => rfl
  | cons r reports ih =>
      have hcons : session.emitAll files (r :: reports) = (session.emit files r).2.emitAll files reports := rfl
      rw [hcons, ih, errorCount_emit, List.countP_cons]
      omega

/-- Reporting several things in order is a run of as many steps. -/
theorem Session.emitAll_eq_steps (session : Session) (files : Files) (reports : List Report) :
    session.emitAll files reports = (Run.steps ⟨session, files⟩ (reports.map Step.emit)).session := by
  induction reports generalizing session with
  | nil => rfl
  | cons r reports ih =>
      have hcons : session.emitAll files (r :: reports) = (session.emit files r).2.emitAll files reports := rfl
      rw [hcons, ih, List.map_cons, Run.steps_cons, Run.step_emit]

namespace CommandLine.Program

/-! ### What arguments say -/

/-- A command refuses its operands for a misuse. -/
inductive Refuses : (command : String) → (operands : List String) → Misuse → Prop
  | reports {operands misuse} : readReports operands = .error misuse → Refuses "report" operands misuse
  | noQuery : Refuses "suggest" [] (.missing .query)
  | notCompared {operands} : operands.length < 2 → Refuses "distance" operands (.missing .compared)
  | badBound (a b : String) {bound : String} :
      (∀ n ≤ Count.limit, ¬ Numeral.Spells bound.toList n) →
      Refuses "distance" [a, b, bound] (.badNumber .bound bound)
  | afterBound (a b bound extra : String) (more : List String) :
      Refuses "distance" (a :: b :: bound :: extra :: more) (.unexpected extra)
  | noName : Refuses "split" [] (.missing .sourceName)
  | afterName (name extra : String) (more : List String) : Refuses "split" (name :: extra :: more) (.unexpected extra)
  | unknown {command} (operands : List String) :
      command ∉ commands → Refuses command operands (.unknownCommand command)

/-- A command takes its operands and finds a failure. -/
inductive Fails : (command : String) → (operands : List String) → Prop
  | error {operands reports r} :
      readReports operands = .ok reports → r ∈ reports → r.kind = .error → Fails "report" operands
  | nothingNear {query candidates} :
      (∀ c ∈ candidates, ∀ n, Spelling.Edits n query.toList c.toList → 2 < n) →
      Fails "suggest" (query :: candidates)

/-- Some arguments, read as options and a command with its operands. -/
def Calls (arguments : List String) (options : Options) (command : String) (operands : List String) : Prop :=
  Options.parse arguments = .ok (options, command :: operands)

/-- There is no command among some arguments. -/
def NoCommand (arguments : List String) : Prop := ∃ options, Options.parse arguments = .ok (options, [])

/-- Some arguments are misused. -/
inductive Misused (arguments : List String) : Misuse → Prop
  | option {misuse} : Options.parse arguments = .error misuse → Misused arguments misuse
  | operands {options command operands misuse} :
      Calls arguments options command operands → Refuses command operands misuse → Misused arguments misuse

/-- A name to split has no location in the directory that names are relative to, for some cause. -/
def Unlocated (arguments : List String) (workingDirectory name : String) (cause : Unlocatable) : Prop :=
  ∃ options, Calls arguments options "split" [name] ∧
    SourceName.locate (options.directory.getD workingDirectory) name = .error cause

/-! ### The commands -/

/-- A report command succeeds unless one of its reports is an error. -/
theorem status?_runReport (host : Host) (options : Options) {operands : List String} {reports : List Report}
    (h : readReports operands = .ok reports) :
    (runReport host options operands).status? = some (if ∃ r ∈ reports, r.kind = .error then 1 else 0) := by
  let after := (session host.terminal options).emitAll host.files reports
  have herrors : after.hasErrors.isSome ↔ ∃ r ∈ reports, r.kind = .error := by
    rw [Session.hasErrors, ErrorsEmitted.isSome_ofCount?_iff, Session.errorCount_emitAll]
    simp [session, List.countP_pos_iff, Kind.isError]
  have hrun : runReport host options operands = .finished (status after.hasErrors.isNone) [] after.sink.written := by
    rw [runReport, h]
  rw [hrun, Ending.status?_finished, status]
  cases hafter : after.hasErrors <;> simp [← herrors, hafter]

/-- A search succeeds unless no candidate is near. -/
theorem status?_runCommand_suggest (site : Site) (directory query : String) (candidates : List String) :
    (runCommand site directory .suggest (query :: candidates)).status? =
      some (if Spelling.nearest query candidates = [] then 1 else 0) := by
  simp only [runCommand, Command.run, Command.runSuggest, Ending.status?, Reply.ofLines, status]
  cases Spelling.nearest query candidates <;> rfl

theorem status?_runCommand_distance (site : Site) (directory : String) {operands : List String}
    (h : ∀ misuse, ¬ Refuses "distance" operands misuse) :
    (runCommand site directory .distance operands).status? = some 0 := by
  match operands with
  | [] => exact absurd (.notCompared (by simp)) (h _)
  | [_] => exact absurd (.notCompared (by simp)) (h _)
  | [_, _] => rfl
  | [a, b, bound] =>
      cases hbound : Numeral.count? bound.toList with
      | none => exact absurd (.badBound a b (Numeral.count?_eq_none_iff.1 hbound)) (h _)
      | some n =>
          simp only [runCommand, Command.run, Command.runDistance, hbound]
          rfl
  | a :: b :: bound :: extra :: more => exact absurd (.afterBound a b bound extra more) (h _)

theorem status?_runCommand_split (site : Site) {directory : String} {operands : List String}
    (h : ∀ misuse, ¬ Refuses "split" operands misuse)
    (hlocated : ∀ name cause, operands = [name] → SourceName.locate directory name ≠ .error cause) :
    (runCommand site directory .split operands).status? = some 0 := by
  match operands with
  | [] => exact absurd .noName (h _)
  | [name] =>
      cases hlocate : SourceName.locate directory name with
      | error cause => exact absurd hlocate (hlocated name cause rfl)
      | ok location =>
          simp only [runCommand, Command.run, Command.runSplit, hlocate]
          rfl
  | name :: extra :: more => exact absurd (.afterName name extra more) (h _)

/-! ### The endings -/

variable {site : Site} {host : Host} {arguments : List String}

theorem run_of_misused {misuse : Misuse} (h : Misused arguments misuse) :
    run site host arguments = misused misuse := by
  cases h with
  | option h => simp [run, h]
  | @operands options command operands _ h hrefuses =>
      unfold Calls at h
      cases hrefuses with
      | reports hr => simp [run, h, runReport, hr]
      | noQuery => simp [run, h, runCommand, Command.run, Command.runSuggest]
      | notCompared hlength =>
          match operands, hlength with
          | [], _ => simp [run, h, runCommand, Command.run, Command.runDistance]
          | [_], _ => simp [run, h, runCommand, Command.run, Command.runDistance]
      | badBound a b hbound =>
          simp [run, h, runCommand, Command.run, Command.runDistance, Numeral.count?_eq_none_iff.2 hbound]
      | afterBound a b bound extra more => simp [run, h, runCommand, Command.run, Command.runDistance]
      | noName => simp [run, h, runCommand, Command.run, Command.runSplit]
      | afterName name extra more => simp [run, h, runCommand, Command.run, Command.runSplit]
      | unknown _ hcommand =>
          rw [run, h]
          simp only [commands, List.mem_cons, not_or] at hcommand
          simp only
          split <;> simp_all

/-- Arguments are misused in one way at most, since the text about it is the same wherever the program runs. -/
theorem Misused.unique {misuse other : Misuse} (h : Misused arguments misuse) (h' : Misused arguments other) :
    misuse = other := by
  let host : Host := ⟨"", none, fun _ => none⟩
  have hrun : run ⟨"", 0⟩ host arguments = misused misuse := run_of_misused h
  have hrun' : run ⟨"", 0⟩ host arguments = misused other := run_of_misused h'
  obtain ⟨-, -, htext⟩ := Ending.finished.inj (hrun.symm.trans hrun')
  exact misuseText_inj (Bytes.ofString_inj htext)

theorem run_of_noCommand (h : NoCommand arguments) :
    run site host arguments = .finished misuseStatus (Bytes.ofString usage) [] := by
  obtain ⟨options, h⟩ := h
  simp [run, h]

theorem run_of_unlocated {name : String} {cause : Unlocatable}
    (h : Unlocated arguments host.directory name cause) :
    run site host arguments = .aborted (unlocatable site name cause) := by
  obtain ⟨options, h, hcause⟩ := h
  unfold Calls at h
  simp [run, h, runCommand, Command.run, Command.runSplit, hcause]

theorem stderr_aborted_unlocatable (site : Site) (name : String) (cause : Unlocatable) :
    (Ending.aborted (unlocatable site name cause)).stderr =
      Bytes.ofString
        (site.file ++ "(" ++ String.ofList (Numeral.write site.line.toNat) ++
          "): FATAL ERROR: cannot resolve source file `" ++ name ++ "`: " ++ cause.message ++ "\n") := by
  rw [Ending.stderr, FatalError.text, FatalError.notice, unlocatable]
  congr 1
  rw [← String.toList_inj]
  simp

/-- **What a report command writes.**  Standard output stays empty, and standard error holds the blocks of the reports
that are printed, laid out for the columns that are asked for or else for the terminal. -/
theorem outputs_of_reports {options : Options} {operands : List String} {reports : List Report}
    (h : Calls arguments options "report" operands) (hreports : readReports operands = .ok reports) :
    let screen := screen host.terminal options
    let journal :=
      (Run.start options.config screen host.files).journal ⟨host.files, false, false⟩ (reports.map Step.emit)
    (run site host arguments).stdout = [] ∧
      (run site host arguments).stderr =
        (journal.filter fun e => e.Printed).flatMap (Record.block options.config screen) := by
  intro screen journal
  have hsteps : ∀ step ∈ reports.map Step.emit, step.report?.isSome := by
    intro step hstep
    obtain ⟨r, -, rfl⟩ := List.mem_map.1 hstep
    rfl
  let after := (session host.terminal options).emitAll host.files reports
  have hrun : run site host arguments = .finished (status after.hasErrors.isNone) [] after.sink.written := by
    unfold Calls at h
    simp [run, h, runReport, hreports, after]
  rw [hrun]
  refine ⟨Ending.stdout_finished .., ?_⟩
  calc (Ending.finished (status after.hasErrors.isNone) [] after.sink.written).stderr
      = ((Run.start options.config screen host.files).steps (reports.map Step.emit)).session.sink.written :=
        congrArg (fun session => session.sink.written) (Session.emitAll_eq_steps ..)
    _ = (journal.filter fun e => e.Printed).flatMap (Record.block options.config screen) :=
        Run.written_steps_eq_printed options.config screen host.files hsteps

theorem exists_misused_iff :
    (∃ misuse, Misused arguments misuse) ↔
      (∃ a ∈ arguments, Setting.Malformed a) ∨
        ∃ options command operands misuse, Calls arguments options command operands ∧
          Refuses command operands misuse := by
  rw [← Options.exists_parse_eq_error_iff]
  constructor
  · rintro ⟨misuse, h⟩
    cases h with
    | option h => exact .inl ⟨misuse, h⟩
    | operands h hrefuses => exact .inr ⟨_, _, _, misuse, h, hrefuses⟩
  · rintro (⟨misuse, h⟩ | ⟨_, _, _, misuse, h, hrefuses⟩)
    · exact ⟨misuse, .option h⟩
    · exact ⟨misuse, .operands h hrefuses⟩

theorem exists_unlocated_iff :
    (∃ name cause, Unlocated arguments host.directory name cause) ↔
      ∃ options name, Calls arguments options "split" [name] ∧
        (name = "" ∨ name.toList.getLast? = some SourceName.separator ∨
          SourceName.separator ∉ name.toList ∧ options.directory.getD host.directory = "") := by
  simp only [← SourceName.locate_eq_error_iff]
  constructor
  · rintro ⟨name, cause, options, h, hcause⟩
    exact ⟨options, name, h, cause, hcause⟩
  · rintro ⟨options, name, h, cause, hcause⟩
    exact ⟨name, cause, options, h, hcause⟩

/-! ### The statuses -/

theorem status?_of_unlocated (h : ∃ name cause, Unlocated arguments host.directory name cause) :
    (run site host arguments).status? = none := by
  obtain ⟨name, cause, h⟩ := h
  rw [run_of_unlocated h]
  rfl

theorem status?_of_misused (h : NoCommand arguments ∨ ∃ misuse, Misused arguments misuse) :
    (run site host arguments).status? = some 2 := by
  rcases h with h | ⟨misuse, h⟩
  · rw [run_of_noCommand h]
    rfl
  · rw [run_of_misused h]
    rfl

theorem status?_of_fails
    (h : ∃ options command operands, Calls arguments options command operands ∧ Fails command operands) :
    (run site host arguments).status? = some 1 := by
  obtain ⟨options, command, operands, h, hfails⟩ := h
  unfold Calls at h
  cases hfails with
  | error hreports hr hkind =>
      simp only [run, h]
      rw [status?_runReport host options hreports, if_pos ⟨_, hr, hkind⟩]
  | nothingNear hfar =>
      simp only [run, h]
      rw [status?_runCommand_suggest, if_pos (Spelling.nearest_eq_nil_iff.2 hfar)]

/-- A command that neither refuses its operands nor finds a failure nor aborts succeeds. -/
theorem status?_of_forall_not {options : Options} {command : String} {operands : List String}
    (h : Calls arguments options command operands) (hrefuses : ∀ misuse, ¬ Refuses command operands misuse)
    (hlocated : ∀ name cause, ¬ Unlocated arguments host.directory name cause) (hfails : ¬ Fails command operands) :
    (run site host arguments).status? = some 0 := by
  have hcommand : command ∈ commands := by
    by_contra hcommand
    exact hrefuses _ (.unknown operands hcommand)
  have hparse := h
  unfold Calls at hparse
  simp only [commands, List.mem_cons, List.not_mem_nil, or_false] at hcommand
  rcases hcommand with rfl | rfl | rfl | rfl | rfl | rfl <;> simp only [run, hparse]
  · cases hreports : readReports operands with
    | error misuse => exact absurd (.reports hreports) (hrefuses misuse)
    | ok reports =>
        rw [status?_runReport host options hreports, if_neg]
        rintro ⟨r, hr, hkind⟩
        exact hfails (.error hreports hr hkind)
  · cases operands with
    | nil => exact absurd .noQuery (hrefuses _)
    | cons query candidates =>
        rw [status?_runCommand_suggest, if_neg]
        intro hnil
        exact hfails (.nothingNear (Spelling.nearest_eq_nil_iff.1 hnil))
  · exact status?_runCommand_distance site _ hrefuses
  · refine status?_runCommand_split site hrefuses ?_
    rintro name cause rfl hcause
    exact hlocated name cause ⟨options, h, hcause⟩
  · rfl
  · rfl

/-- What a run can come to. -/
theorem status?_cases (site : Site) (host : Host) (arguments : List String) :
    let status? := (run site host arguments).status?
    (∃ name cause, Unlocated arguments host.directory name cause) ∧ status? = none ∨
      (NoCommand arguments ∨ ∃ misuse, Misused arguments misuse) ∧ status? = some 2 ∨
      (∃ options command operands, Calls arguments options command operands ∧ Fails command operands) ∧
        status? = some 1 ∨
      status? = some 0 := by
  by_cases hlocated : ∃ name cause, Unlocated arguments host.directory name cause
  · exact .inl ⟨hlocated, status?_of_unlocated hlocated⟩
  by_cases hmisused : NoCommand arguments ∨ ∃ misuse, Misused arguments misuse
  · exact .inr (.inl ⟨hmisused, status?_of_misused hmisused⟩)
  by_cases hfailed : ∃ options command operands, Calls arguments options command operands ∧ Fails command operands
  · exact .inr (.inr (.inl ⟨hfailed, status?_of_fails hfailed⟩))
  obtain ⟨hcommand, hmisuse⟩ := not_or.1 hmisused
  cases hparse : Options.parse arguments with
  | error misuse => exact absurd ⟨misuse, .option hparse⟩ hmisuse
  | ok parsed =>
      obtain ⟨options, positional⟩ := parsed
      cases positional with
      | nil => exact absurd ⟨options, hparse⟩ hcommand
      | cons command operands =>
          have hrefuses : ∀ misuse, ¬ Refuses command operands misuse :=
            fun misuse h => hmisuse ⟨misuse, .operands hparse h⟩
          have hfails : ¬ Fails command operands := fun h => hfailed ⟨options, command, operands, hparse, h⟩
          have hfound : ∀ name cause, ¬ Unlocated arguments host.directory name cause :=
            fun name cause h => hlocated ⟨name, cause, h⟩
          exact .inr (.inr (.inr (status?_of_forall_not hparse hrefuses hfound hfails)))

theorem status?_eq_none_iff :
    (run site host arguments).status? = none ↔
      ∃ name cause, Unlocated arguments host.directory name cause := by
  refine ⟨fun h => ?_, status?_of_unlocated⟩
  rcases status?_cases site host arguments with ⟨hcause, -⟩ | ⟨-, e⟩ | ⟨-, e⟩ | e
  · exact hcause
  all_goals simp [e] at h

theorem status?_eq_two_iff :
    (run site host arguments).status? = some 2 ↔
      NoCommand arguments ∨ ∃ misuse, Misused arguments misuse := by
  refine ⟨fun h => ?_, status?_of_misused⟩
  rcases status?_cases site host arguments with ⟨-, e⟩ | ⟨hmisused, -⟩ | ⟨-, e⟩ | e
  · simp [e] at h
  · exact hmisused
  all_goals simp [e] at h

theorem status?_eq_one_iff :
    (run site host arguments).status? = some 1 ↔
      ∃ options command operands, Calls arguments options command operands ∧ Fails command operands := by
  refine ⟨fun h => ?_, status?_of_fails⟩
  rcases status?_cases site host arguments with ⟨-, e⟩ | ⟨-, e⟩ | ⟨hfailed, -⟩ | e
  · simp [e] at h
  · simp [e] at h
  · exact hfailed
  · simp [e] at h

theorem status?_eq_zero_iff :
    (run site host arguments).status? = some 0 ↔
      (run site host arguments).status? ≠ none ∧
        (run site host arguments).status? ≠ some 2 ∧
        (run site host arguments).status? ≠ some 1 := by
  rcases status?_cases site host arguments with ⟨-, e⟩ | ⟨-, e⟩ | ⟨-, e⟩ | e <;> simp [e]

/-- **The ending of a run.**  It is an abort exactly if the one operand of `split` has no location, status 2 exactly if an
option is malformed, no command is given, or a command refuses its operands, and status 1 exactly if a command finds a
failure; in every other case it is status 0.  Nothing is written before an abort or a misuse but the text about it: the
usage if there is no command, otherwise one message on standard error, and a fatal error names the place `site`.  All this
is said of arguments that are texts. -/
theorem ending_of_run (site : Site) (host : Host) (arguments : List String) :
    let ending := run site host arguments
    ((∃ error, ending = .aborted error) ↔
      ∃ options name, Calls arguments options "split" [name] ∧
        (name = "" ∨ name.toList.getLast? = some SourceName.separator ∨
          SourceName.separator ∉ name.toList ∧ options.directory.getD host.directory = "")) ∧
    (ending.status? = some 2 ↔
      NoCommand arguments ∨ (∃ a ∈ arguments, Setting.Malformed a) ∨
        ∃ options command operands misuse, Calls arguments options command operands ∧
          Refuses command operands misuse) ∧
    (ending.status? = some 1 ↔
      ∃ options command operands, Calls arguments options command operands ∧ Fails command operands) ∧
    (ending.status? = some 0 ↔
      (¬ ∃ error, ending = .aborted error) ∧ ending.status? ≠ some 2 ∧ ending.status? ≠ some 1) ∧
    (ending.status? = some 2 →
      (NoCommand arguments ∧ ending.stderr = [] ∧
        ∃ lines, Explains lines ∧ ending.stdout = Bytes.ofString (String.join (lines.map (· ++ "\n")))) ∨
      ∃ misuse text, Misused arguments misuse ∧ misuse.Announces text ∧
        ending.stdout = [] ∧ ending.stderr = Bytes.ofString text) ∧
    ((∃ error, ending = .aborted error) →
      ∃ name cause, Unlocated arguments host.directory name cause ∧
        (∀ other : Unlocatable, other.message = cause.message → other = cause) ∧
        ending.stdout = [] ∧
        ending.stderr = Bytes.ofString
          (site.file ++ "(" ++ String.ofList (Numeral.write site.line.toNat) ++
            "): FATAL ERROR: cannot resolve source file `" ++ name ++ "`: " ++ cause.message ++ "\n")) := by
  intro ending
  rw [← Ending.status?_eq_none_iff, ← exists_unlocated_iff, ← exists_misused_iff]
  refine ⟨status?_eq_none_iff, status?_eq_two_iff, status?_eq_one_iff, status?_eq_zero_iff, fun h => ?_, fun h => ?_⟩
  · rcases status?_eq_two_iff.1 h with h | ⟨misuse, h⟩
    · have hrun : ending = .finished misuseStatus (Bytes.ofString usage) [] := run_of_noCommand h
      rw [hrun]
      exact .inl ⟨h, Ending.stderr_finished .., usageLines, explains_usageLines, Ending.stdout_finished ..⟩
    · have hrun : ending = misused misuse := run_of_misused h
      rw [hrun]
      exact .inr ⟨misuse, misuseText misuse, h, announces_misuseText misuse, Ending.stdout_finished ..,
        Ending.stderr_finished ..⟩
  · obtain ⟨name, cause, hcause⟩ := status?_eq_none_iff.1 h
    have hrun : ending = .aborted (unlocatable site name cause) := run_of_unlocated hcause
    rw [hrun]
    refine ⟨name, cause, hcause, fun _ => Unlocatable.message_inj, rfl, ?_⟩
    rw [stderr_aborted_unlocatable]

/-- A malformed position in the second group of a report keeps the first group from being written, and a name that ends in
a separator is no name of a source file. -/
theorem endings_of_malformed_operands :
    let site : Site := ⟨"split", 28⟩
    let host : Host := ⟨"/", some 120, fun _ => none⟩
    let late := run site host ["report", "error", "-", "m", "--", "warning", "a:0:1", "m"]
    let unlocated := run site host ["split", "--cwd=/home/u", "inc/"]
    (late.status? = some 2 ∧ late.stdout = [] ∧
      late.stderr = Bytes.ofString
        "error: invalid source position `a:0:1` (expected file:line:column[-line:column] or -)\n") ∧
    (∃ error, unlocated = .aborted error) ∧ unlocated.stdout = [] ∧
      unlocated.stderr = Bytes.ofString
        "split(28): FATAL ERROR: cannot resolve source file `inc/`: path `/home/u/inc/` ends in a separator\n" := by
  intro site host late unlocated
  constructor
  · obtain ⟨-, htwo, -, -, hquiet, -⟩ :=
      ending_of_run site host ["report", "error", "-", "m", "--", "warning", "a:0:1", "m"]
    have hcalls : Calls ["report", "error", "-", "m", "--", "warning", "a:0:1", "m"] {} "report"
        ["error", "-", "m", "--", "warning", "a:0:1", "m"] := rfl
    have hstatus : late.status? = some 2 := htwo.2 (.inr (.inr ⟨_, _, _, _, hcalls, .reports rfl⟩))
    rcases hquiet hstatus with ⟨⟨options, h⟩, -⟩ | ⟨misuse, text, hmisused, htext, hout, herr⟩
    · exact absurd (hcalls.symm.trans h) (by simp)
    · obtain rfl : misuse = .badPosition "a:0:1" := hmisused.unique (.operands hcalls (.reports rfl))
      rw [htext.unhinted (by simp)] at herr
      exact ⟨hstatus, hout, herr.trans (congrArg Bytes.ofString (by decide))⟩
  · obtain ⟨haborted, -, -, -, -, hlast⟩ := ending_of_run site host ["split", "--cwd=/home/u", "inc/"]
    have hcalls : Calls ["split", "--cwd=/home/u", "inc/"] { directory := some "/home/u" } "split" ["inc/"] := rfl
    have herror : ∃ error, unlocated = .aborted error := haborted.2 ⟨_, _, hcalls, .inr (.inl (by decide))⟩
    obtain ⟨name, cause, ⟨options, h, hcause⟩, -, hout, herr⟩ := hlast herror
    obtain ⟨rfl, hname⟩ := Prod.mk.inj (Except.ok.inj (hcalls.symm.trans h))
    obtain rfl : "inc/" = name := by simpa using hname
    have hlocate : SourceName.locate "/home/u" "inc/" = .error (.emptyFileName "/home/u/inc/") := by decide
    obtain rfl : .emptyFileName "/home/u/inc/" = cause := Except.error.inj (hlocate.symm.trans hcause)
    exact ⟨herror, hout, herr.trans (congrArg Bytes.ofString (by decide))⟩

end CommandLine.Program

end Diagnostics
