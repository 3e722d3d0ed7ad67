import Mathlib.Data.Finset.Card
import Diagnostics.Session

/-! # The accounts of a run

Whatever happens to the files and to the sink, the counters of a session and the outcomes of its reports depend on the
reports alone.

* **Reports of a run** (`Step.reports`).  Both ways of reporting count; the other steps make no report.
* **Texts that are shown** (`Config.shownTexts`): those of the reports whose kind is allowed, in order and with
  repetitions.  A session remembers exactly these, the latest first and each once (`texts_steps`).
* **Outcomes.**  A report of an allowed kind is a duplicate exactly if its text was shown before
  (`outcome_eq_duplicate_iff`).

`accounts_of_run` puts these together. -/

namespace Diagnostics

/-- The report that a step makes, if it makes one. -/
def Step.report? : Step → Option Report
  | .emit r => some r
  | .report r => some r
  | .files _ => none
  | .sink _ _ => none

/-- The reports that some steps make, in order. -/
def Step.reports (steps : List Step) : List Report := steps.filterMap Step.report?

/-- The texts of those reports that are not left out, in order. -/
def Config.shownTexts (config : Config) (reports : List Report) : List String :=
  (reports.filter fun r => config.allows r.kind).map Report.text

theorem Config.mem_shownTexts {config : Config} {reports : List Report} {t : String} :
    t ∈ config.shownTexts reports ↔ ∃ r ∈ reports, config.allows r.kind = true ∧ r.text = t := by
  simp [shownTexts, and_assoc]

namespace Session

theorem countError_eq (session : Session) (kind : Kind) :
    session.countError kind =
      { session with errorCount := session.errorCount + if kind = .error then 1 else 0 } := by
  by_cases h : kind = .error <;> simp [countError, Kind.isError, h]

/-- What reporting does: nothing, or counting, or counting and printing. -/
theorem emit_cases (session : Session) (files : Files) (r : Report) :
    (session.config.allows r.kind = false ∧ session.emit files r = (.suppressed, session)) ∨
      (session.config.allows r.kind = true ∧ r.text ∈ session.texts ∧
        session.emit files r = (.duplicate, session.countError r.kind)) ∨
      (session.config.allows r.kind = true ∧ r.text ∉ session.texts ∧
        session.emit files r = (.printed, (session.countError r.kind).print files r)) := by
  cases h : session.config.allows r.kind with
  | false => exact .inl ⟨rfl, emit_of_not_allows h files⟩
  | true =>
      by_cases hr : r.text ∈ session.texts
      · exact .inr (.inl ⟨rfl, hr, emit_of_mem h hr files⟩)
      · exact .inr (.inr ⟨rfl, hr, emit_of_not_mem h hr files⟩)

@[simp] theorem emit_config (session : Session) (files : Files) (r : Report) :
    (session.emit files r).2.config = session.config := by
  obtain ⟨-, e⟩ | ⟨-, -, e⟩ | ⟨-, -, e⟩ := session.emit_cases files r <;> simp [e, print, countError_eq]

@[simp] theorem emit_screen (session : Session) (files : Files) (r : Report) :
    (session.emit files r).2.screen = session.screen := by
  obtain ⟨-, e⟩ | ⟨-, -, e⟩ | ⟨-, -, e⟩ := session.emit_cases files r <;> simp [e, print, countError_eq]

/-- Reporting adds the text of a report in front, unless it is left out or a duplicate. -/
theorem emit_texts (session : Session) (files : Files) (r : Report) :
    (session.emit files r).2.texts =
      if session.config.allows r.kind = true ∧ r.text ∉ session.texts then r.text :: session.texts
      else session.texts := by
  obtain ⟨h, e⟩ | ⟨h, hr, e⟩ | ⟨h, hr, e⟩ := session.emit_cases files r
  · simp [e, h]
  · simp [e, hr, countError_eq]
  · simp [e, h, hr, print, countError_eq]

/-- The session that a suppressed or duplicate report leaves: at most the error is counted. -/
theorem emit_of_outcome_ne_printed {session : Session} {files : Files} {r : Report}
    (h : (session.emit files r).1 ≠ .printed) :
    (session.emit files r).2 =
      { session with errorCount := session.errorCount + if r.kind = .error then 1 else 0 } := by
  obtain ⟨hk, e⟩ | ⟨-, -, e⟩ | ⟨-, -, e⟩ := session.emit_cases files r
  · have hr : r.kind ≠ .error := by
      intro hr
      rw [hr] at hk
      exact absurd hk (by simp [Config.allows])
    simp [e, hr]
  · rw [e, countError_eq]
  · rw [e] at h
    exact absurd rfl h

end Session

namespace Run

/-- What becomes of a report that is made now. -/
def outcome (run : Run) (r : Report) : Outcome := (run.session.emit run.files r).1

theorem outcome_eq_suppressed_iff {run : Run} {r : Report} :
    run.outcome r = .suppressed ↔ run.session.config.allows r.kind = false := by
  obtain ⟨h, e⟩ | ⟨h, -, e⟩ | ⟨h, -, e⟩ := run.session.emit_cases run.files r <;> simp [outcome, e, h]

theorem outcome_eq_duplicate_iff {run : Run} {r : Report} :
    run.outcome r = .duplicate ↔ run.session.config.allows r.kind = true ∧ r.text ∈ run.session.texts := by
  obtain ⟨h, e⟩ | ⟨h, hr, e⟩ | ⟨h, hr, e⟩ := run.session.emit_cases run.files r
  · simp [outcome, e, h]
  · simp [outcome, e, h, hr]
  · simp [outcome, e, hr]

theorem outcome_eq_printed_iff {run : Run} {r : Report} :
    run.outcome r = .printed ↔ run.session.config.allows r.kind = true ∧ r.text ∉ run.session.texts := by
  obtain ⟨h, e⟩ | ⟨h, hr, e⟩ | ⟨h, hr, e⟩ := run.session.emit_cases run.files r
  · simp [outcome, e, h]
  · simp [outcome, e, hr]
  · simp [outcome, e, h, hr]

theorem step_emit (run : Run) (r : Report) :
    run.step (.emit r) = (.outcome (run.outcome r), { run with session := (run.session.emit run.files r).2 }) := rfl

/-- The function of a kind reports like the general one; only the one for errors answers with evidence. -/
theorem step_report (run : Run) (r : Report) :
    (run.step (.report r)).2 = (run.step (.emit r)).2 ∧
      if r.kind = .error then ∃ evidence, (run.step (.report r)).1 = .errorsEmitted evidence
      else (run.step (.report r)).1 = .outcome (run.outcome r) := by
  obtain ⟨kind, position, message⟩ := r
  refine ⟨?_, ?_⟩
  · rw [step_emit, ← report_snd]
    rfl
  · cases kind with
    | error => exact ⟨_, rfl⟩
    | warning => rfl
    | debug => rfl
    | performance => rfl

/-- A step that makes a report changes the session by that report and leaves the files. -/
theorem step_of_report {run : Run} {step : Step} {r : Report} (h : step.report? = some r) :
    (run.step step).2 = { run with session := (run.session.emit run.files r).2 } := by
  cases step with
  | emit s =>
      obtain rfl : s = r := Option.some.inj h
      rfl
  | report s =>
      obtain rfl : s = r := Option.some.inj h
      exact (run.step_report s).1
  | files _ => exact absurd h (by simp [Step.report?])
  | sink _ _ => exact absurd h (by simp [Step.report?])

/-- A step that makes no report leaves what a session remembers and what its sink holds. -/
theorem step_of_no_report {run : Run} {step : Step} (h : step.report? = none) :
    ∃ files failsWrite failsFlush,
      (run.step step).2 =
        ⟨{ run.session with sink := { run.session.sink with failsWrite, failsFlush } }, files⟩ := by
  cases step with
  | emit _ => exact absurd h (by simp [Step.report?])
  | report _ => exact absurd h (by simp [Step.report?])
  | files files => exact ⟨files, run.session.sink.failsWrite, run.session.sink.failsFlush, rfl⟩
  | sink failsWrite failsFlush => exact ⟨run.files, failsWrite, failsFlush, rfl⟩

@[simp] theorem start_config (config : Config) (screen : Screen) (files : Files) :
    (start config screen files).session.config = config := rfl

theorem steps_cons (run : Run) (step : Step) (steps : List Step) :
    run.steps (step :: steps) = (run.step step).2.steps steps := rfl

theorem steps_concat (run : Run) (steps : List Step) (step : Step) :
    run.steps (steps ++ [step]) = ((run.steps steps).step step).2 := run.steps_append steps [step]

@[simp] theorem step_config (run : Run) (step : Step) :
    (run.step step).2.session.config = run.session.config := by
  cases h : step.report? with
  | none =>
      obtain ⟨files, failsWrite, failsFlush, e⟩ := step_of_no_report h
      rw [e]
  | some r => simp [step_of_report h]

@[simp] theorem step_screen (run : Run) (step : Step) :
    (run.step step).2.session.screen = run.session.screen := by
  cases h : step.report? with
  | none =>
      obtain ⟨files, failsWrite, failsFlush, e⟩ := step_of_no_report h
      rw [e]
  | some r => simp [step_of_report h]

@[simp] theorem steps_config (run : Run) (steps : List Step) :
    (run.steps steps).session.config = run.session.config := by
  induction steps generalizing run with
  | nil => rfl
  | cons step steps ih => rw [steps_cons, ih, step_config]

end Run

namespace Step

theorem reports_concat (steps : List Step) (step : Step) :
    reports (steps ++ [step]) = reports steps ++ step.report?.toList := by
  cases h : step.report? <;> simp [reports, h]

end Step

theorem Config.shownTexts_concat (config : Config) (reports : List Report) (r : Report) :
    config.shownTexts (reports ++ [r]) =
      config.shownTexts reports ++ if config.allows r.kind then [r.text] else [] := by
  cases h : config.allows r.kind <;> simp [shownTexts, h]

namespace Run

section history
variable (config : Config) (screen : Screen) (files : Files) (steps : List Step)

/-- The errors counted are those of the reports made. -/
theorem errorCount_steps :
    ((start config screen files).steps steps).session.errorCount =
      (Step.reports steps).countP fun r => r.kind = .error := by
  induction steps using List.reverseRecOn with
  | nil => rfl
  | append_singleton steps step ih =>
      rw [steps_concat, Step.reports_concat, List.countP_append, ← ih]
      cases h : step.report? with
      | none =>
          obtain ⟨files', failsWrite, failsFlush, e⟩ := step_of_no_report h
          rw [e]
          rfl
      | some r =>
          rw [step_of_report h]
          simp [Session.errorCount_emit, Kind.isError, List.countP_singleton]

/-- A counter that goes as far as the number of steps is wide enough for the errors of a run. -/
theorem errorCount_steps_le : ((start config screen files).steps steps).session.errorCount ≤ steps.length := by
  rw [errorCount_steps]
  calc (Step.reports steps).countP (fun r => r.kind = .error)
      ≤ (Step.reports steps).length := List.countP_le_length
    _ ≤ steps.length := List.length_filterMap_le ..

/-- A session remembers each text that is shown once, the latest first. -/
theorem texts_steps :
    ((start config screen files).steps steps).session.texts =
      (config.shownTexts (Step.reports steps)).reverse.dedup := by
  induction steps using List.reverseRecOn with
  | nil => rfl
  | append_singleton steps step ih =>
      rw [steps_concat, Step.reports_concat]
      cases h : step.report? with
      | none =>
          obtain ⟨files', failsWrite, failsFlush, e⟩ := step_of_no_report h
          rw [e]
          simpa using ih
      | some r =>
          rw [step_of_report h, Option.toList_some, Config.shownTexts_concat]
          cases hk : config.allows r.kind with
          | false => simp [Session.emit_texts, hk, ih]
          | true =>
              by_cases hr : r.text ∈ config.shownTexts (Step.reports steps)
              · simp [Session.emit_texts, ih, hr, List.dedup_cons_of_mem]
              · simp [Session.emit_texts, hk, ih, hr, List.dedup_cons_of_notMem]

theorem mem_texts_steps {t : String} :
    t ∈ ((start config screen files).steps steps).session.texts ↔
      t ∈ config.shownTexts (Step.reports steps) := by
  rw [texts_steps, List.mem_dedup, List.mem_reverse]

theorem printedCount_steps :
    ((start config screen files).steps steps).session.printedCount =
      (config.shownTexts (Step.reports steps)).toFinset.card := by
  rw [Session.printedCount, texts_steps, ← List.card_toFinset, List.toFinset_reverse]

theorem isSome_hasErrors_steps :
    ((start config screen files).steps steps).session.hasErrors.isSome ↔
      ∃ r ∈ Step.reports steps, r.kind = .error := by
  rw [Session.hasErrors, ErrorsEmitted.isSome_ofCount?_iff, errorCount_steps, List.countP_pos_iff]
  simp

/-- **The accounts of a run.**  After any steps the counters are those of the reports made so far, and the outcome of
the next report, by either way of reporting, is told by its kind and by the texts shown so far.  Unless it is printed it
changes nothing but the count of errors. -/
theorem accounts_of_run :
    let run := (start config screen files).steps steps
    let reports := Step.reports steps
    run.session.errorCount = (reports.countP fun r => r.kind = .error) ∧
      run.session.printedCount = (config.shownTexts reports).toFinset.card ∧
      (run.session.hasErrors.isSome ↔ ∃ r ∈ reports, r.kind = .error) ∧
      ∀ r,
        (run.outcome r = .suppressed ↔ config.allows r.kind = false) ∧
        (run.outcome r = .duplicate ↔
          config.allows r.kind = true ∧ ∃ e ∈ reports, config.allows e.kind = true ∧ e.text = r.text) ∧
        (run.outcome r = .printed ↔
          config.allows r.kind = true ∧ ¬ ∃ e ∈ reports, config.allows e.kind = true ∧ e.text = r.text) ∧
        (run.step (.emit r)).1 = .outcome (run.outcome r) ∧
        (run.step (.report r)).2 = (run.step (.emit r)).2 ∧
        (if r.kind = .error then ∃ evidence, (run.step (.report r)).1 = .errorsEmitted evidence
          else (run.step (.report r)).1 = .outcome (run.outcome r)) ∧
        (run.outcome r ≠ .printed →
          (run.step (.emit r)).2 =
            { run with session :=
              { run.session with errorCount := run.session.errorCount + if r.kind = .error then 1 else 0 } }) := by
  intro run reports
  refine ⟨errorCount_steps config screen files steps, printedCount_steps config screen files steps,
    isSome_hasErrors_steps config screen files steps, fun r => ?_⟩
  have hc : run.session.config = config := by simp [run]
  have ht : r.text ∈ run.session.texts ↔ ∃ e ∈ reports, config.allows e.kind = true ∧ e.text = r.text :=
    (mem_texts_steps config screen files steps).trans Config.mem_shownTexts
  refine ⟨?_, ?_, ?_, rfl, (run.step_report r).1, (run.step_report r).2, fun h => ?_⟩
  · rw [outcome_eq_suppressed_iff, hc]
  · rw [outcome_eq_duplicate_iff, hc, ht]
  · rw [outcome_eq_printed_iff, hc, ht]
  · rw [step_emit, Session.emit_of_outcome_ne_printed h]

end history

/-- An error that is repeated is counted once more and changes nothing else. -/
theorem accounts_of_repeated_error :
    let r : Report := ⟨.error, .unknown, "m"⟩
    let run := (start {} (.terminal none) fun _ => none).steps [.report r]
    run.outcome r ≠ .printed ∧
      (run.step (.emit r)).2 = { run with session := { run.session with errorCount := run.session.errorCount + 1 } } := by
  intro r run
  obtain ⟨-, -, -, h⟩ := accounts_of_run {} (.terminal none) (fun _ => none) [.report r]
  obtain ⟨-, hduplicate, -, -, -, -, hsame⟩ := h r
  have hr : run.outcome r ≠ .printed := by
    rw [hduplicate.2 ⟨rfl, r, List.mem_cons_self, rfl, rfl⟩]
    decide
  exact ⟨hr, hsame hr⟩

end Run

end Diagnostics
