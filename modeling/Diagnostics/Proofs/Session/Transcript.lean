import Diagnostics.Proofs.Session.Accounts

/-! # What a run writes

The sink of a session receives one block for every report that is printed and whose write succeeds, in order, and
nothing else.

* **Surroundings.**  The files and the failures of the sink change by steps of their own (`Surroundings.next`), and no
  report changes them (`surroundings_step`).
* **Journal.**  The reports of a run, each with its outcome and with the surroundings in which it was made.
* **Blocks.**  A block is never empty, so a failing write is noticed, and a block is stored whole or not at all
  (`written_step`, `flushes_step`).
* **Texts.**  A text is remembered when its report is printed, whether or not its block is stored (`texts_steps_eq`).
* **Lost reports.**  A report that is passed to the sink is stored, or it is *lost* because the write of its block fails
  (`Record.texts_printed_perm`).  A lost text counts as printed and later reports of it are duplicates, so it is never
  stored (`nodup_texts_printed`).
* **Order.**  The counters and the remembered texts are those of the reports as a collection, so only the blocks depend on
  the order of the reports.  Which of several reports of one text is printed does depend on it; but if they have one
  position, and with files that do not change, they have one block (`written_steps_eq_flatMap`).

`sink_of_run` reads the sink off the journal.  `remembered_texts_of_run` says what a session remembers and what its sink
holds: they agree exactly if nothing was lost.  `same_accounts_of_perm` compares two orders of the same reports. -/

namespace Diagnostics

/-! ## The journal of a run -/

/-- The files, and whether writing to a sink and flushing it fail. -/
structure Surroundings where
  files : Files
  failsWrite : Bool := false
  failsFlush : Bool := false

/-- The surroundings after a step. -/
def Surroundings.next (around : Surroundings) : Step → Surroundings
  | .emit _ => around
  | .report _ => around
  | .files files => { around with files }
  | .sink failsWrite failsFlush => { around with failsWrite, failsFlush }

namespace Screen

/-- The number that a screen tells, zero included. -/
def told? : Screen → Option Nat
  | fixed columns => some columns
  | terminal columns => columns.map UInt16.toNat

theorem columns_eq (screen : Screen) : screen.columns = (screen.told?.filter (· ≠ 0)).getD 80 := by
  cases screen with
  | fixed n => by_cases h : n = 0 <;> simp [columns, width?, told?, defaultColumns, Option.filter, h, Nat.pos_iff_ne_zero]
  | terminal n =>
      cases n with
      | none => rfl
      | some n =>
          have hzero : 0 < n ↔ n.toNat ≠ 0 := by rw [UInt16.lt_iff_toNat_lt, UInt16.toNat_zero, Nat.pos_iff_ne_zero]
          by_cases h : n.toNat = 0 <;> simp [columns, width?, told?, defaultColumns, Option.filter, h, hzero]

end Screen

/-- A report as it was made: what became of it, and in which surroundings. -/
structure Record where
  report : Report
  outcome : Outcome
  around : Surroundings

namespace Record

/-- Whether a report was passed to the sink. -/
def Printed (e : Record) : Prop := e.outcome = .printed

instance : DecidablePred Printed := fun e => inferInstanceAs (Decidable (e.outcome = .printed))

/-- Whether the sink has taken the block of a report. -/
def Stored (e : Record) : Prop := e.outcome = .printed ∧ e.around.failsWrite = false

/-- Whether the sink was flushed for a report. -/
def Flushed (e : Record) : Prop := e.Stored ∧ e.around.failsFlush = false

instance : DecidablePred Stored := fun _ => inferInstanceAs (Decidable (_ ∧ _))

instance : DecidablePred Flushed := fun _ => inferInstanceAs (Decidable (_ ∧ _))

/-- The texts of those reports whose records have a property, in order. -/
def texts (p : Record → Prop) [DecidablePred p] (records : List Record) : List String :=
  (records.filter fun e => p e).map fun e => e.report.text

theorem texts_append (p : Record → Prop) [DecidablePred p] (records later : List Record) :
    texts p (records ++ later) = texts p records ++ texts p later := by
  simp [texts]

/-- A text as it is laid out: filled into the columns of the screen, 80 unless it tells a number other than zero, or
followed by a newline. -/
def laidOut (config : Config) (screen : Screen) (text : String) : String :=
  match config.layout with
  | .filled => Fill.wrap text ((screen.told?.filter (· ≠ 0)).getD 80)
  | .plain => text ++ "\n"

/-- The text of a report and the excerpt at its position, if its file could be read. -/
def block (config : Config) (screen : Screen) (e : Record) : Bytes :=
  Bytes.ofString (laidOut config screen e.report.text) ++
    match Excerpt.ofFiles? e.around.files e.report.position with
    | some excerpt => excerpt
    | none => []

theorem laidOut_eq (config : Config) (screen : Screen) (text : String) :
    laidOut config screen text = config.layout.apply screen text := by
  rw [laidOut, ← screen.columns_eq]
  cases config.layout <;> rfl

theorem block_eq (config : Config) (screen : Screen) (e : Record) :
    e.block config screen = Session.block config screen e.around.files e.report := by
  rw [block, Session.block, laidOut_eq]
  cases Excerpt.ofFiles? e.around.files e.report.position <;> rfl

theorem block_ne_nil (config : Config) (screen : Screen) (e : Record) : e.block config screen ≠ [] := by
  intro h
  rw [block, laidOut_eq] at h
  have ht := Bytes.ofString_eq_nil_iff.1 (List.append_eq_nil_iff.1 h).1
  exact config.layout.apply_ne_empty screen _ ht

end Record

namespace Run

/-- The surroundings of a run. -/
def surroundings (run : Run) : Surroundings := ⟨run.files, run.session.sink.failsWrite, run.session.sink.failsFlush⟩

/-- The record of the report that a step makes, if it makes one. -/
def records (run : Run) (around : Surroundings) (step : Step) : List Record :=
  step.report?.toList.map fun r => ⟨r, run.outcome r, around⟩

/-- The records of some steps, in order. -/
def journal (run : Run) (around : Surroundings) : List Step → List Record
  | [] => []
  | step :: steps => run.records around step ++ (run.step step).2.journal (around.next step) steps

theorem map_report_journal (run : Run) (around : Surroundings) (steps : List Step) :
    (run.journal around steps).map Record.report = Step.reports steps := by
  induction steps generalizing run around with
  | nil => rfl
  | cons step steps ih =>
      rw [journal, List.map_append, ih]
      cases h : step.report? <;> simp [Step.reports, h, records]

/-! ### One step -/

theorem sink_of_printed {run : Run} {r : Report} (h : run.outcome r = .printed) :
    (run.session.emit run.files r).2.sink =
      run.session.sink.push (Session.block run.session.config run.session.screen run.files r) := by
  obtain ⟨-, e⟩ | ⟨-, -, e⟩ | ⟨-, -, e⟩ := run.session.emit_cases run.files r
  · simp [outcome, e] at h
  · simp [outcome, e] at h
  · simp [e, Session.print, Session.countError_eq]

theorem sink_of_not_printed {run : Run} {r : Report} (h : run.outcome r ≠ .printed) :
    (run.session.emit run.files r).2.sink = run.session.sink := by
  rw [Session.emit_of_outcome_ne_printed h]

theorem surroundings_step (run : Run) (step : Step) :
    (run.step step).2.surroundings = run.surroundings.next step := by
  have hreport (r : Report) :
      { run with session := (run.session.emit run.files r).2 }.surroundings = run.surroundings := by
    by_cases hp : run.outcome r = .printed
    · simp only [surroundings, sink_of_printed hp, Sink.failsWrite_push, Sink.failsFlush_push]
    · simp only [surroundings, sink_of_not_printed hp]
  cases step with
  | emit r => exact hreport r
  | report r =>
      rw [step_of_report (show (Step.report r).report? = some r from rfl)]
      exact hreport r
  | files _ => rfl
  | sink _ _ => rfl

/-- A step adds to the sink the block of its report, if that is stored. -/
theorem written_step (run : Run) (step : Step) :
    (run.step step).2.session.sink.written =
      run.session.sink.written ++
        ((run.records run.surroundings step).filter fun e => e.Stored).flatMap
          (Record.block run.session.config run.session.screen) := by
  rw [records]
  cases h : step.report? with
  | none =>
      obtain ⟨files, failsWrite, failsFlush, e⟩ := step_of_no_report h
      rw [e]
      simp
  | some r =>
      rw [step_of_report h]
      by_cases hp : run.outcome r = .printed
      · rw [sink_of_printed hp, Sink.written_push]
        cases hw : run.session.sink.failsWrite with
        | true => simp [Record.Stored, surroundings, hp, hw]
        | false => simp [Record.Stored, surroundings, hp, hw, Record.block_eq]
      · rw [sink_of_not_printed hp]
        simp [Record.Stored, hp]

/-- A step adds one flush if the block of its report is stored and flushed. -/
theorem flushes_step (run : Run) (step : Step) :
    (run.step step).2.session.sink.flushes =
      run.session.sink.flushes +
        (run.records run.surroundings step).countP fun e => e.Flushed := by
  rw [records]
  cases h : step.report? with
  | none =>
      obtain ⟨files, failsWrite, failsFlush, e⟩ := step_of_no_report h
      rw [e]
      rfl
  | some r =>
      rw [step_of_report h]
      by_cases hp : run.outcome r = .printed
      · have hb : Session.block run.session.config run.session.screen run.files r ≠ [] := by
          have hne := Record.block_ne_nil run.session.config run.session.screen ⟨r, .printed, run.surroundings⟩
          rwa [Record.block_eq] at hne
        rw [sink_of_printed hp, Sink.flushes_push]
        cases hw : run.session.sink.failsWrite <;> cases hf : run.session.sink.failsFlush <;>
          simp [Record.Flushed, Record.Stored, surroundings, hp, hw, hf, hb]
      · rw [sink_of_not_printed hp]
        simp [Record.Flushed, Record.Stored, hp]

/-! ### All steps -/

theorem written_steps (run : Run) (steps : List Step) :
    (run.steps steps).session.sink.written =
      run.session.sink.written ++
        ((run.journal run.surroundings steps).filter fun e => e.Stored).flatMap
          (Record.block run.session.config run.session.screen) := by
  induction steps generalizing run with
  | nil => simp [steps, journal]
  | cons step steps ih =>
      rw [steps_cons, ih, written_step, surroundings_step, step_config, step_screen, journal, List.filter_append,
        List.flatMap_append, List.append_assoc]

theorem flushes_steps (run : Run) (steps : List Step) :
    (run.steps steps).session.sink.flushes =
      run.session.sink.flushes + (run.journal run.surroundings steps).countP fun e => e.Flushed := by
  induction steps generalizing run with
  | nil => rfl
  | cons step steps ih =>
      rw [steps_cons, ih, flushes_step, surroundings_step, journal, List.countP_append]
      omega

theorem surroundings_steps (run : Run) (steps : List Step) :
    (run.steps steps).surroundings = steps.foldl Surroundings.next run.surroundings := by
  induction steps generalizing run with
  | nil => rfl
  | cons step steps ih =>
      rw [steps_cons, ih, surroundings_step, List.foldl_cons]

/-! ### The texts that are remembered -/

/-- A step remembers the text of its report, if that is printed. -/
theorem texts_step_eq (run : Run) (around : Surroundings) (step : Step) :
    (run.step step).2.session.texts =
      (Record.texts Record.Printed (run.records around step)).reverse ++ run.session.texts := by
  rw [records]
  cases h : step.report? with
  | none =>
      obtain ⟨files, failsWrite, failsFlush, e⟩ := step_of_no_report h
      rw [e]
      rfl
  | some r =>
      rw [step_of_report h, Session.emit_texts]
      by_cases hp : run.outcome r = .printed
      · rw [if_pos (outcome_eq_printed_iff.1 hp)]
        simp [Record.texts, Record.Printed, hp]
      · rw [if_neg fun h => hp (outcome_eq_printed_iff.2 h)]
        simp [Record.texts, Record.Printed, hp]

/-- What a run remembers are the texts of its printed records, whether or not the sink took them. -/
theorem texts_steps_eq (run : Run) (around : Surroundings) (steps : List Step) :
    (run.steps steps).session.texts =
      (Record.texts Record.Printed (run.journal around steps)).reverse ++ run.session.texts := by
  induction steps generalizing run around with
  | nil => rfl
  | cons step steps ih =>
      rw [steps_cons, ih, texts_step_eq run around, journal, Record.texts_append, List.reverse_append,
        List.append_assoc]

/-- **The sink of a run.**  After any steps it holds the blocks of the stored reports, each made of its report and of
the files as they were, and it was flushed once for each report whose block was stored and flushed.  A further step
removes nothing, and a report that is not printed or not stored adds nothing. -/
theorem sink_of_run (config : Config) (screen : Screen) (files : Files) (steps : List Step) :
    let run := (start config screen files).steps steps
    let journal := (start config screen files).journal ⟨files, false, false⟩ steps
    let around := steps.foldl Surroundings.next ⟨files, false, false⟩
    journal.map Record.report = Step.reports steps ∧
      run.session.sink.written = (journal.filter fun e => e.Stored).flatMap (Record.block config screen) ∧
      run.session.sink.flushes = (journal.countP fun e => e.Flushed) ∧
      ∀ step,
        run.session.sink.written <+: (run.step step).2.session.sink.written ∧
        ∀ r, step.report? = some r → run.outcome r ≠ .printed ∨ around.failsWrite = true →
          (run.step step).2.session.sink.written = run.session.sink.written := by
  intro run journal around
  refine ⟨map_report_journal .., ?_, ?_, fun step => ⟨?_, fun r h hr => ?_⟩⟩
  · exact (written_steps (start config screen files) steps).trans (List.nil_append _)
  · exact (flushes_steps (start config screen files) steps).trans (Nat.zero_add _)
  · rw [written_step]
    exact List.prefix_append ..
  · have ha : run.surroundings = around := surroundings_steps (start config screen files) steps
    have hns : ¬ Record.Stored ⟨r, run.outcome r, run.surroundings⟩ := by
      rintro ⟨hp, hw⟩
      rw [ha] at hw
      rcases hr with hr | hr
      · exact hr hp
      · exact absurd (hr.symm.trans hw) (by decide)
    rw [written_step, records, h]
    simp [hns]

/-- A block is stored with the line that its report names, and then a write fails: the sink keeps the one and nothing is
added. -/
theorem sink_of_failing_write :
    let files : Files := fun name => if name = "a" then some (Bytes.ofString "x\ny") else none
    let steps : List Step := [.emit ⟨.warning, .point "a" ⟨1, 1⟩, "m"⟩, .sink true false]
    let run := (start {} (.fixed 0) files).steps steps
    let r : Report := ⟨.error, .unknown, "m"⟩
    run.session.sink.written = Bytes.ofString "a:1:1: Warning: m\nx\n^\n\n" ∧ run.session.sink.flushes = 1 ∧
      run.outcome r = .printed ∧ (steps.foldl Surroundings.next ⟨files, false, false⟩).failsWrite = true ∧
      (run.step (.emit r)).2.session.sink.written = run.session.sink.written := by
  intro files steps run r
  obtain ⟨-, hwritten, hflushes, h⟩ := sink_of_run {} (.fixed 0) files steps
  exact ⟨hwritten.trans (by decide), hflushes.trans (by decide), by decide, rfl, (h (.emit r)).2 r rfl (.inr rfl)⟩

end Run

/-! ## Lost reports -/

namespace Record

/-- Whether the block of a report was passed to a sink that did not take it. -/
def Lost (e : Record) : Prop := e.Printed ∧ e.around.failsWrite = true

instance : DecidablePred Lost := fun _ => inferInstanceAs (Decidable (_ ∧ _))

theorem texts_printed_perm (records : List Record) :
    (texts Printed records).Perm (texts Stored records ++ texts Lost records) := by
  induction records with
  | nil => exact .nil
  | cons e records ih =>
      by_cases hp : e.outcome = .printed
      · cases hw : e.around.failsWrite with
        | false => simpa [texts, Stored, Lost, Printed, hp, hw] using ih
        | true =>
            have hmiddle := (ih.cons e.report.text).trans List.perm_middle.symm
            simpa [texts, Stored, Lost, Printed, hp, hw] using hmiddle
      · simpa [texts, Stored, Lost, Printed, hp] using ih

end Record

namespace Run

section history
variable (config : Config) (screen : Screen) (files : Files) (steps : List Step)

theorem texts_printed_journal :
    ((start config screen files).steps steps).session.texts =
      (Record.texts Record.Printed ((start config screen files).journal ⟨files, false, false⟩ steps)).reverse := by
  rw [texts_steps_eq _ ⟨files, false, false⟩]
  exact List.append_nil _

/-- No text is printed twice. -/
theorem nodup_texts_printed :
    (Record.texts Record.Printed ((start config screen files).journal ⟨files, false, false⟩ steps)).Nodup := by
  rw [← List.nodup_reverse, ← texts_printed_journal, texts_steps]
  exact List.nodup_dedup _

/-- **What a session remembers.**  It counts the texts whose blocks are in the sink and those that were lost, which are
other ones, and takes a report for a duplicate if its text is of either sort.  So it counts what is in the sink exactly if
nothing was lost. -/
theorem remembered_texts_of_run :
    let run := (start config screen files).steps steps
    let journal := (start config screen files).journal ⟨files, false, false⟩ steps
    let stored := Record.texts Record.Stored journal
    let lost := Record.texts Record.Lost journal
    run.session.sink.written = (journal.filter fun e => e.Stored).flatMap (Record.block config screen) ∧
      run.session.printedCount = stored.toFinset.card + lost.toFinset.card ∧
      Disjoint stored.toFinset lost.toFinset ∧
      (run.session.printedCount = stored.toFinset.card ↔ lost = []) ∧
      ∀ r, run.outcome r = .duplicate ↔ config.allows r.kind = true ∧ (r.text ∈ stored ∨ r.text ∈ lost) := by
  intro run journal stored lost
  have htexts : run.session.texts.Perm (stored ++ lost) := by
    rw [texts_printed_journal]
    exact (List.reverse_perm _).trans (Record.texts_printed_perm journal)
  have hnodup : (stored ++ lost).Nodup :=
    (Record.texts_printed_perm journal).nodup_iff.1 (nodup_texts_printed config screen files steps)
  obtain ⟨hstored, hlost, hdisjoint⟩ := List.nodup_append'.1 hnodup
  have hcount : run.session.printedCount = stored.toFinset.card + lost.toFinset.card := by
    rw [List.toFinset_card_of_nodup hstored, List.toFinset_card_of_nodup hlost, ← List.length_append]
    exact htexts.length_eq
  refine ⟨?_, hcount, ?_, ?_, fun r => ?_⟩
  · exact (written_steps (start config screen files) steps).trans (List.nil_append _)
  · exact List.disjoint_toFinset_iff_disjoint.2 hdisjoint
  · rw [hcount, Nat.add_eq_left, Finset.card_eq_zero, List.toFinset_eq_empty_iff]
  · have hc : run.session.config = config := by simp [run]
    rw [outcome_eq_duplicate_iff, hc, htexts.mem_iff, List.mem_append]

end history

/-- An error whose block was not taken is counted as printed, and it is a duplicate from then on, with nothing in the
sink. -/
theorem duplicate_of_lost_report :
    let r : Report := ⟨.error, .unknown, "lost"⟩
    let run := (start {} (.fixed 80) fun _ => none).steps [.sink true false, .report r, .sink false false]
    run.session.printedCount = 1 ∧ run.outcome r = .duplicate ∧ run.session.sink.written = [] := by
  decide

end Run

/-! ## Reports in any order -/

theorem Config.shownTexts_perm (config : Config) {reports reports' : List Report} (h : reports.Perm reports') :
    (config.shownTexts reports).Perm (config.shownTexts reports') := (h.filter _).map _

namespace Session

theorem block_congr (config : Config) (screen : Screen) (files : Files) {q r : Report}
    (htext : q.text = r.text) (hposition : q.position = r.position) :
    block config screen files q = block config screen files r := by
  rw [block, block, htext, hposition]

/-- The block of those reports, if there are any, that have a text. -/
def blockOfText (config : Config) (screen : Screen) (files : Files) (reports : List Report) (t : String) : Bytes :=
  ((reports.find? fun r => r.text = t).map (block config screen files)).getD []

theorem blockOfText_text (config : Config) (screen : Screen) (files : Files) {reports : List Report}
    (h : ∀ q ∈ reports, ∀ r ∈ reports, q.text = r.text → q.position = r.position) {r : Report} (hr : r ∈ reports) :
    blockOfText config screen files reports r.text = block config screen files r := by
  unfold blockOfText
  cases hfind : reports.find? fun q => q.text = r.text with
  | none =>
      have hne := List.find?_eq_none.1 hfind r hr
      exact absurd (decide_eq_true rfl) hne
  | some q =>
      have htext : q.text = r.text := by simpa using List.find?_some hfind
      exact block_congr config screen files htext (h q (List.mem_of_find?_eq_some hfind) r hr htext)

end Session

namespace Run

variable {steps : List Step}

/-- Reports leave the surroundings as they are. -/
theorem around_of_mem_journal (h : ∀ step ∈ steps, step.report?.isSome) {run : Run} {around : Surroundings} {e : Record}
    (he : e ∈ run.journal around steps) : e.around = around := by
  induction steps generalizing run with
  | nil => exact absurd he (by simp [journal])
  | cons step steps ih =>
      obtain ⟨hstep, hsteps⟩ := List.forall_mem_cons.1 h
      obtain ⟨r, hr⟩ := Option.isSome_iff_exists.1 hstep
      have hnext : around.next step = around := by
        cases step with
        | emit _ => rfl
        | report _ => rfl
        | files _ => exact absurd hr (by simp [Step.report?])
        | sink _ _ => exact absurd hr (by simp [Step.report?])
      rw [journal, hnext] at he
      rcases List.mem_append.1 he with he | he
      · rw [records, hr] at he
        obtain rfl : e = ⟨r, run.outcome r, around⟩ := by simpa using he
        rfl
      · exact ih hsteps he

section blocks
variable (config : Config) (screen : Screen) (files : Files)

/-- With files that stay as they are and a sink that does not fail, the sink holds the blocks of the printed reports. -/
theorem written_steps_eq_printed (h : ∀ step ∈ steps, step.report?.isSome) :
    ((start config screen files).steps steps).session.sink.written =
      (((start config screen files).journal ⟨files, false, false⟩ steps).filter fun e => e.Printed).flatMap
        (Record.block config screen) := by
  calc ((start config screen files).steps steps).session.sink.written
      = (((start config screen files).journal ⟨files, false, false⟩ steps).filter fun e => e.Stored).flatMap
          (Record.block config screen) := (written_steps (start config screen files) steps).trans (List.nil_append _)
    _ = (((start config screen files).journal ⟨files, false, false⟩ steps).filter fun e => e.Printed).flatMap
          (Record.block config screen) := by
        congr 1
        refine List.filter_congr fun e he => decide_eq_decide.2 ?_
        simp [Record.Stored, Record.Printed, around_of_mem_journal h he]

/-- If the text of a report tells its block, then the sink holds one block for each text that is remembered, in order. -/
theorem written_steps_eq_flatMap (h : ∀ step ∈ steps, step.report?.isSome) {block : String → Bytes}
    (hblock : ∀ r ∈ Step.reports steps, block r.text = Session.block config screen files r) :
    ((start config screen files).steps steps).session.sink.written =
      ((start config screen files).steps steps).session.texts.reverse.flatMap block := by
  let journal := (start config screen files).journal ⟨files, false, false⟩ steps
  have hreport : ∀ e ∈ journal, e.report ∈ Step.reports steps := by
    intro e he
    rw [← map_report_journal (start config screen files) ⟨files, false, false⟩]
    exact List.mem_map_of_mem he
  have htexts : ((start config screen files).steps steps).session.texts.reverse = Record.texts Record.Printed journal := by
    rw [texts_steps_eq _ ⟨files, false, false⟩]
    simp [start, journal]
  calc ((start config screen files).steps steps).session.sink.written
      = (journal.filter fun e => e.Printed).flatMap (Record.block config screen) :=
        written_steps_eq_printed config screen files h
    _ = (journal.filter fun e => e.Printed).flatMap fun e => block e.report.text := by
        refine List.flatMap_congr fun e he => ?_
        have hmem := (List.mem_filter.1 he).1
        rw [Record.block_eq, around_of_mem_journal h hmem, hblock e.report (hreport e hmem)]
    _ = (Record.texts Record.Printed journal).flatMap block := (List.flatMap_map ..).symm
    _ = ((start config screen files).steps steps).session.texts.reverse.flatMap block := by rw [htexts]

end blocks

/-- **Reports in any order.**  Two sessions that get the same reports in different orders, with files that do not change and
a sink that does not fail, end with the same counters and the same set of texts, those of the reports that are not left
out.  If reports with equal texts have equal positions, then both sinks hold the same blocks, one for each text. -/
theorem same_accounts_of_perm (config : Config) (screen : Screen) (files : Files) (steps steps' : List Step)
    (hsteps : ∀ step ∈ steps, step.report?.isSome) (hsteps' : ∀ step ∈ steps', step.report?.isSome)
    (hperm : (Step.reports steps).Perm (Step.reports steps')) :
    let session := ((start config screen files).steps steps).session
    let session' := ((start config screen files).steps steps').session
    session.errorCount = session'.errorCount ∧ session.printedCount = session'.printedCount ∧
      session.hasErrors = session'.hasErrors ∧
      (∀ t, (t ∈ session.texts ↔ t ∈ config.shownTexts (Step.reports steps)) ∧
        (t ∈ session.texts ↔ t ∈ session'.texts)) ∧
      ((∀ q ∈ Step.reports steps, ∀ r ∈ Step.reports steps, q.text = r.text → q.position = r.position) →
        ∃ block : String → Bytes,
          (∀ r ∈ Step.reports steps, block r.text = Session.block config screen files r) ∧
          session.texts.Nodup ∧ session.texts.Perm session'.texts ∧
          session.sink.written = session.texts.reverse.flatMap block ∧
          session'.sink.written = session'.texts.reverse.flatMap block ∧
          session.sink.written.length = session'.sink.written.length) := by
  intro session session'
  have herrors : session.errorCount = session'.errorCount := by
    rw [errorCount_steps, errorCount_steps, hperm.countP_eq]
  have htexts : session.texts.Perm session'.texts := by
    rw [texts_steps, texts_steps]
    exact (List.reverse_perm'.2 (List.perm_reverse.2 (config.shownTexts_perm hperm))).dedup
  refine ⟨herrors, htexts.length_eq, congrArg ErrorsEmitted.ofCount? herrors, fun t => ⟨?_, htexts.mem_iff⟩, fun h => ?_⟩
  · exact mem_texts_steps config screen files steps
  · let block := Session.blockOfText config screen files (Step.reports steps)
    have hblock : ∀ r ∈ Step.reports steps, block r.text = Session.block config screen files r :=
      fun r hr => Session.blockOfText_text config screen files h hr
    have hwritten : session.sink.written = session.texts.reverse.flatMap block :=
      written_steps_eq_flatMap config screen files hsteps hblock
    have hwritten' : session'.sink.written = session'.texts.reverse.flatMap block :=
      written_steps_eq_flatMap config screen files hsteps' fun r hr => hblock r (hperm.mem_iff.2 hr)
    refine ⟨block, hblock, ?_, htexts, hwritten, hwritten', ?_⟩
    · rw [texts_steps]
      exact List.nodup_dedup _
    · rw [hwritten, hwritten']
      exact ((List.reverse_perm'.2 (List.perm_reverse.2 htexts)).flatMap_right block).length_eq

/-- An error that is made twice around a warning, or twice after it: the sinks differ in the order of their blocks only. -/
theorem same_accounts_of_swap :
    let e : Report := ⟨.error, .unknown, "e"⟩
    let w : Report := ⟨.warning, .unknown, "w"⟩
    let session := ((start {} (.terminal none) fun _ => none).steps [.emit e, .emit w, .report e]).session
    let session' := ((start {} (.terminal none) fun _ => none).steps [.report w, .emit e, .emit e]).session
    session.errorCount = session'.errorCount ∧ session.sink.written ≠ session'.sink.written ∧
      session.sink.written.length = session'.sink.written.length := by
  intro e w session session'
  have hperm : (Step.reports [.emit e, .emit w, .report e]).Perm (Step.reports [.report w, .emit e, .emit e]) :=
    List.Perm.swap w e [e]
  obtain ⟨herrors, -, -, -, hblocks⟩ := same_accounts_of_perm {} (.terminal none) (fun _ => none)
    [.emit e, .emit w, .report e] [.report w, .emit e, .emit e] (by simp [Step.report?]) (by simp [Step.report?]) hperm
  obtain ⟨block, -, -, -, -, -, hlength⟩ := hblocks (by decide)
  exact ⟨herrors, by decide, hlength⟩

end Run

end Diagnostics
