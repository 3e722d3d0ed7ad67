import Diagnostics.Report

/-! # Sessions

A session takes the reports of one run of a compiler and writes each of them once.

* **Suppression.**  A report whose kind is not allowed leaves the session as it is.
* **Counting.**  Every other report of an error is counted, whether or not it is written.
* **Duplicates.**  A report with the text of an earlier one is not written again.
* **Writing.**  The text is laid out, the excerpt at its position follows, and the whole block is written at once and
  flushed.  A sink that fails is no failure of the session: the report keeps its outcome, and its text is remembered.
* **Excerpts.**  Below a report the lines that its position names are echoed byte for byte, with a row of carets under
  the columns, one at least, and a blank line at the end.  Lines are counted by the newlines that end them, in a counter
  of the width of a line number; copying stops with the newline that takes the counter past the last line (`LineCopy`).
  An unknown position or a file that cannot be read gives no excerpt, and neither is a failure.
* **Runs.**  Between the reports of a session the files may change, and its sink may fail and recover.  A run is the
  sequence of such steps from a fresh session on (`Run.step`). -/

namespace Diagnostics

/-! ### Sinks -/

/-- A stream that keeps what is written to it. -/
structure Sink where
  written : Bytes := []
  /-- The number of flushes that succeeded. -/
  flushes : Nat := 0
  failsWrite : Bool := false
  failsFlush : Bool := false
deriving DecidableEq, Repr

namespace Sink

/-- Writing bytes, or `none` if that fails; nothing fails when there is nothing to write. -/
def write? (sink : Sink) (bytes : Bytes) : Option Sink :=
  if sink.failsWrite ∧ bytes ≠ [] then none else some { sink with written := sink.written ++ bytes }

/-- Flushing, or `none` if that fails. -/
def flush? (sink : Sink) : Option Sink :=
  if sink.failsFlush then none else some { sink with flushes := sink.flushes + 1 }

/-- Writing bytes and then flushing, as far as neither fails. -/
def push (sink : Sink) (bytes : Bytes) : Sink :=
  match sink.write? bytes with
  | some written => written.flush?.getD written
  | none => sink

theorem push_eq (sink : Sink) (bytes : Bytes) :
    sink.push bytes =
      { sink with
        written := sink.written ++ if sink.failsWrite then [] else bytes
        flushes := sink.flushes + if sink.failsFlush ∨ sink.failsWrite ∧ bytes ≠ [] then 0 else 1 } := by
  obtain ⟨written, flushes, failsWrite, failsFlush⟩ := sink
  by_cases hb : bytes = [] <;> cases failsWrite <;> cases failsFlush <;> simp [push, write?, flush?, hb]

theorem failsWrite_push (sink : Sink) (bytes : Bytes) : (sink.push bytes).failsWrite = sink.failsWrite := by
  rw [push_eq]

theorem failsFlush_push (sink : Sink) (bytes : Bytes) : (sink.push bytes).failsFlush = sink.failsFlush := by
  rw [push_eq]

theorem written_push (sink : Sink) (bytes : Bytes) :
    (sink.push bytes).written = sink.written ++ if sink.failsWrite then [] else bytes := by
  rw [push_eq]

theorem flushes_push (sink : Sink) (bytes : Bytes) :
    (sink.push bytes).flushes =
      sink.flushes + if sink.failsFlush ∨ sink.failsWrite ∧ bytes ≠ [] then 0 else 1 := by
  rw [push_eq]

end Sink

/-! ### Excerpts of source files -/

/-- The content of every file that can be read, by name. -/
abbrev Files := String → Option Bytes

/-- The state of copying lines: the number of the current line, the bytes copied so far with the latest one first, and
whether the last line has ended. -/
structure LineCopy where
  line : UInt32 := 1
  copied : Bytes := []
  finished : Bool := false
deriving DecidableEq, Repr

namespace LineCopy

/-- The copy before the first byte. -/
def start : LineCopy := {}

/-- Reading one more byte when the lines from `first` to `last` are wanted. -/
def read (first last : UInt32) (copy : LineCopy) (byte : UInt8) : LineCopy :=
  if copy.finished then copy
  else
    let copied := if first ≤ copy.line ∧ copy.line ≤ last then byte :: copy.copied else copy.copied
    if byte = Bytes.newline then ⟨copy.line + 1, copied, decide (last < copy.line + 1)⟩
    else ⟨copy.line, copied, false⟩

/-- The copy after all bytes of a content. -/
def run (first last : UInt32) (content : Bytes) : LineCopy := content.foldl (read first last) start

theorem run_append (first last : UInt32) (content rest : Bytes) :
    run first last (content ++ rest) = rest.foldl (read first last) (run first last content) := List.foldl_append

end LineCopy

namespace Excerpt

/-- The bytes of a content that stand on the lines from `first` to `last`. -/
def copyLines (first last : UInt32) (content : Bytes) : Bytes := (LineCopy.run first last content).copied.reverse

/-- Bytes with a newline at their end, if there are any. -/
def endLine (bytes : Bytes) : Bytes :=
  if bytes ≠ [] ∧ bytes.getLast? ≠ some Bytes.newline then bytes ++ [Bytes.newline] else bytes

/-- The number of columns left of a position. -/
def padding (p : Position) : Nat := p.start.column.toNat - 1

/-- The number of columns under which carets stand. -/
def carets (p : Position) : Nat := max 1 (p.stop.column.toNat - p.start.column.toNat)

/-- The row of carets under a position, and a blank line. -/
def underline (p : Position) : Bytes :=
  List.replicate (padding p) Bytes.space ++ List.replicate (carets p) Bytes.caret ++ [Bytes.newline, Bytes.newline]

/-- The excerpt of a content at a position. -/
def ofContent (p : Position) (content : Bytes) : Bytes :=
  endLine (copyLines p.start.line p.stop.line content) ++ underline p

/-- The excerpt at a position, if its file can be read. -/
def ofFiles? (files : Files) (p : Position) : Option Bytes :=
  if p.Known then (files p.file).map (ofContent p) else none

/-- The sink once the excerpt at a position is written to it, or `none` if that fails. -/
def print? (files : Files) (p : Position) (sink : Sink) : Option Sink :=
  match ofFiles? files p with
  | some excerpt => sink.write? excerpt
  | none => some sink

end Excerpt

/-! ### Sessions -/

/-- Evidence that errors were reported; it carries nothing else. -/
structure ErrorsEmitted where
deriving DecidableEq, Repr

namespace ErrorsEmitted

/-- The evidence that a count of errors gives. -/
def ofCount? (count : Nat) : Option ErrorsEmitted := if 0 < count then some {} else none

/-- The evidence in words. -/
def text (_ : ErrorsEmitted) : String := "error(s) emitted"

theorem isSome_ofCount?_iff {count : Nat} : (ofCount? count).isSome ↔ 0 < count := by
  unfold ofCount?; split <;> simp_all

end ErrorsEmitted

/-- What became of a report. -/
inductive Outcome where
  /-- It was passed to the sink. -/
  | printed
  /-- Its text was passed to the sink before. -/
  | duplicate
  /-- Its kind is not shown. -/
  | suppressed
deriving DecidableEq, Repr

/-- The state of a session. -/
structure Session where
  config : Config := {}
  screen : Screen := .terminal none
  /-- The texts passed to the sink, the latest first. -/
  texts : List String := []
  /-- The number of errors reported.  Nothing bounds it here; a counter with `Count.limit` as its limit is wide enough for
  a run of as many steps. -/
  errorCount : Nat := 0
  sink : Sink := {}
deriving DecidableEq, Repr

namespace Session

/-- The number of different texts passed to the sink. -/
def printedCount (session : Session) : Nat := session.texts.length

/-- Evidence that errors were reported, if any were. -/
def hasErrors (session : Session) : Option ErrorsEmitted := ErrorsEmitted.ofCount? session.errorCount

/-- What is written for a report: its text as laid out, and the excerpt at its position. -/
def block (config : Config) (screen : Screen) (files : Files) (r : Report) : Bytes :=
  Bytes.ofString (config.layout.apply screen r.text) ++ (Excerpt.ofFiles? files r.position).getD []

/-- The session with one more error, if the kind is that of an error. -/
def countError (session : Session) (kind : Kind) : Session :=
  if kind.isError then { session with errorCount := session.errorCount + 1 } else session

/-- The session once a report is passed to the sink. -/
def print (session : Session) (files : Files) (r : Report) : Session :=
  { session with
    texts := r.text :: session.texts
    sink := session.sink.push (block session.config session.screen files r) }

/-- Reporting, and what became of the report. -/
def emit (session : Session) (files : Files) (r : Report) : Outcome × Session :=
  if !session.config.allows r.kind then (.suppressed, session)
  else if r.text ∈ session.texts then (.duplicate, session.countError r.kind)
  else (.printed, (session.countError r.kind).print files r)

/-- Reporting several things in order. -/
def emitAll (session : Session) (files : Files) (reports : List Report) : Session :=
  reports.foldl (fun session r => (session.emit files r).2) session

theorem emit_of_not_allows {session : Session} {r : Report} (h : session.config.allows r.kind = false) (files : Files) :
    session.emit files r = (.suppressed, session) := by
  simp [emit, h]

theorem emit_of_mem {session : Session} {r : Report} (h : session.config.allows r.kind = true)
    (hr : r.text ∈ session.texts) (files : Files) :
    session.emit files r = (.duplicate, session.countError r.kind) := by
  simp [emit, h, hr]

theorem emit_of_not_mem {session : Session} {r : Report} (h : session.config.allows r.kind = true)
    (hr : r.text ∉ session.texts) (files : Files) :
    session.emit files r = (.printed, (session.countError r.kind).print files r) := by
  simp [emit, h, hr]

theorem errorCount_countError (session : Session) (kind : Kind) :
    (session.countError kind).errorCount = session.errorCount + if kind.isError then 1 else 0 := by
  unfold countError; split <;> rfl

theorem errorCount_emit (session : Session) (files : Files) (r : Report) :
    (session.emit files r).2.errorCount = session.errorCount + if r.kind.isError then 1 else 0 := by
  unfold emit
  split
  · next h =>
    have hr : ¬ r.kind.isError := fun hr => by simp [session.config.allows_of_isError hr] at h
    simp [hr]
  · split
    · exact session.errorCount_countError r.kind
    · exact session.errorCount_countError r.kind

/-- Reporting an error, which is never left out. -/
def error (session : Session) (files : Files) (position : Position) (message : String) : ErrorsEmitted × Session :=
  ({}, (session.emit files ⟨.error, position, message⟩).2)

/-- Reporting a warning. -/
def warning (session : Session) (files : Files) (position : Position) (message : String) : Outcome × Session :=
  session.emit files ⟨.warning, position, message⟩

/-- Reporting a debug note. -/
def debug (session : Session) (files : Files) (position : Position) (message : String) : Outcome × Session :=
  session.emit files ⟨.debug, position, message⟩

/-- Reporting a performance warning. -/
def performance (session : Session) (files : Files) (position : Position) (message : String) : Outcome × Session :=
  session.emit files ⟨.performance, position, message⟩

theorem hasErrors_error (session : Session) (files : Files) (position : Position) (message : String) :
    (session.error files position message).2.hasErrors = some (session.error files position message).1 := by
  simp [error, hasErrors, ErrorsEmitted.ofCount?, errorCount_emit, Kind.isError]

end Session

/-! ### Runs of a session -/

/-- A step of a run. -/
inductive Step where
  /-- A report of any kind. -/
  | emit (report : Report)
  /-- A report by the function of its kind. -/
  | report (report : Report)
  /-- From now on the files are these. -/
  | files (files : Files)
  /-- From now on writes and flushes of the sink fail as told. -/
  | sink (failsWrite failsFlush : Bool)

/-- What a step answers. -/
inductive Answer where
  | outcome (outcome : Outcome)
  | errorsEmitted (evidence : ErrorsEmitted)
  | done

/-- A session and the files as they are. -/
structure Run where
  session : Session
  files : Files

namespace Run

/-- The run that has not begun. -/
def start (config : Config) (screen : Screen) (files : Files) : Run := ⟨{ config, screen }, files⟩

/-- Reporting by the function of the report's kind. -/
def report (run : Run) (r : Report) : Answer × Session :=
  match r.kind with
  | .error => (run.session.error run.files r.position r.message).map .errorsEmitted id
  | .warning => (run.session.warning run.files r.position r.message).map .outcome id
  | .debug => (run.session.debug run.files r.position r.message).map .outcome id
  | .performance => (run.session.performance run.files r.position r.message).map .outcome id

/-- One step, and its answer. -/
def step (run : Run) : Step → Answer × Run
  | .emit r => (run.session.emit run.files r).map .outcome fun session => { run with session }
  | .report r => (run.report r).map id fun session => { run with session }
  | .files files => (.done, { run with files })
  | .sink failsWrite failsFlush =>
    (.done, { run with session := { run.session with sink := { run.session.sink with failsWrite, failsFlush } } })

/-- The run after some steps. -/
def steps (run : Run) (steps : List Step) : Run := steps.foldl (fun run step => (run.step step).2) run

theorem steps_append (run : Run) (before after : List Step) :
    run.steps (before ++ after) = (run.steps before).steps after := List.foldl_append

theorem report_snd (run : Run) (r : Report) : (run.report r).2 = (run.session.emit run.files r).2 := by
  obtain ⟨kind, position, message⟩ := r
  cases kind <;> rfl

end Run

end Diagnostics
