import Diagnostics.Session
import Diagnostics.Spelling

/-! # The command line

The program reads its options, then the name of a command, and runs it on the other arguments.

* **Options** may stand anywhere among the arguments.  An option is an argument that starts with `--`, except `--`
  itself, which separates reports.  Each option sets one thing, and a later one overrides an earlier one; the other
  arguments keep their order.
* **Reports.**  The arguments of a report are its kind, its position and the words of its message.  Several reports
  stand in groups with `--` between them, and a group without arguments is none.  The first group that is no report
  decides the misuse.
* **Other commands** answer with a text on standard output and with whether they found what they were asked for.
* **Status 0** is success, **status 1** a command that ran and found a failure: an error was reported, or no candidate
  was near enough.
* **Status 2** is misuse.  Nothing is reported in that case, also when only the last of several reports is malformed.
* **Abort.**  A source name without a location ends the program by a fatal error, a broken promise inside the program
  and no report to a user.  It names the place in the program's own text that noticed it.

The arguments of a run are texts: one that is not valid Unicode stops the program before its options are read, and such
a run is not described here.  Neither are the traces that the environment can switch on. -/

namespace Diagnostics

/-! ### Misuse of the command line -/

namespace CommandLine

/-- What a command takes. -/
inductive Operand where
  | kind
  | position
  | message
  | query
  | compared
  | sourceName
deriving DecidableEq, Repr

/-- An operand in words. -/
def Operand.text : Operand → String
  | kind => "diagnostic kind"
  | position => "source position"
  | message => "message"
  | query => "query"
  | compared => "string to compare"
  | sourceName => "file name"

/-- What is given as a number. -/
inductive Quantity where
  | columns
  | bound
deriving DecidableEq, Repr

/-- A quantity in words. -/
def Quantity.text : Quantity → String
  | columns => "column count"
  | bound => "distance bound"

/-- How arguments are malformed. -/
inductive Misuse where
  | missing (operand : Operand)
  | unexpected (argument : String)
  | unknownCommand (name : String)
  | unknownOption (argument : String)
  | unknownKind (name : String)
  | badNumber (quantity : Quantity) (value : String)
  | badPosition (spec : String)
deriving DecidableEq, Repr

namespace Misuse

/-- An argument between the marks that quote it. -/
def quoted (argument : String) : String := "`" ++ argument ++ "`"

/-- A misuse in words. -/
def message : Misuse → String
  | missing operand => "missing " ++ operand.text
  | unexpected argument => "unexpected argument " ++ quoted argument
  | unknownCommand name => "unknown command " ++ quoted name
  | unknownOption argument => "unknown option " ++ quoted argument
  | unknownKind name => "unknown diagnostic kind " ++ quoted name ++ " (expected error, warning, debug or perf)"
  | badNumber quantity value => "invalid " ++ quantity.text ++ " " ++ quoted value
  | badPosition spec =>
    "invalid source position " ++ quoted spec ++ " (expected file:line:column[-line:column] or -)"

end Misuse

/-! ### Options -/

/-- What one option sets. -/
inductive Setting where
  | warningsOff
  | debug
  | performance
  | plain
  | columns (count : Nat)
  | directory (name : String)
deriving DecidableEq, Repr

namespace Setting

/-- The value of an argument that starts with `name`. -/
def value? (name : String) (argument : String) : Option (List Char) := name.toList.isPrefixOf? argument.toList

/-- What an option sets, or why it is none. -/
def read (argument : String) : Except Misuse Setting :=
  match argument with
  | "--woff" => .ok .warningsOff
  | "--debug" => .ok .debug
  | "--wperf" => .ok .performance
  | "--nowrap" => .ok .plain
  | _ =>
    match value? "--columns=" argument with
    | some value =>
      match Numeral.count? value with
      | some count => .ok (.columns count)
      | none => .error (.badNumber .columns (String.ofList value))
    | none =>
      match value? "--cwd=" argument with
      | some name => .ok (.directory (String.ofList name))
      | none => .error (.unknownOption argument)

end Setting

/-- The choices that hold for every command. -/
structure Options where
  warningsOff : Bool := false
  debug : Bool := false
  performance : Bool := false
  plain : Bool := false
  /-- The number of columns to lay reports out for. -/
  columns : Option Nat := none
  /-- The directory that source names are relative to. -/
  directory : Option String := none
deriving DecidableEq, Repr

namespace Options

/-- The options once something is set. -/
def set (options : Options) : Setting → Options
  | .warningsOff => { options with warningsOff := true }
  | .debug => { options with debug := true }
  | .performance => { options with performance := true }
  | .plain => { options with plain := true }
  | .columns count => { options with columns := some count }
  | .directory name => { options with directory := some name }

/-- Whether an argument is an option. -/
def isOption (argument : String) : Bool := "--".toList.isPrefixOf argument.toList && argument ≠ "--"

/-- The options among some arguments, and the other arguments. -/
def parse (arguments : List String) : Except Misuse (Options × List String) := do
  let settings ← (arguments.filter isOption).mapM Setting.read
  return (settings.foldl set {}, arguments.filter (!isOption ·))

/-- The choices about reports. -/
def config (options : Options) : Config where
  warningsOff := options.warningsOff
  debug := options.debug
  performance := options.performance
  layout := if options.plain then .plain else .filled

end Options

/-! ### Reports on the command line -/

/-- The kind of a name. -/
def readKind (name : String) : Except Misuse Kind :=
  match Kind.ofName? name with
  | some kind => .ok kind
  | none => .error (.unknownKind name)

/-- The position that a text stands for. -/
def readPosition (spec : String) : Except Misuse Position :=
  match Position.read? spec with
  | some position => .ok position
  | none => .error (.badPosition spec)

/-- The report of one group. -/
def readReport : List String → Except Misuse Report
  | [] => .error (.missing .kind)
  | [_] => .error (.missing .position)
  | [_, _] => .error (.missing .message)
  | kind :: position :: message => do
    let kind ← readKind kind
    let position ← readPosition position
    return ⟨kind, position, " ".intercalate message⟩

/-- The groups of arguments between separators. -/
def groups (arguments : List String) : List (List String) := (arguments.splitOn "--").filter (· ≠ [])

/-- The reports of all groups, one at least. -/
def readReports (arguments : List String) : Except Misuse (List Report) :=
  match groups arguments with
  | [] => .error (.missing .kind)
  | groups => groups.mapM readReport

/-! ### Commands that answer on standard output -/

/-- Why a command stops early. -/
inductive Stop where
  | misuse (misuse : Misuse)
  | unlocatable (name : String) (cause : Unlocatable)
deriving DecidableEq, Repr

/-- What a command answers. -/
structure Reply where
  found : Bool
  text : String
deriving DecidableEq, Repr

namespace Reply

/-- The reply that found what was asked for and writes some lines. -/
def ofLines (found : Bool) (lines : List String) : Reply := ⟨found, String.join (lines.map (· ++ "\n"))⟩

/-- The sink once the text of a reply is written to it, or `none` if that fails. -/
def print? (reply : Reply) (sink : Sink) : Option Sink := sink.write? (Bytes.ofString reply.text)

end Reply

/-- The commands that answer on standard output. -/
inductive Command where
  /-- The distance between two texts, up to a bound if there is one. -/
  | distance
  /-- The candidates nearest to a query. -/
  | suggest
  /-- The directory and the file name of a source name. -/
  | split
deriving DecidableEq, Repr

namespace Command

/-- The reply with the distance between two texts. -/
def distanceReply (a b : String) (bound : Nat) : Reply :=
  .ofLines true [String.ofList (Numeral.write (Spelling.distance a b bound))]

/-- The reply to `distance`. -/
def runDistance : List String → Except Stop Reply
  | [] | [_] => .error (.misuse (.missing .compared))
  | [a, b] => .ok (distanceReply a b 0)
  | [a, b, bound] =>
    match Numeral.count? bound.toList with
    | some n => .ok (distanceReply a b n)
    | none => .error (.misuse (.badNumber .bound bound))
  | _ :: _ :: _ :: extra :: _ => .error (.misuse (.unexpected extra))

/-- The reply to `suggest`: the names one to a line, and the question that offers them. -/
def runSuggest : List String → Except Stop Reply
  | [] => .error (.misuse (.missing .query))
  | query :: candidates =>
    let names := Spelling.nearest query candidates
    .ok (.ofLines (!names.isEmpty) (names ++ (Spelling.question? names).toList))

/-- The reply to `split`, with names relative to a directory. -/
def runSplit (directory : String) : List String → Except Stop Reply
  | [] => .error (.misuse (.missing .sourceName))
  | [name] =>
    match SourceName.locate directory name with
    | .ok location => .ok (.ofLines true [location.directory, location.fileName])
    | .error cause => .error (.unlocatable name cause)
  | _ :: extra :: _ => .error (.misuse (.unexpected extra))

/-- The reply of a command to its arguments. -/
def run (directory : String) : Command → List String → Except Stop Reply
  | distance => runDistance
  | suggest => runSuggest
  | split => runSplit directory

end Command

/-! ### The usage text -/

/-- How the program is used, line by line. -/
def usageLines : List String := [
  "ispc diagnostics driver",
  "",
  "Usage: ispc-diag [options] <command> [args]",
  "",
  "Commands:",
  "  report <kind> <pos> <message...> [-- <kind> <pos> <message...>]...",
  "                       Emit diagnostics; kind is error, warning, debug or perf,",
  "                       pos is file:line:column[-line:column] or -",
  "  suggest <query> <candidate...>",
  "                       Print the closest candidates to a misspelled name",
  "  distance <a> <b> [max]",
  "                       Print the edit distance between two strings",
  "  split <name>         Split a source file name into directory and base name",
  "  help                 Show this help message",
  "",
  "Options:",
  "  --woff               Disable warnings",
  "  --debug              Print debug messages",
  "  --wperf              Print performance warnings",
  "  --nowrap             Do not wrap diagnostics to the terminal width",
  "  --columns=<n>        Wrap diagnostics to n columns",
  "  --cwd=<dir>          Resolve relative file names against dir",
  "",
  "Environment:",
  "  RUST_LOG             Enable internal tracing (e.g. RUST_LOG=ispc_diagnostic=trace)"]

/-- How the program is used. -/
def usage : String := String.join (usageLines.map (· ++ "\n"))

end CommandLine

/-! ### Fatal errors -/

/-- A place in the program's own text. -/
structure Site where
  file : String
  line : UInt32
deriving DecidableEq, Repr

/-- A fatal error and the place that noticed it. -/
structure FatalError where
  site : Site
  message : String
deriving DecidableEq, Repr

namespace FatalError

/-- The error without its place. -/
def notice (e : FatalError) : String := "FATAL ERROR: " ++ e.message

/-- The line that is written before the program ends. -/
def text (e : FatalError) : String :=
  e.site.file ++ "(" ++ String.ofList (Numeral.write e.site.line.toNat) ++ "): " ++ e.notice

end FatalError

/-! ### The program -/

namespace CommandLine

/-- What a run finds besides its arguments. -/
structure Host where
  /-- The working directory, or an empty text if it cannot be told. -/
  directory : String
  /-- The number of columns that the terminal behind standard output tells, if there is one. -/
  terminal : Option UInt16
  files : Files

/-- How the program ends. -/
inductive Ending where
  | finished (status : UInt32) (stdout stderr : Bytes)
  | aborted (error : FatalError)
deriving DecidableEq, Repr

namespace Ending

/-- The status that the program passes on, unless it is aborted. -/
def status? : Ending → Option UInt32
  | finished status _ _ => some status
  | aborted _ => none

/-- What has been written to standard output. -/
def stdout : Ending → Bytes
  | finished _ stdout _ => stdout
  | aborted _ => []

/-- What has been written to standard error; a fatal error is written before the program ends. -/
def stderr : Ending → Bytes
  | finished _ _ stderr => stderr
  | aborted error => Bytes.ofString (error.text ++ "\n")

section finished
variable (status : UInt32) (out err : Bytes)

@[simp] theorem status?_finished : (finished status out err).status? = some status := rfl

@[simp] theorem stdout_finished : (finished status out err).stdout = out := rfl

@[simp] theorem stderr_finished : (finished status out err).stderr = err := rfl

end finished

theorem status?_eq_none_iff {ending : Ending} : ending.status? = none ↔ ∃ error, ending = aborted error := by
  cases ending <;> simp [status?]

end Ending

namespace Program

/-- The status of a command that ran. -/
def status (success : Bool) : UInt32 := if success then 0 else 1

/-- The status of misuse. -/
def misuseStatus : UInt32 := 2

/-- What follows the line about a misuse: a hint if a command is unknown. -/
def hint : Misuse → String
  | .unknownCommand _ => "Run 'ispc-diag help' for usage information.\n"
  | _ => ""

/-- The lines about a misuse. -/
def misuseText (misuse : Misuse) : String := "error: " ++ misuse.message ++ "\n" ++ hint misuse

/-- The ending of a misuse. -/
def misused (misuse : Misuse) : Ending := .finished misuseStatus [] (Bytes.ofString (misuseText misuse))

/-- The fatal error of a source name without a location. -/
def unlocatable (site : Site) (name : String) (cause : Unlocatable) : FatalError :=
  ⟨site, "cannot resolve source file `" ++ name ++ "`: " ++ cause.message⟩

/-- The screen to lay reports out for: the columns that are asked for, or else the terminal. -/
def screen (terminal : Option UInt16) (options : Options) : Screen :=
  match options.columns with
  | some columns => .fixed columns
  | none => .terminal terminal

/-- The session that reports are sent through. -/
def session (terminal : Option UInt16) (options : Options) : Session :=
  { config := options.config, screen := screen terminal options }

/-- The ending of `report`: everything is written to standard error. -/
def runReport (host : Host) (options : Options) (arguments : List String) : Ending :=
  match readReports arguments with
  | .error misuse => misused misuse
  | .ok reports =>
    let after := (session host.terminal options).emitAll host.files reports
    .finished (status after.hasErrors.isNone) [] after.sink.written

/-- The ending of a command that answers on standard output. -/
def runCommand (site : Site) (directory : String) (command : Command) (arguments : List String) : Ending :=
  match command.run directory arguments with
  | .ok reply => .finished (status reply.found) (Bytes.ofString reply.text) []
  | .error (.misuse misuse) => misused misuse
  | .error (.unlocatable name cause) => .aborted (unlocatable site name cause)

/-- The ending of the program on a host for its arguments, all of them texts.  A fatal error names `site`, the place
where the text of the program makes it. -/
def run (site : Site) (host : Host) (arguments : List String) : Ending :=
  match Options.parse arguments with
  | .error misuse => misused misuse
  | .ok (_, []) => .finished misuseStatus (Bytes.ofString usage) []
  | .ok (options, name :: operands) =>
    let directory := options.directory.getD host.directory
    match name with
    | "report" => runReport host options operands
    | "suggest" => runCommand site directory .suggest operands
    | "distance" => runCommand site directory .distance operands
    | "split" => runCommand site directory .split operands
    | "help" | "-h" => .finished (status true) (Bytes.ofString usage) []
    | _ => misused (.unknownCommand name)

/-- The names of the files that the program reads for its arguments. -/
def sources (arguments : List String) : List String :=
  match Options.parse arguments with
  | .ok (_, "report" :: operands) =>
    match readReports operands with
    | .ok reports => (reports.filter (·.position.Known)).map (·.position.file)
    | .error _ => []
  | _ => []

end Program
end CommandLine

end Diagnostics
