import Diagnostics.Source

/-! # Reports and their layout

A report says one thing about one position.  Its text is what a user reads and also what tells two reports apart, so it
names the position, the kind and the message.

A text is filled into the lines of a screen or written on one line as it is.  Filling works as follows.

* **Indent.**  Every line after the first starts two columns past the column of the first colon of the message, so that
  it stands under the message's body; without a colon it starts at column zero.
* **Greedy filling.**  A word stays on the current line unless it would end past the line's width.  A line that has not
  yet reached the indent is never broken, since breaking it would win no room, and a word is never split.
* **Blanks.**  Runs of blanks collapse to one space, and blanks at either end are dropped.
* **Screens.**  A screen has the columns that were asked for, or those that the terminal tells; without a number other
  than zero a common one is assumed (`Screen.width?`, `Screen.columns`). -/

namespace Diagnostics

/-! ### Kinds of reports -/

/-- What a report is about. -/
inductive Kind where
  /-- A fault in the input; the only kind that is counted and never left out. -/
  | error
  /-- A likely mistake. -/
  | warning
  /-- A note for those who work on the compiler. -/
  | debug
  /-- A construct that runs slower than it looks. -/
  | performance
deriving DecidableEq, Repr

namespace Kind

/-- The label in front of the message. -/
def label : Kind → String
  | error => "Error"
  | warning => "Warning"
  | debug => "Debug"
  | performance => "Performance Warning"

/-- The kind that a name on the command line stands for. -/
def ofName? : String → Option Kind
  | "error" => some error
  | "warning" => some warning
  | "debug" => some debug
  | "perf" => some performance
  | "performance-warning" => some performance
  | _ => none

/-- Whether a report of this kind counts as an error. -/
def isError (kind : Kind) : Bool := kind = error

end Kind

/-! ### Reports -/

/-- A message of some kind about a position. -/
structure Report where
  kind : Kind
  position : Position
  message : String
deriving DecidableEq, Repr

namespace Report

/-- The kind and the message. -/
def body (r : Report) : String := r.kind.label ++ ": " ++ r.message

/-- The whole report on one line, with its position in front if it has one. -/
def text (r : Report) : String := if r.position.Known then r.position.text ++ ": " ++ r.body else r.body

end Report

/-! ### Filling lines with words -/

/-- A line is written with its words in order. -/
abbrev Line := List Text.Word

namespace Fill

/-- The narrowest width that is filled. -/
def leastWidth : Nat := 40

/-- The columns left free at the right edge. -/
def margin : Nat := 2

/-- The width of a line on a screen of `columns` columns. -/
def width (columns : Nat) : Nat := max leastWidth (columns - margin)

/-- The column at which the later lines of a message start. -/
def indent (message : List Char) : Nat :=
  match Text.cutFirst? ':' message with
  | some (lead, _) => lead.length + 2
  | none => 0

/-- Whether a line that has reached `column` is broken before `word`. -/
def Breaks (indent width column : Nat) (word : Text.Word) : Prop :=
  indent ≤ column ∧ width < column + 1 + word.length

instance (indent width column : Nat) (word : Text.Word) : Decidable (Breaks indent width column word) :=
  inferInstanceAs (Decidable (_ ∧ _))

/-- The words that go on a line that has reached `column`, and the lines after it. -/
def fill (indent width : Nat) : (column : Nat) → List Text.Word → Line × List Line
  | _, [] => ([], [])
  | column, word :: words =>
    if Breaks indent width column word then
      let (line, later) := fill indent width (indent + word.length) words
      ([], (word :: line) :: later)
    else
      let (line, later) := fill indent width (column + 1 + word.length) words
      (word :: line, later)

/-- The lines of a list of words. -/
def lines (indent width : Nat) : List Text.Word → List Line
  | [] => [[]]
  | word :: words =>
    let (line, later) := fill indent width word.length words
    (word :: line) :: later

/-- A line as it is written: its words, one space apart. -/
def lineText (line : Line) : List Char := [' '].intercalate line

/-- Lines as they are written: each ends in a newline, and the later ones start with the indent. -/
def text (indent : Nat) : List Line → List Char
  | [] => []
  | line :: later =>
    lineText line ++ '\n' :: later.flatMap fun line => List.replicate indent ' ' ++ lineText line ++ ['\n']

/-- A message filled into lines for a screen of `columns` columns. -/
def wrap (message : String) (columns : Nat) : String :=
  let s := message.toList
  String.ofList (text (indent s) (lines (indent s) (width columns) (Text.words s)))

theorem wrap_ne_empty (message : String) (columns : Nat) : wrap message columns ≠ "" := by
  intro h
  have hs := String.toList_eq_nil_iff.2 h
  rw [wrap, String.toList_ofList] at hs
  unfold lines at hs
  split at hs <;> simp [text] at hs

theorem flatten_fill (indent width column : Nat) (words : List Text.Word) :
    (fill indent width column words).1 ++ (fill indent width column words).2.flatten = words := by
  fun_induction fill indent width column words with
  | case1 => simp
  | case2 column word words h line later e ih => simpa [e] using ih
  | case3 column word words h line later e ih => simpa [e] using ih

theorem flatten_lines (indent width : Nat) (words : List Text.Word) : (lines indent width words).flatten = words := by
  cases words with
  | nil => rfl
  | cons word words => simpa [lines] using flatten_fill indent width word.length words

end Fill

/-! ### Screens -/

/-- What tells the number of columns to lay a message out for. -/
inductive Screen where
  /-- The number that was asked for. -/
  | fixed (columns : Nat)
  /-- The number that the terminal behind the output tells, if there is one. -/
  | terminal (columns : Option UInt16)
deriving DecidableEq, Repr

namespace Screen

/-- The number of columns that a screen tells; zero is none. -/
def width? : Screen → Option Nat
  | fixed columns => if 0 < columns then some columns else none
  | terminal none => none
  | terminal (some columns) => if 0 < columns then some columns.toNat else none

/-- The number of columns assumed of a screen that tells none. -/
def defaultColumns : Nat := 80

/-- The number of columns of a screen. -/
def columns (screen : Screen) : Nat := screen.width?.getD defaultColumns

end Screen

/-! ### Layouts of a message -/

/-- How a message is laid out. -/
inductive Layout where
  /-- Filled into lines for the screen. -/
  | filled
  /-- Written on one line. -/
  | plain
deriving DecidableEq, Repr

namespace Layout

/-- A message laid out for a screen, with the newline that ends it. -/
def apply (layout : Layout) (screen : Screen) (message : String) : String :=
  match layout with
  | filled => Fill.wrap message screen.columns
  | plain => message ++ "\n"

theorem apply_ne_empty (layout : Layout) (screen : Screen) (message : String) :
    layout.apply screen message ≠ "" := by
  cases layout with
  | filled => exact Fill.wrap_ne_empty message screen.columns
  | plain => simp [apply]

end Layout

/-! ### Which reports are shown, and how -/

/-- The choices of a user about reports. -/
structure Config where
  /-- Warnings are left out. -/
  warningsOff : Bool := false
  /-- Debug notes are shown. -/
  debug : Bool := false
  /-- Performance warnings are shown. -/
  performance : Bool := false
  layout : Layout := .filled
deriving DecidableEq, Repr

namespace Config

/-- Whether reports of a kind are shown. -/
def allows (config : Config) : Kind → Bool
  | .error => true
  | .warning => !config.warningsOff
  | .debug => config.debug
  | .performance => config.performance

theorem allows_of_isError (config : Config) {kind : Kind} (h : kind.isError = true) : config.allows kind = true := by
  cases kind <;> simp_all [Kind.isError, allows]

end Config

end Diagnostics
