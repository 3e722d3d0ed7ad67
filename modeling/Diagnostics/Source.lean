import Diagnostics.Text

/-! # Places in source files

A position is a range of text in a named file: the place of its first column and the place one past its last one.

* **Lines and columns** count from one.  Line zero as the first line marks a position as unknown, whatever else it
  holds.
* **Validity** is what a known position promises beyond that (`Position.Valid`): a file name, a first column, and a stop
  that does not lie before the start.  No operation checks it.
* **Joining** two known positions of one file gives the range from the earlier start to the later stop, where places are
  ordered by line and then by column.
* **Written positions.**  A position is shown as `file:line:column`, its start, and a reader also takes
  `file:line:column-line:column`, its whole range; `-` is the written form of no position.  File names may hold `:` and
  `-`, so the numbers are taken from the right.  What stands behind the last `-` is the stop if it is a `line:column`,
  and otherwise part of the file name.  Only known and valid positions are read.
* **Names of source files** are relative to a working directory or, with a leading separator, stand on their own.
  Locating one joins the two, with one separator between them unless the directory is empty or already ends in one
  (`SourceName.resolve`), and cuts the joined path behind its last separator.  That fails for three causes, and the path
  is not looked up anywhere (`Unlocatable`). -/

namespace Diagnostics

/-! ### Positions in source files -/

/-- A place in a text. -/
structure Place where
  line : UInt32
  column : UInt32
deriving DecidableEq, Repr

namespace Place

/-- A place comes before those on later lines and those on its line that are not to its left. -/
instance : LE Place := ⟨fun p q => p.line < q.line ∨ p.line = q.line ∧ p.column ≤ q.column⟩

instance : DecidableLE Place := fun p q =>
  inferInstanceAs (Decidable (p.line < q.line ∨ p.line = q.line ∧ p.column ≤ q.column))

instance : Min Place := minOfLe

instance : Max Place := maxOfLe

theorem le_iff {p q : Place} : p ≤ q ↔ p.line < q.line ∨ p.line = q.line ∧ p.column ≤ q.column := Iff.rfl

/-- The greatest column. -/
def lastColumn : UInt32 := 4294967295

/-- The place one column to the right, or the same place at the last column. -/
def right (p : Place) : Place := { p with column := if p.column = lastColumn then lastColumn else p.column + 1 }

end Place

/-- A range of text in a file. -/
structure Position where
  file : String
  start : Place
  stop : Place
deriving DecidableEq, Repr

namespace Position

/-- The position of one column. -/
def point (file : String) (place : Place) : Position := ⟨file, place, place.right⟩

/-- The position of what has none. -/
def unknown : Position := ⟨"", ⟨0, 0⟩, ⟨0, 0⟩⟩

/-- Whether a position refers to a text. -/
def Known (p : Position) : Prop := p.start.line ≠ 0

instance : DecidablePred Known := fun p => inferInstanceAs (Decidable (p.start.line ≠ 0))

/-- Whether a position spans more than one line. -/
def MultiLine (p : Position) : Prop := p.start.line < p.stop.line

instance : DecidablePred MultiLine := fun p => inferInstanceAs (Decidable (p.start.line < p.stop.line))

/-- Whether a position, if known, is a range of a named file. -/
def Valid (p : Position) : Prop :=
  p.Known →
    p.file ≠ "" ∧ p.start.column ≠ 0 ∧ p.start.line ≤ p.stop.line ∧
      (p.MultiLine ∨ p.start.column ≤ p.stop.column)

instance : DecidablePred Valid := fun p => inferInstanceAs (Decidable (p.Known → _ ∧ _ ∧ _ ∧ (_ ∨ _)))

/-- The range that covers two positions.  An unknown one adds nothing to the other, and a position in another file
leaves the first one as it is. -/
def join (p q : Position) : Position :=
  if ¬ q.Known then p
  else if ¬ p.Known then q
  else if p.file = q.file then ⟨p.file, min p.start q.start, max p.stop q.stop⟩
  else p

theorem join_of_not_known {p q : Position} (h : ¬ q.Known) : p.join q = p := by simp [join, h]

end Position

/-! ### Written positions -/

namespace Place

/-- A place as `line:column`. -/
def chars (p : Place) : List Char := Numeral.write p.line.toNat ++ ':' :: Numeral.write p.column.toNat

/-- The place written as `line:column`. -/
def read? (s : List Char) : Option Place := do
  let (line, column) ← Text.cutFirst? ':' s
  return ⟨← Numeral.coordinate? line, ← Numeral.coordinate? column⟩

end Place

namespace Position

/-- The start of a position as `file:line:column`. -/
def startText (p : Position) : String := p.file ++ String.ofList (':' :: p.start.chars)

/-- The range of a position as `file:line:column-line:column`. -/
def rangeText (p : Position) : String := p.startText ++ String.ofList ('-' :: p.stop.chars)

/-- A position as it is shown. -/
def text (p : Position) : String := if p.Known then p.startText else "<unknown>"

/-- A written range in two parts: its start, and its stop if one is written. -/
def cutStop (s : List Char) : List Char × Option Place :=
  match Text.cutLast? '-' s with
  | some (start, stop) =>
    match Place.read? stop with
    | some stop => (start, some stop)
    | none => (s, none)
  | none => (s, none)

/-- The file and the place written as `file:line:column`; a file has a name. -/
def readStart? (s : List Char) : Option (String × Place) := do
  let (lead, column) ← Text.cutLast? ':' s
  let (file, line) ← Text.cutLast? ':' lead
  if file = [] then none
  else return (String.ofList file, ⟨← Numeral.coordinate? line, ← Numeral.coordinate? column⟩)

/-- The range written as `file:line:column` or `file:line:column-line:column`, before it is checked. -/
def readRange? (s : List Char) : Option Position :=
  let (start, stop?) := cutStop s
  (readStart? start).map fun (file, place) =>
    match stop? with
    | some stop => ⟨file, place, stop⟩
    | none => point file place

/-- The position that a text stands for. -/
def read? (spec : String) : Option Position :=
  if spec = "-" then some unknown
  else (readRange? spec.toList).filter fun p => decide (p.Known ∧ p.Valid)

end Position

/-! ### Names of source files -/

/-- Where a source file lies: its directory, final separator included, and its name in it. -/
structure Location where
  directory : String
  fileName : String
deriving DecidableEq, Repr

/-- Why a source name has no location. -/
inductive Unlocatable where
  /-- There is no name. -/
  | emptyName
  /-- The path has no directory. -/
  | noSeparator (path : String)
  /-- The path names a directory. -/
  | emptyFileName (path : String)
deriving DecidableEq, Repr

namespace Unlocatable

/-- The cause in words. -/
def message : Unlocatable → String
  | emptyName => "empty file name"
  | noSeparator path => "no path separator in `" ++ path ++ "`"
  | emptyFileName path => "path `" ++ path ++ "` ends in a separator"

end Unlocatable

namespace SourceName

/-- The character between the parts of a path. -/
def separator : Char := '/'

/-- A name joined to the directory that it is relative to. -/
def resolve (directory name : List Char) : List Char :=
  if name.head? = some separator ∨ directory = [] then name
  else if directory.getLast? = some separator then directory ++ name
  else directory ++ separator :: name

/-- The location of a source file named relative to a working directory. -/
def locate (directory name : String) : Except Unlocatable Location :=
  if name = "" then .error .emptyName
  else
    let path := resolve directory.toList name.toList
    match Text.cutLast? separator path with
    | none => .error (.noSeparator (String.ofList path))
    | some (_, []) => .error (.emptyFileName (String.ofList path))
    | some (lead, fileName) => .ok ⟨String.ofList (lead ++ [separator]), String.ofList fileName⟩

end SourceName

end Diagnostics
