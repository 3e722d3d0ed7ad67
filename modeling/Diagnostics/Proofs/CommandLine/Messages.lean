import Mathlib.Data.List.Infix
import Diagnostics.Proofs.CommandLine.Options

/-! # What the program says

The program writes about a misuse, about a source name without a location, and about its own use.

* **Misuses** (`Misuse.Announces`).  The text about a misuse has an opening, what the misuse is about, and a closing
  (`toList_misuseText`).  No opening is the beginning of another one (`sort_eq_of_isPrefix`), so the text tells the sort
  of the misuse first and then what it is about (`misuseText_inj`).
* **Causes.**  The words for a cause tell the cause and its path (`Unlocatable.message_inj`).
* **Usage** (`Explains`).  Every command and every option is shown. -/

namespace Diagnostics

/-! ### Source names without a location -/

namespace Unlocatable

theorem message_emptyName : emptyName.message = "empty file name" := rfl

theorem message_noSeparator (path : String) : (noSeparator path).message = "no path separator in `" ++ path ++ "`" := rfl

theorem message_emptyFileName (path : String) :
    (emptyFileName path).message = "path `" ++ path ++ "` ends in a separator" := rfl

theorem message_inj {cause other : Unlocatable} (h : cause.message = other.message) : cause = other := by
  rw [← String.toList_inj] at h
  cases cause <;> cases other <;>
    simp_all [message_emptyName, message_noSeparator, message_emptyFileName, String.toList_inj]

end Unlocatable

namespace CommandLine

/-! ### Misuses -/

theorem Operand.text_inj {operand other : Operand} (h : operand.text = other.text) : operand = other := by
  cases operand <;> cases other <;> first | rfl | exact absurd h (by decide)

namespace Misuse

/-- What a misuse is about: the operand that is missing, or else the argument that is refused, quoted. -/
def subject : Misuse → String
  | missing operand => operand.text
  | unexpected argument => quoted argument
  | unknownCommand name => quoted name
  | unknownOption argument => quoted argument
  | unknownKind name => quoted name
  | badNumber _ value => quoted value
  | badPosition spec => quoted spec

/-- The misuse of the same sort that is about nothing in particular. -/
def sort : Misuse → Misuse
  | missing _ => missing .kind
  | unexpected _ => unexpected ""
  | unknownCommand _ => unknownCommand ""
  | unknownOption _ => unknownOption ""
  | unknownKind _ => unknownKind ""
  | badNumber quantity _ => badNumber quantity ""
  | badPosition _ => badPosition ""

/-- The sorts of misuses. -/
def sorts : List Misuse :=
  [missing .kind, unexpected "", unknownCommand "", unknownOption "", unknownKind "", badNumber .columns "",
    badNumber .bound "", badPosition ""]

/-- The words in front of what a misuse is about. -/
def opening : Misuse → String
  | missing _ => "missing "
  | unexpected _ => "unexpected argument "
  | unknownCommand _ => "unknown command "
  | unknownOption _ => "unknown option "
  | unknownKind _ => "unknown diagnostic kind "
  | badNumber quantity _ => "invalid " ++ quantity.text ++ " "
  | badPosition _ => "invalid source position "

/-- The words behind what a misuse is about. -/
def closing : Misuse → String
  | unknownKind _ => " (expected error, warning, debug or perf)"
  | badPosition _ => " (expected file:line:column[-line:column] or -)"
  | _ => ""

/-- What is written about a misuse: a line that says what is wrong with what, and a hint exactly for an unknown command.
Nothing else is announced in the same way. -/
structure Announces (misuse : Misuse) (text : String) : Prop where
  names : ∃ before after, misuse.message = before ++ misuse.subject ++ after
  unhinted : (∀ name, misuse ≠ unknownCommand name) → text = "error: " ++ misuse.message ++ "\n"
  hinted : ∀ name, misuse = unknownCommand name →
    text = "error: " ++ misuse.message ++ "\n" ++ "Run 'ispc-diag help' for usage information.\n"
  tells : ∀ other, Program.misuseText other = text → other = misuse

theorem message_eq (misuse : Misuse) : misuse.message = misuse.opening ++ misuse.subject ++ misuse.closing := by
  cases misuse with
  | unknownKind _ => rfl
  | badPosition _ => rfl
  | _ => exact String.append_empty.symm

theorem quoted_inj {argument other : String} (h : quoted argument = quoted other) : argument = other := by
  rw [quoted, quoted, ← String.toList_inj] at h
  exact String.toList_inj.1 (by simpa using h)

theorem opening_sort (misuse : Misuse) : misuse.sort.opening = misuse.opening := by cases misuse <;> rfl

theorem closing_sort (misuse : Misuse) : misuse.sort.closing = misuse.closing := by cases misuse <;> rfl

theorem sort_mem_sorts (misuse : Misuse) : misuse.sort ∈ sorts := by
  cases misuse with
  | badNumber quantity _ => cases quantity <;> simp [sort, sorts]
  | _ => simp [sort, sorts]

theorem sort_eq_of_isPrefix {misuse other : Misuse} (h : misuse.opening.toList <+: other.opening.toList) :
    misuse.sort = other.sort := by
  have hsorts : ∀ s ∈ sorts, ∀ t ∈ sorts, s.opening.toList <+: t.opening.toList → s = t := by decide
  refine hsorts _ misuse.sort_mem_sorts _ other.sort_mem_sorts ?_
  rwa [opening_sort, opening_sort]

theorem eq_of_sort_eq {misuse other : Misuse} (hsort : misuse.sort = other.sort)
    (hsubject : misuse.subject = other.subject) : misuse = other := by
  cases misuse <;> cases other <;> simp_all [sort, subject]
  case missing.missing => exact Operand.text_inj hsubject
  all_goals exact quoted_inj hsubject

end Misuse

namespace Program

open Misuse

theorem hint_sort (misuse : Misuse) : hint misuse.sort = hint misuse := by cases misuse <;> rfl

theorem toList_misuseText (misuse : Misuse) :
    (misuseText misuse).toList =
      "error: ".toList ++ (misuse.opening.toList ++
        (misuse.subject.toList ++ (misuse.closing.toList ++ ('\n' :: (hint misuse).toList)))) := by
  rw [misuseText, message_eq]
  simp

theorem misuseText_inj {misuse other : Misuse} (h : misuseText misuse = misuseText other) : misuse = other := by
  rw [← String.toList_inj, toList_misuseText, toList_misuseText, List.append_right_inj] at h
  have hsort : misuse.sort = other.sort := by
    rcases List.prefix_or_prefix_of_prefix (List.prefix_append ..) (h ▸ List.prefix_append ..) with hp | hp
    · exact (sort_eq_of_isPrefix hp).symm
    · exact sort_eq_of_isPrefix hp
  have hopening : misuse.opening = other.opening := by rw [← opening_sort, hsort, opening_sort]
  have hclosing : misuse.closing = other.closing := by rw [← closing_sort, hsort, closing_sort]
  have hhint : hint misuse = hint other := by rw [← hint_sort, hsort, hint_sort]
  rw [hopening, hclosing, hhint, List.append_right_inj, List.append_left_inj] at h
  exact eq_of_sort_eq hsort (String.toList_inj.1 h)

/-- Every misuse is announced. -/
theorem announces_misuseText (misuse : Misuse) : misuse.Announces (misuseText misuse) where
  names := ⟨misuse.opening, misuse.closing, misuse.message_eq⟩
  unhinted h := by
    cases misuse with
    | unknownCommand name => exact absurd rfl (h name)
    | _ => exact String.append_empty
  hinted name h := by
    subst h
    rfl
  tells _ h := misuseText_inj h

/-! ### Usage -/

/-- The names of the commands. -/
def commands : List String := ["report", "suggest", "distance", "split", "help", "-h"]

/-- Some lines show a word if it starts one of them, behind two spaces. -/
def Shows (lines : List String) (word : String) : Prop := ∃ line ∈ lines, ∃ more, line = "  " ++ word ++ more

/-- Some lines explain the program if they show its commands and its options. -/
structure Explains (lines : List String) : Prop where
  commands : ∀ command ∈ commands, command ≠ "-h" → Shows lines command
  flags : ∀ flag ∈ Setting.flags, Shows lines flag
  values : ∀ name ∈ ["--columns=", "--cwd="], Shows lines name

theorem shows_of_getElem? {lines : List String} {word : String} (i : Nat) (more : String)
    (h : lines[i]? = some ("  " ++ word ++ more)) : Shows lines word :=
  ⟨_, List.mem_of_getElem? h, more, rfl⟩

/-- The usage explains the program. -/
theorem explains_usageLines : Explains usageLines where
  commands := by
    have hreport : Shows usageLines "report" :=
      shows_of_getElem? 5 " <kind> <pos> <message...> [-- <kind> <pos> <message...>]..." rfl
    have hsuggest : Shows usageLines "suggest" := shows_of_getElem? 8 " <query> <candidate...>" rfl
    have hdistance : Shows usageLines "distance" := shows_of_getElem? 10 " <a> <b> [max]" rfl
    have hsplit : Shows usageLines "split" :=
      shows_of_getElem? 12 " <name>         Split a source file name into directory and base name" rfl
    have hhelp : Shows usageLines "help" := shows_of_getElem? 13 "                 Show this help message" rfl
    simp [Program.commands, hreport, hsuggest, hdistance, hsplit, hhelp]
  flags := by
    have hwoff : Shows usageLines "--woff" := shows_of_getElem? 16 "               Disable warnings" rfl
    have hdebug : Shows usageLines "--debug" := shows_of_getElem? 17 "              Print debug messages" rfl
    have hwperf : Shows usageLines "--wperf" := shows_of_getElem? 18 "              Print performance warnings" rfl
    have hnowrap : Shows usageLines "--nowrap" :=
      shows_of_getElem? 19 "             Do not wrap diagnostics to the terminal width" rfl
    simp [Setting.flags, hwoff, hdebug, hwperf, hnowrap]
  values := by
    have hcolumns : Shows usageLines "--columns=" := shows_of_getElem? 20 "<n>        Wrap diagnostics to n columns" rfl
    have hcwd : Shows usageLines "--cwd=" :=
      shows_of_getElem? 21 "<dir>          Resolve relative file names against dir" rfl
    simp [hcolumns, hcwd]

end Program

end CommandLine

end Diagnostics
