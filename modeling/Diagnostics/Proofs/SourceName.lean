import Mathlib.Logic.ExistsUnique
import Diagnostics.Source

/-! # When a source name has a location

A name is joined to its directory in one of three ways (`path`), and the path is cut behind its last separator.

* **The path** holds a separator if either part gives it one (`separator_mem_path_iff`), and it ends as the name does
  (`getLast?_path`).
* **The outcome** (`Locates`).  So the directory and the name tell by themselves which of the three failures it is, and
  otherwise the location is the one way to cut the path into a directory, separator included, and a name without one.
* **Paths grow at the end** (`path_append`).  What is added to a name is added to its path.
* **The directory of a located file** is the path of the part of its name that ends in the last separator
  (`directory_of_locate`).

A file that is included by a located file is named relative to the directory of that one.  Such a name has the path that
the name behind this part has in the outer directory, and the path is all that locating a name depends on
(`locate_congr`). -/

namespace Diagnostics

/-! ## Locating a name -/

namespace SourceName

/-! ### Paths -/

/-- The path of a source file named relative to a directory. -/
def path (directory name : String) : String :=
  if name.toList.head? = some separator then name
  else if directory = "" then name
  else if directory.toList.getLast? = some separator then directory ++ name
  else directory ++ "/" ++ name

theorem toList_path (directory name : String) :
    (path directory name).toList = resolve directory.toList name.toList := by
  unfold path resolve
  by_cases habsolute : name.toList.head? = some separator
  · simp [habsolute]
  by_cases hdirectory : directory = ""
  · simp [hdirectory]
  · simp only [habsolute, hdirectory, String.toList_eq_nil_iff, if_false, or_false]
    split <;> simp [separator]

variable {directory name : String}

theorem separator_mem_path_iff :
    separator ∈ (path directory name).toList ↔ separator ∈ name.toList ∨ directory ≠ "" := by
  unfold path
  split
  · next habsolute => simp [List.mem_of_mem_head? habsolute]
  · split
    · next hdirectory => simp [hdirectory]
    · next hdirectory =>
      split
      · next hlast => simp [hdirectory, List.mem_of_getLast? hlast]
      · simp [hdirectory, separator]

theorem getLast?_path (h : name ≠ "") : (path directory name).toList.getLast? = name.toList.getLast? := by
  obtain ⟨c, s, hlist⟩ := List.exists_cons_of_ne_nil fun e => h (String.toList_eq_nil_iff.1 e)
  unfold path
  split
  · rfl
  · split
    · rfl
    · split <;> simp [hlist, List.getLast?_append, List.getLast?_cons]

/-! ### Paths that are cut -/

section cut
variable (hname : name ≠ "")
include hname

theorem locate_of_not_mem (h : separator ∉ (path directory name).toList) :
    locate directory name = .error (.noSeparator (path directory name)) := by
  have hcut : Text.cutLast? separator (path directory name).toList = none := Text.cutLast?_eq_none_iff.2 h
  rw [locate, if_neg hname]
  simp only [← toList_path, String.ofList_toList, hcut]

theorem locate_of_getLast? (h : (path directory name).toList.getLast? = some separator) :
    locate directory name = .error (.emptyFileName (path directory name)) := by
  obtain ⟨lead, hlead⟩ := List.getLast?_eq_some_iff.1 h
  have hcut : Text.cutLast? separator (path directory name).toList = some (lead, []) :=
    Text.cutLast?_eq_some_iff.2 ⟨hlead, List.not_mem_nil⟩
  rw [locate, if_neg hname]
  simp only [← toList_path, String.ofList_toList, hcut]

theorem locate_of_eq_append {d f : String} (hpath : path directory name = d ++ f)
    (hd : d.toList.getLast? = some separator) (hf : f ≠ "") (hsep : separator ∉ f.toList) :
    locate directory name = .ok ⟨d, f⟩ := by
  obtain ⟨lead, hlead⟩ := List.getLast?_eq_some_iff.1 hd
  obtain ⟨c, s, hfile⟩ := List.exists_cons_of_ne_nil fun e => hf (String.toList_eq_nil_iff.1 e)
  have hcut : Text.cutLast? separator (path directory name).toList = some (lead, c :: s) :=
    Text.cutLast?_eq_some_iff.2 ⟨by simp [hpath, hlead, hfile], hfile ▸ hsep⟩
  rw [locate, if_neg hname]
  simp only [← toList_path, hcut]
  rw [← hlead, ← hfile, String.ofList_toList, String.ofList_toList]

end cut

/-! ### The outcome -/

/-- What locating a name in a directory comes to. -/
inductive Locates (directory name : String) : Except Unlocatable Location → Prop
  | emptyName : name = "" → Locates directory name (.error .emptyName)
  | noSeparator :
      name ≠ "" → separator ∉ name.toList → directory = "" →
      Locates directory name (.error (.noSeparator (path directory name)))
  | emptyFileName :
      name.toList.getLast? = some separator → Locates directory name (.error (.emptyFileName (path directory name)))
  | location {d f : String} :
      name ≠ "" → path directory name = d ++ f → d.toList.getLast? = some separator →
      f ≠ "" → separator ∉ f.toList → Locates directory name (.ok ⟨d, f⟩)

variable {outcome : Except Unlocatable Location}

theorem Locates.eq (h : Locates directory name outcome) : locate directory name = outcome := by
  cases h with
  | emptyName hname => exact if_pos hname
  | noSeparator hname hsep hdirectory =>
      refine locate_of_not_mem hname fun h => ?_
      exact (separator_mem_path_iff.1 h).elim hsep fun h => h hdirectory
  | emptyFileName hlast =>
      have hname : name ≠ "" := by
        rintro rfl
        simp at hlast
      exact locate_of_getLast? hname ((getLast?_path hname).trans hlast)
  | location hname hpath hd hf hsep => exact locate_of_eq_append hname hpath hd hf hsep

theorem locates_locate (directory name : String) : Locates directory name (locate directory name) := by
  by_cases hname : name = ""
  · rw [locate, if_pos hname]
    exact .emptyName hname
  cases hcut : Text.cutLast? separator (path directory name).toList with
  | none =>
      have hnone := Text.cutLast?_eq_none_iff.1 hcut
      rw [locate_of_not_mem hname hnone]
      rw [separator_mem_path_iff, not_or, Decidable.not_not] at hnone
      exact .noSeparator hname hnone.1 hnone.2
  | some parts =>
      obtain ⟨lead, fileName⟩ := parts
      obtain ⟨hpath, hsep⟩ := Text.cutLast?_eq_some_iff.1 hcut
      by_cases hfile : fileName = []
      · have hlast : (path directory name).toList.getLast? = some separator := by simp [hpath, hfile]
        rw [locate_of_getLast? hname hlast]
        exact .emptyFileName ((getLast?_path hname).symm.trans hlast)
      · have hparts : path directory name = String.ofList (lead ++ [separator]) ++ String.ofList fileName :=
          String.toList_inj.1 (by simp [hpath])
        have hlocates : Locates directory name (.ok ⟨String.ofList (lead ++ [separator]), String.ofList fileName⟩) :=
          .location hname hparts (by simp) (fun e => hfile (String.ofList_eq_empty_iff.1 e)) (by simpa using hsep)
        exact hlocates.eq ▸ hlocates

theorem locate_eq_iff : locate directory name = outcome ↔ Locates directory name outcome := by
  constructor
  · rintro rfl
    exact locates_locate directory name
  · exact Locates.eq

/-- **The outcome of locating a name.**  It is what the directory and the name say by themselves: a failure if the name
is empty, if it has no separator in an empty directory, or if it ends in a separator, and otherwise the cut of the path
behind its last separator.  These four cases exclude each other and leave none out. -/
theorem outcome_of_locate (directory name : String) :
    (∀ outcome, locate directory name = outcome ↔ Locates directory name outcome) ∧
      ∃! outcome, Locates directory name outcome := by
  refine ⟨fun outcome => locate_eq_iff, locate directory name, locates_locate directory name, ?_⟩
  intro outcome h
  exact h.eq.symm

/-- A name has no location exactly if it is empty, if it ends in a separator, or if no part of its path is a
directory. -/
theorem locate_eq_error_iff :
    (∃ cause, locate directory name = .error cause) ↔
      name = "" ∨ name.toList.getLast? = some separator ∨ separator ∉ name.toList ∧ directory = "" := by
  constructor
  · rintro ⟨cause, h⟩
    cases locate_eq_iff.1 h with
    | emptyName hname => exact .inl hname
    | noSeparator _ hsep hdirectory => exact .inr (.inr ⟨hsep, hdirectory⟩)
    | emptyFileName hlast => exact .inr (.inl hlast)
  · intro h
    by_cases hname : name = ""
    · exact ⟨_, (Locates.emptyName hname).eq⟩
    · rcases h with h | h | ⟨hsep, hdirectory⟩
      · exact absurd h hname
      · exact ⟨_, (Locates.emptyFileName h).eq⟩
      · exact ⟨_, (Locates.noSeparator hname hsep hdirectory).eq⟩

/-! ## Names in the directory of a located file -/

variable {directory name d f : String}

/-! ### Paths of parts of names -/

/-- The part of a name up to its last separator, which it includes. -/
def directoryPart (name : String) : String :=
  match Text.cutLast? separator name.toList with
  | some (before, _) => String.ofList (before ++ [separator])
  | none => ""

theorem exists_eq_directoryPart_append (name : String) :
    ∃ fileName, name = directoryPart name ++ fileName ∧ separator ∉ fileName.toList ∧
      (directoryPart name = "" ∨ (directoryPart name).toList.getLast? = some separator) := by
  unfold directoryPart
  cases hcut : Text.cutLast? separator name.toList with
  | none => exact ⟨name, by simp, Text.cutLast?_eq_none_iff.1 hcut, .inl rfl⟩
  | some parts =>
      obtain ⟨before, after⟩ := parts
      obtain ⟨hname, hsep⟩ := Text.cutLast?_eq_some_iff.1 hcut
      refine ⟨String.ofList after, String.toList_inj.1 ?_, by simpa using hsep, .inr (by simp)⟩
      simp [hname]

theorem path_append {before rest : String} (h : before = "" → rest.toList.head? ≠ some separator) :
    path directory (before ++ rest) = path directory before ++ rest := by
  have hhead : (before ++ rest).toList.head? = some separator ↔ before.toList.head? = some separator := by
    by_cases hbefore : before = ""
    · simp [hbefore, h hbefore]
    · obtain ⟨c, s, hlist⟩ := List.exists_cons_of_ne_nil fun e => hbefore (String.toList_eq_nil_iff.1 e)
      simp [hlist]
  simp only [path, hhead]
  split
  · rfl
  · split
    · rfl
    · split <;> simp only [String.append_assoc]

theorem path_of_getLast? (hd : d.toList.getLast? = some separator) (hname : name.toList.head? ≠ some separator) :
    path d name = d ++ name := by
  have hne : d ≠ "" := by
    rintro rfl
    simp at hd
  rw [path, if_neg hname, if_neg hne, if_pos hd]

theorem path_empty (directory : String) :
    path directory "" = "" ∨ (path directory "").toList.getLast? = some separator := by
  by_cases hdirectory : directory = ""
  · exact .inl (by simp [path, hdirectory])
  · by_cases hlast : directory.toList.getLast? = some separator
    · exact .inr (by simp [path, hdirectory, hlast])
    · have hjoined : path directory "" = directory ++ "/" := by simp [path, hdirectory, hlast]
      exact .inr (by simp [hjoined, separator])

/-! ### The directory of a located file -/

/-- A text is cut behind its last separator in one way. -/
theorem append_inj_of_getLast? {d' f' : String} (hd : d.toList.getLast? = some separator)
    (hd' : d'.toList.getLast? = some separator) (hf : separator ∉ f.toList) (hf' : separator ∉ f'.toList)
    (h : d ++ f = d' ++ f') : d = d' ∧ f = f' := by
  obtain ⟨before, hbefore⟩ := List.getLast?_eq_some_iff.1 hd
  obtain ⟨before', hbefore'⟩ := List.getLast?_eq_some_iff.1 hd'
  have hlists : before ++ separator :: f.toList = before' ++ separator :: f'.toList := by
    simpa [hbefore, hbefore'] using congrArg String.toList h
  obtain ⟨rfl, hfile⟩ := Text.append_cons_inj_of_not_mem hf hf' hlists
  exact ⟨String.toList_inj.1 (hbefore.trans hbefore'.symm), String.toList_inj.1 hfile⟩

theorem directory_of_locate (h : locate directory name = .ok ⟨d, f⟩) : d = path directory (directoryPart name) := by
  obtain ⟨fileName, hname, hsep, hends⟩ := exists_eq_directoryPart_append name
  have hrelative : fileName.toList.head? ≠ some separator := fun e => hsep (List.mem_of_mem_head? e)
  have hpath : path directory (directoryPart name ++ fileName) = path directory (directoryPart name) ++ fileName :=
    path_append fun _ => hrelative
  rw [← hname] at hpath
  cases locate_eq_iff.1 h with
  | location hne hcut hd hf hfile =>
      have hlast : path directory (directoryPart name) = "" ∨
          (path directory (directoryPart name)).toList.getLast? = some separator := by
        rcases hends with hpart | hpart
        · rw [hpart]
          exact path_empty directory
        · refine .inr ((getLast?_path ?_).trans hpart)
          intro e
          simp [e] at hpart
      rcases hlast with hempty | hlast
      · -- The whole path would be a name without a separator, but it begins with `d`.
        have hmem : separator ∈ (d ++ f).toList := by simp [List.mem_of_getLast? hd]
        rw [← hcut, hpath, hempty] at hmem
        exact absurd (by simpa using hmem) hsep
      · exact (append_inj_of_getLast? hd hlast hfile hsep (hcut.symm.trans hpath)).1

theorem locate_congr {directory' name' : String} (hname : name ≠ "") (hname' : name' ≠ "")
    (h : path directory name = path directory' name') : locate directory name = locate directory' name' := by
  rw [locate, locate, if_neg hname, if_neg hname']
  simp only [← toList_path, h]

/-- **Locating names in turn is locating them at once.**  The directory and the name of a located file locate it again,
and a relative name in its directory is located as that name behind the directory part of the file's own name is in the
outer directory, failures and their paths included. -/
theorem nested_of_locate (h : locate directory name = .ok ⟨d, f⟩) :
    locate d f = .ok ⟨d, f⟩ ∧
      ∀ nested : String, nested ≠ "" → nested.toList.head? ≠ some separator →
        locate d nested = locate directory (directoryPart name ++ nested) := by
  have hdirectory := directory_of_locate h
  cases locate_eq_iff.1 h with
  | location _ _ hd hf hsep =>
      have hrelative : f.toList.head? ≠ some separator := fun e => hsep (List.mem_of_mem_head? e)
      refine ⟨(Locates.location hf (path_of_getLast? hd hrelative) hd hf hsep).eq, fun nested hne hnested => ?_⟩
      have happended : directoryPart name ++ nested ≠ "" := fun e => hne (String.append_eq_empty_iff.1 e).2
      apply locate_congr hne happended
      rw [path_append fun _ => hnested, ← hdirectory, path_of_getLast? hd hnested]

/-- A name that ends in a separator fails in the same way from either directory, and of the same path. -/
theorem nested_of_include :
    locate "/work" "lib/vec.isph" = .ok ⟨"/work/lib/", "vec.isph"⟩ ∧
      locate "/work/lib/" "math/" = locate "/work" "lib/math/" ∧
      locate "/work/lib/" "math/" = .error (.emptyFileName "/work/lib/math/") := by
  have hlocate : locate "/work" "lib/vec.isph" = .ok ⟨"/work/lib/", "vec.isph"⟩ := rfl
  have hpart : directoryPart "lib/vec.isph" = "lib/" := rfl
  have hnested := (nested_of_locate hlocate).2 "math/" (by decide) (by decide)
  rw [hpart] at hnested
  exact ⟨hlocate, hnested, rfl⟩

end SourceName

end Diagnostics
