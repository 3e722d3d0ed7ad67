import Mathlib.Data.List.Induction
import Diagnostics.Session

/-! # Excerpts hold lines

An excerpt holds the lines of a file that its position names, and carets under the columns.

* **Lines** (`Bytes.lines`) are the pieces of a content that end in a newline, and what is left after the last newline
  unless it is empty (`Bytes.lines_flatMap_append`).  Those with numbers in a range are `Bytes.linesBetween`.
* **Copying** goes byte by byte, and so do the lines: a byte belongs to the line whose number is reached, and only a
  newline goes on to the next number (`Bytes.flatten_linesBetween_cons`).  Where copying stops early no line with a later
  number is wanted (`Bytes.linesBetween_eq_nil`).
* **The counter** is as wide as a line number.  As long as the newlines of a content do not exhaust it, what is copied
  is what the lines hold (`LineCopy.copied_foldl_read`).
* **Counting** (`LineCopy.Counts`).  The counter is one ahead of the newlines that are read, and copying ends with the
  newline of the last line.  One more byte keeps that true as long as there is room for the next line
  (`Counts.read`), so it is true of every content with room for its lines (`counts_run`).
* **Exhaustion** (`LineCopy.Exhausts`).  The newline of the last line takes the counter one further, and for the greatest
  line number there is no number after it.  A newline finds the counter there after as many newlines as there are numbers
  after zero, if the greatest number is the last line (`exhausts_iff`).

`counter_of_copy` says when copying keeps to its lines.  A content that exhausts the counter makes it start again from
zero, and bytes of later lines are copied (`counter_of_too_many_lines`). -/

namespace Diagnostics

/-! ## Lines and excerpts -/

/-! ### Lines of a content -/

namespace Bytes

/-- The lines of a content.  Each of them ends in a newline, except for the last one if the content does not end in one. -/
def lines : Bytes → List Bytes
  | [] => []
  | byte :: content =>
    if byte = newline then [byte] :: lines content
    else
      match lines content with
      | [] => [[byte]]
      | line :: later => (byte :: line) :: later

theorem lines_eq_singleton {line : Bytes} (h : newline ∉ line) (hne : line ≠ []) : lines line = [line] := by
  induction line with
  | nil => exact absurd rfl hne
  | cons byte line ih =>
      rw [lines, if_neg (Ne.symm (List.ne_of_not_mem_cons h))]
      cases line with
      | nil => rfl
      | cons next line => rw [ih (List.not_mem_of_not_mem_cons h) (List.cons_ne_nil next line)]

theorem lines_append_newline {line : Bytes} (h : newline ∉ line) (content : Bytes) :
    lines (line ++ newline :: content) = (line ++ [newline]) :: lines content := by
  induction line with
  | nil => simp [lines]
  | cons byte line ih =>
      rw [List.cons_append, lines, if_neg (Ne.symm (List.ne_of_not_mem_cons h)), ih (List.not_mem_of_not_mem_cons h)]
      rfl

/-- The pieces before the newlines are lines with the newline at their end, and the rest is one if there is any. -/
theorem lines_flatMap_append {pieces : List Bytes} {rest : Bytes} (hpieces : ∀ piece ∈ pieces, newline ∉ piece)
    (hrest : newline ∉ rest) :
    lines (pieces.flatMap (· ++ [newline]) ++ rest) =
      pieces.map (· ++ [newline]) ++ if rest = [] then [] else [rest] := by
  induction pieces with
  | nil =>
      by_cases h : rest = []
      · simp [h, lines]
      · simp [h, lines_eq_singleton hrest h]
  | cons piece pieces ih =>
      obtain ⟨hpiece, hothers⟩ := List.forall_mem_cons.1 hpieces
      rw [List.flatMap_cons, List.append_assoc, List.append_assoc, List.singleton_append, lines_append_newline hpiece,
        ih hothers, List.map_cons, List.cons_append]

/-- The lines of a content that have a number from `first` to `last` if the numbers start at `number`. -/
def linesBetween (first last number : Nat) (content : Bytes) : List Bytes :=
  (((lines content).zipIdx number).filter fun (_, n) => first ≤ n ∧ n ≤ last).map (·.1)

section between
variable {first last number : Nat}

theorem linesBetween_eq_nil (h : last < number) (content : Bytes) : linesBetween first last number content = [] := by
  rw [linesBetween, List.map_eq_nil_iff, List.filter_eq_nil_iff]
  rintro ⟨line, n⟩ hmem
  have hn : number ≤ n := List.le_snd_of_mem_zipIdx hmem
  simp only [decide_eq_true_eq]
  omega

theorem flatten_linesBetween_cons (byte : UInt8) (content : Bytes) :
    (linesBetween first last number (byte :: content)).flatten =
      (if first ≤ number ∧ number ≤ last then [byte] else []) ++
        (linesBetween first last (if byte = newline then number + 1 else number) content).flatten := by
  by_cases hbyte : byte = newline
  · have hlines : lines (byte :: content) = [byte] :: lines content := by rw [lines, if_pos hbyte]
    rw [linesBetween, hlines, List.zipIdx_cons, List.filter_cons, if_pos hbyte]
    by_cases h : first ≤ number ∧ number ≤ last <;> simp [h, linesBetween]
  · rw [if_neg hbyte, linesBetween, lines, if_neg hbyte]
    cases hlines : lines content with
    | nil => by_cases h : first ≤ number ∧ number ≤ last <;> simp [h, linesBetween, hlines]
    | cons line later => by_cases h : first ≤ number ∧ number ≤ last <;> simp [h, linesBetween, hlines]

end between

end Bytes

/-! ### Copying lines -/

namespace LineCopy
variable {first last : UInt32}

theorem foldl_read_of_finished {copy : LineCopy} (h : copy.finished = true) (content : Bytes) :
    content.foldl (read first last) copy = copy := by
  induction content with
  | nil => rfl
  | cons byte content ih => rw [List.foldl_cons, read, if_pos h, ih]

theorem read_newline (line : UInt32) (copied : Bytes) :
    read first last ⟨line, copied, false⟩ Bytes.newline =
      ⟨line + 1, if first ≤ line ∧ line ≤ last then Bytes.newline :: copied else copied, decide (last < line + 1)⟩ := by
  simp [read]

theorem read_of_ne_newline {byte : UInt8} (h : byte ≠ Bytes.newline) (line : UInt32) (copied : Bytes) :
    read first last ⟨line, copied, false⟩ byte =
      ⟨line, if first ≤ line ∧ line ≤ last then byte :: copied else copied, false⟩ := by
  simp [read, h]

theorem toNat_add_one {line : UInt32} (h : line.toNat + 1 < UInt32.size) : (line + 1).toNat = line.toNat + 1 := by
  rw [UInt32.toNat_add, UInt32.toNat_one]
  exact Nat.mod_eq_of_lt h

/-- What is copied from some line on is what the lines in the range hold, if the counter can tell all lines apart or is
not needed for a line with the greatest number. -/
theorem copied_foldl_read {line : UInt32} {content : Bytes}
    (h : line.toNat + content.count Bytes.newline < UInt32.size ∨ max line.toNat last.toNat + 1 < UInt32.size)
    (copied : Bytes) :
    (content.foldl (read first last) ⟨line, copied, false⟩).copied.reverse =
      copied.reverse ++ (Bytes.linesBetween first.toNat last.toNat line.toNat content).flatten := by
  induction content generalizing line copied with
  | nil => simp [Bytes.linesBetween, Bytes.lines]
  | cons byte content ih =>
      have hcopied :
          (if first ≤ line ∧ line ≤ last then byte :: copied else copied).reverse =
            copied.reverse ++ if first.toNat ≤ line.toNat ∧ line.toNat ≤ last.toNat then [byte] else [] := by
        simp only [UInt32.le_iff_toNat_le]
        split <;> simp
      rw [List.foldl_cons, Bytes.flatten_linesBetween_cons, ← List.append_assoc, ← hcopied]
      by_cases hbyte : byte = Bytes.newline
      · subst hbyte
        rw [List.count_cons_self] at h
        have hnext : (line + 1).toNat = line.toNat + 1 := toNat_add_one (by omega)
        rw [read_newline, if_pos rfl]
        by_cases hlast : last < line + 1
        · -- Copying stops here, and no line after this one is wanted.
          rw [decide_eq_true hlast, foldl_read_of_finished rfl, Bytes.linesBetween_eq_nil]
          · simp
          · rwa [UInt32.lt_iff_toNat_lt, hnext] at hlast
        · rw [UInt32.lt_iff_toNat_lt, hnext] at hlast
          rw [decide_eq_false (by rwa [UInt32.lt_iff_toNat_lt, hnext]), ih (by omega), hnext]
      · rw [List.count_cons_of_ne hbyte] at h
        rw [read_of_ne_newline hbyte, if_neg hbyte, ih h]

end LineCopy

namespace Excerpt

/-- What is copied is what the lines in the range hold, unless there are more lines than numbers for them. -/
theorem copyLines_eq_flatten {content : Bytes} (h : content.count Bytes.newline < UInt32.size - 1) (first last : UInt32) :
    copyLines first last content = (Bytes.linesBetween first.toNat last.toNat 1 content).flatten := by
  have hcount : (1 : UInt32).toNat + content.count Bytes.newline < UInt32.size := by
    rw [UInt32.toNat_one]
    omega
  exact LineCopy.copied_foldl_read (.inl hcount) []

theorem ofFiles?_eq_none_iff {files : Files} {p : Position} :
    ofFiles? files p = none ↔ ¬ p.Known ∨ files p.file = none := by
  by_cases h : p.Known <;> simp [ofFiles?, h]

theorem endLine_eq_append (bytes : Bytes) :
    endLine bytes =
      bytes ++ if bytes ≠ [] ∧ bytes.getLast? ≠ some Bytes.newline then [Bytes.newline] else [] := by
  unfold endLine
  split <;> simp

/-- **What an excerpt is.**  There is none exactly if the position is unknown or its file cannot be read.  Otherwise it
holds the lines with the numbers from the first to the last one of the position, byte for byte, with a newline if they do
not end in one, and below them a row of carets and a blank line. -/
theorem excerpt_of_lines (files : Files) (p : Position) :
    (ofFiles? files p = none ↔ ¬ p.Known ∨ files p.file = none) ∧
      ∀ content, p.Known → files p.file = some content → content.count Bytes.newline < UInt32.size - 1 →
        let echoed := (Bytes.linesBetween p.start.line.toNat p.stop.line.toNat 1 content).flatten
        let ending := if echoed ≠ [] ∧ echoed.getLast? ≠ some Bytes.newline then [Bytes.newline] else []
        let spaces := List.replicate (p.start.column.toNat - 1) Bytes.space
        let carets := List.replicate (max 1 (p.stop.column.toNat - p.start.column.toNat)) Bytes.caret
        ofFiles? files p = some (echoed ++ ending ++ (spaces ++ carets ++ [Bytes.newline, Bytes.newline])) := by
  refine ⟨ofFiles?_eq_none_iff, fun content hknown hfile hcount => ?_⟩
  intro echoed ending spaces carets
  rw [ofFiles?, if_pos hknown, hfile, Option.map_some, ofContent, copyLines_eq_flatten hcount, endLine_eq_append]
  rfl

/-- The lines in the range are a blank one and one that the content does not end. -/
theorem excerpt_of_unended_line :
    let content : Bytes := [97, 10, 10, 255, 98]
    let files : Files := fun name => if name = "a.ispc" then some content else none
    Bytes.linesBetween 2 9 1 content = [[10], [255, 98]] ∧
      ofFiles? files ⟨"a.ispc", ⟨2, 3⟩, ⟨9, 5⟩⟩ = some [10, 255, 98, 10, 32, 32, 94, 94, 10, 10] := by
  intro content files
  obtain ⟨-, hexcerpt⟩ := excerpt_of_lines files ⟨"a.ispc", ⟨2, 3⟩, ⟨9, 5⟩⟩
  exact ⟨by decide, hexcerpt content (by decide) rfl (by decide)⟩

end Excerpt

/-! ## The line counter -/

namespace LineCopy

variable {first last : UInt32} {content : Bytes}

/-! ### Counting -/

/-- A copy counts the newlines of what is read, and it is finished when the last line has ended. -/
structure Counts (last : UInt32) (content : Bytes) (copy : LineCopy) : Prop where
  finished_iff : copy.finished = true ↔ max 1 last.toNat ≤ content.count Bytes.newline
  line_eq : copy.finished = false → copy.line.toNat = content.count Bytes.newline + 1

/-- There is a number for the line after each one that is read. -/
def Room (last : UInt32) (content : Bytes) : Prop :=
  last.toNat < UInt32.size - 1 ∨ content.count Bytes.newline < UInt32.size - 1

theorem Counts.read {copy : LineCopy} {byte : UInt8} (h : Counts last content copy)
    (hroom : Room last (content ++ [byte])) : Counts last (content ++ [byte]) (copy.read first last byte) := by
  obtain ⟨line, copied, finished⟩ := copy
  obtain ⟨hfinished, hline⟩ := h
  simp only at hfinished hline
  unfold Room at hroom
  cases finished with
  | true =>
      have hended := hfinished.1 rfl
      rw [LineCopy.read, if_pos rfl]
      constructor
      · simp only [List.count_append, true_iff]
        omega
      · simp
  | false =>
      have hnot : ¬ max 1 last.toNat ≤ content.count Bytes.newline := fun hle => absurd (hfinished.2 hle) (by decide)
      have hcount := hline rfl
      have hsize : UInt32.size = 4294967296 := rfl
      by_cases hbyte : byte = Bytes.newline
      · subst hbyte
        rw [List.count_append, List.count_singleton_self] at hroom
        have hsucc : (line + 1).toNat = line.toNat + 1 := toNat_add_one (by omega)
        rw [read_newline]
        constructor
        · rw [decide_eq_true_iff, UInt32.lt_iff_toNat_lt, hsucc, List.count_append, List.count_singleton_self]
          omega
        · intro _
          rw [hsucc, List.count_append, List.count_singleton_self, hcount]
      · rw [read_of_ne_newline hbyte]
        constructor
        · simpa [List.count_append, List.count_singleton, hbyte] using hnot
        · intro _
          simpa [List.count_append, List.count_singleton, hbyte] using hcount

theorem Room.of_append {more : Bytes} (h : Room last (content ++ more)) : Room last content := by
  unfold Room at h ⊢
  rw [List.count_append] at h
  omega

theorem counts_run (first : UInt32) (h : Room last content) : Counts last content (run first last content) := by
  induction content using List.reverseRecOn with
  | nil => exact ⟨by simp [run, start], fun _ => rfl⟩
  | append_singleton content byte ih =>
      rw [run_append]
      exact (ih h.of_append).read h

/-! ### Exhaustion -/

/-- A newline is read while the counter is at the greatest number. -/
def Exhausts (first last : UInt32) (content : Bytes) : Prop :=
  ∃ before after, content = before ++ Bytes.newline :: after ∧ (run first last before).finished = false ∧
    (run first last before).line.toNat = UInt32.size - 1

theorem exists_append_of_lt_count {n : Nat} (h : n < content.count Bytes.newline) :
    ∃ before after, content = before ++ Bytes.newline :: after ∧ before.count Bytes.newline = n := by
  induction content generalizing n with
  | nil => exact absurd h (by simp)
  | cons byte content ih =>
      by_cases hbyte : byte = Bytes.newline
      · subst hbyte
        cases n with
        | zero => exact ⟨[], content, rfl, rfl⟩
        | succ n =>
            rw [List.count_cons_self] at h
            obtain ⟨before, after, rfl, hcount⟩ := ih (Nat.lt_of_succ_lt_succ h)
            exact ⟨Bytes.newline :: before, after, rfl, by rw [List.count_cons_self, hcount]⟩
      · rw [List.count_cons_of_ne hbyte] at h
        obtain ⟨before, after, rfl, hcount⟩ := ih h
        exact ⟨byte :: before, after, rfl, by rw [List.count_cons_of_ne hbyte, hcount]⟩

theorem exhausts_iff :
    Exhausts first last content ↔ last.toNat = UInt32.size - 1 ∧ UInt32.size - 1 ≤ content.count Bytes.newline := by
  have hsize : UInt32.size = 4294967296 := rfl
  constructor
  · rintro ⟨before, after, rfl, hfinished, hline⟩
    rw [List.count_append, List.count_cons_self]
    by_contra hroom
    have hlast := last.toNat_lt_size
    have hbefore : Room last before := by
      unfold Room
      omega
    have hcounts := counts_run first hbefore
    have hcount := hcounts.line_eq hfinished
    have hnot : ¬ max 1 last.toNat ≤ before.count Bytes.newline := fun hle =>
      absurd ((hcounts.finished_iff.2 hle).symm.trans hfinished) (by decide)
    omega
  · rintro ⟨hlast, hcount⟩
    have hlt : UInt32.size - 2 < content.count Bytes.newline := by omega
    obtain ⟨before, after, rfl, hbefore⟩ := exists_append_of_lt_count hlt
    have hroom : Room last before := .inr (by omega)
    have hcounts := counts_run first hroom
    have hfinished : (run first last before).finished = false := by
      rw [Bool.eq_false_iff, ne_eq, hcounts.finished_iff]
      omega
    refine ⟨before, after, rfl, hfinished, ?_⟩
    rw [hcounts.line_eq hfinished, hbefore]
    omega

theorem room_of_not_exhausts (h : ¬ Exhausts first last content) : Room last content := by
  have hlast := last.toNat_lt_size
  rw [exhausts_iff] at h
  unfold Room
  omega

/-- **When copying keeps to its lines.**  The counter is exhausted exactly if the last line has the greatest number and the
content has a newline for each number other than zero.  Otherwise copying ends with the newline of the last line, and what
is copied is what the lines in the range hold. -/
theorem counter_of_copy (first last : UInt32) (content : Bytes) :
    (Exhausts first last content ↔
      last.toNat = UInt32.size - 1 ∧ UInt32.size - 1 ≤ content.count Bytes.newline) ∧
      (¬ Exhausts first last content →
        (∀ before after, content = before ++ after →
          ((run first last before).finished = true ↔ max 1 last.toNat ≤ before.count Bytes.newline)) ∧
        Excerpt.copyLines first last content =
          (Bytes.linesBetween first.toNat last.toNat 1 content).flatten) := by
  refine ⟨exhausts_iff, fun h => ⟨?_, ?_⟩⟩
  · rintro before after rfl
    exact (counts_run first (room_of_not_exhausts h).of_append).finished_iff
  · have hroom := room_of_not_exhausts h
    have hone : (1 : UInt32).toNat = 1 := UInt32.toNat_one
    refine copied_foldl_read ?_ []
    unfold Room at hroom
    have hsize : UInt32.size = 4294967296 := rfl
    omega

/-- The second of four lines is wanted, and the counter has room for all of them. -/
theorem counter_of_second_line :
    let content : Bytes := [97, 10, 98, 10, 99, 10, 100]
    ¬ Exhausts 2 2 content ∧ ((run 2 2 [97, 10, 98, 10]).finished = true ↔ max 1 2 ≤ 2) ∧
      Excerpt.copyLines 2 2 content = [98, 10] := by
  intro content
  obtain ⟨hexhausts, hkeeps⟩ := counter_of_copy 2 2 content
  have hnot : ¬ Exhausts 2 2 content := fun h => absurd (hexhausts.1 h).1 (by decide)
  obtain ⟨hfinished, hcopied⟩ := hkeeps hnot
  exact ⟨hnot, hfinished [97, 10, 98, 10] [99, 10, 100] rfl, hcopied.trans (by decide)⟩

/-! ### More lines than numbers -/

section tooMany
variable {n : Nat} {byte : UInt8} (hbyte : byte ≠ Bytes.newline)
include hbyte

/-- When the counter has started again from zero it soon counts a line that is wanted. -/
theorem mem_copyLines_of_too_many_lines (hn : n = UInt32.size) :
    byte ∈ Excerpt.copyLines 1 4294967295 (List.replicate n Bytes.newline ++ [byte]) := by
  have hsize : UInt32.size = 4294967296 := rfl
  have hlast : (4294967295 : UInt32).toNat = 4294967295 := rfl
  obtain ⟨m, rfl⟩ : ∃ m, n = m + 2 := ⟨n - 2, by omega⟩
  have hcontent : List.replicate (m + 2) Bytes.newline ++ [byte] =
      List.replicate m Bytes.newline ++ [Bytes.newline, Bytes.newline, byte] := by
    rw [List.replicate_succ', List.replicate_succ', List.append_assoc, List.append_assoc]
    rfl
  have hcount : (List.replicate m Bytes.newline).count Bytes.newline = m := List.count_replicate_self
  have hroom : Room 4294967295 (List.replicate m Bytes.newline) := .inr (by omega)
  obtain ⟨hfinished, hline⟩ := counts_run 1 hroom
  rw [Excerpt.copyLines, hcontent, run_append, List.mem_reverse]
  generalize run 1 4294967295 (List.replicate m Bytes.newline) = copy at hfinished hline ⊢
  obtain ⟨line, copied, finished⟩ := copy
  simp only [hcount] at hfinished hline
  have hgoes : finished = false := by
    rw [Bool.eq_false_iff, ne_eq, hfinished]
    omega
  have hgreatest : line = 4294967295 := by
    rw [← UInt32.toNat_inj, hline hgoes]
    omega
  subst hgoes hgreatest
  rw [List.foldl_cons, read_newline, List.foldl_cons]
  simp [read_newline, read_of_ne_newline hbyte]

theorem not_mem_linesBetween_of_too_many_lines {first last number : Nat} (h : last < number + n) :
    byte ∉ (Bytes.linesBetween first last number (List.replicate n Bytes.newline ++ [byte])).flatten := by
  induction n generalizing number with
  | zero =>
      rw [Bytes.linesBetween_eq_nil (by omega)]
      exact List.not_mem_nil
  | succ n ih =>
      rw [List.replicate_succ, List.cons_append, Bytes.flatten_linesBetween_cons, if_pos rfl, List.mem_append, not_or]
      refine ⟨?_, ih (by omega)⟩
      split
      · rwa [List.mem_singleton]
      · exact List.not_mem_nil

end tooMany

/-- With a newline for every number the counter starts again from zero, and the byte behind them all is copied, which stands
on none of the lines in the range. -/
theorem counter_of_too_many_lines :
    let content : Bytes := List.replicate UInt32.size Bytes.newline ++ [97]
    Exhausts 1 4294967295 content ∧ 97 ∈ Excerpt.copyLines 1 4294967295 content ∧
      97 ∉ (Bytes.linesBetween 1 4294967295 1 content).flatten := by
  intro content
  have hsize : UInt32.size = 4294967296 := rfl
  have hbyte : (97 : UInt8) ≠ Bytes.newline := by decide
  refine ⟨exhausts_iff.2 ⟨rfl, ?_⟩, mem_copyLines_of_too_many_lines hbyte rfl,
    not_mem_linesBetween_of_too_many_lines hbyte (by omega)⟩
  rw [List.count_append, List.count_replicate_self]
  omega

end LineCopy

end Diagnostics
