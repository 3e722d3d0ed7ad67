import Mathlib.Tactic.Push
import Diagnostics.CommandLine
import Diagnostics.Proofs.Text

/-! # The grammar of written positions

`Denotes spec p` says that `spec` is `-`, or `file:line:column`, or `file:line:column-line:column`, and what position
that is.  Names of files may hold `:` and `-`, and still every text has one reading at most, and the reader finds it
(`position_grammar`).

* **No range is a start.**  Behind the last `-` of a range stands one colon.  If the range were also a start then its
  last `-` would stand in the name of the file, with two colons behind it (`not_spellsStart_of_range`).
* **The cut.**  So the reader cuts off a stop exactly if the text is that of a range (`cutStop_range`,
  `cutStop_of_forall`), and reads the whole text as a start otherwise. -/

namespace Diagnostics

namespace Place

/-- `s` is the place `p` as `line:column`. -/
def Spells (s : List Char) (p : Place) : Prop :=
  ∃ line column, s = line ++ ':' :: column ∧
    Numeral.Spells line p.line.toNat ∧ Numeral.Spells column p.column.toNat

theorem read?_eq_some_iff {s : List Char} {p : Place} : read? s = some p ↔ Spells s p := by
  constructor
  · intro h
    simp only [read?, Option.bind_eq_bind, Option.bind_eq_some_iff, Option.pure_def, Option.some.injEq,
      Prod.exists] at h
    obtain ⟨line, column, hs, m, hm, n, hn, rfl⟩ := h
    exact ⟨line, column, (Text.cutFirst?_eq_some_iff.1 hs).1, Numeral.coordinate?_eq_some_iff.1 hm,
      Numeral.coordinate?_eq_some_iff.1 hn⟩
  · intro h
    obtain ⟨line, column, rfl, hm, hn⟩ := h
    have hline : ':' ∉ line := hm.not_mem (by decide) (by decide)
    simp [read?, Text.cutFirst?_append hline, Numeral.coordinate?_eq_some_iff.2 hm,
      Numeral.coordinate?_eq_some_iff.2 hn]

theorem spells_chars (p : Place) : Spells p.chars p :=
  ⟨_, _, rfl, Numeral.spells_write _, Numeral.spells_write _⟩

theorem Spells.not_mem {s : List Char} {p : Place} (h : Spells s p) : '-' ∉ s := by
  obtain ⟨line, column, rfl, hm, hn⟩ := h
  simp [hm.not_mem (c := '-') (by decide) (by decide), hn.not_mem (c := '-') (by decide) (by decide)]

theorem Spells.count_colon {s : List Char} {p : Place} (h : Spells s p) : s.count ':' = 1 := by
  obtain ⟨line, column, rfl, hm, hn⟩ := h
  have hline : line.count ':' = 0 := List.count_eq_zero.2 (hm.not_mem (by decide) (by decide))
  have hcolumn : column.count ':' = 0 := List.count_eq_zero.2 (hn.not_mem (by decide) (by decide))
  rw [List.count_append, List.count_cons_self, hline, hcolumn]

end Place

namespace Position

/-- `s` is a start in a file that has a name, as `file:line:column`. -/
def SpellsStart (s : List Char) (file : String) (place : Place) : Prop :=
  file ≠ "" ∧ ∃ rest, s = file.toList ++ ':' :: rest ∧ place.Spells rest

theorem readStart?_eq_some_iff {s : List Char} {file : String} {place : Place} :
    readStart? s = some (file, place) ↔ SpellsStart s file place := by
  constructor
  · intro h
    simp only [readStart?, Option.bind_eq_bind, Option.bind_eq_some_iff, Option.ite_none_left_eq_some,
      Option.pure_def, Option.some.injEq, Prod.mk.injEq, Prod.exists] at h
    obtain ⟨lead, column, hs, name, line, hlead, hname, m, hm, n, hn, rfl, rfl⟩ := h
    obtain ⟨rfl, -⟩ := Text.cutLast?_eq_some_iff.1 hs
    obtain ⟨rfl, -⟩ := Text.cutLast?_eq_some_iff.1 hlead
    refine ⟨fun e => hname (String.ofList_eq_empty_iff.1 e), line ++ ':' :: column, by simp, line, column, rfl, ?_, ?_⟩
    · exact Numeral.coordinate?_eq_some_iff.1 hm
    · exact Numeral.coordinate?_eq_some_iff.1 hn
  · intro h
    obtain ⟨hname, rest, rfl, line, column, rfl, hm, hn⟩ := h
    have hlead : Text.cutLast? ':' (file.toList ++ ':' :: (line ++ ':' :: column)) =
        some (file.toList ++ ':' :: line, column) :=
      Text.cutLast?_eq_some_iff.2 ⟨by simp, hn.not_mem (by decide) (by decide)⟩
    have hfile : Text.cutLast? ':' (file.toList ++ ':' :: line) = some (file.toList, line) :=
      Text.cutLast?_eq_some_iff.2 ⟨rfl, hm.not_mem (by decide) (by decide)⟩
    have hne : file.toList ≠ [] := fun e => hname (String.toList_eq_nil_iff.1 e)
    simp [readStart?, hlead, hfile, hne, Numeral.coordinate?_eq_some_iff.2 hm, Numeral.coordinate?_eq_some_iff.2 hn]

/-! ### The cut before the stop -/

theorem not_spellsStart_of_range {start stop : List Char} {p place : Place} (hstop : p.Spells stop) (file : String) :
    ¬ SpellsStart (start ++ '-' :: stop) file place := by
  rintro ⟨-, rest, hs, hrest⟩
  rcases List.append_eq_append_iff.1 hs with ⟨w, -, hw⟩ | ⟨w, -, hw⟩
  · cases w with
    | nil => exact absurd (List.cons.inj hw).1 (by decide)
    | cons c w =>
        have htail : stop = w ++ ':' :: rest := (List.cons.inj hw).2
        have hcount := hstop.count_colon
        rw [htail, List.count_append, List.count_cons_self, hrest.count_colon] at hcount
        omega
  · have hmem : '-' ∈ ':' :: rest := by simp [hw]
    rcases List.mem_cons.1 hmem with h | h
    · exact absurd h (by decide)
    · exact hrest.not_mem h

theorem cutStop_range {start stop : List Char} {p : Place} (h : p.Spells stop) :
    cutStop (start ++ '-' :: stop) = (start, some p) := by
  have hcut : Text.cutLast? '-' (start ++ '-' :: stop) = some (start, stop) :=
    Text.cutLast?_eq_some_iff.2 ⟨rfl, h.not_mem⟩
  simp [cutStop, hcut, Place.read?_eq_some_iff.2 h]

theorem cutStop_of_forall {s : List Char} (h : ∀ start stop p, s = start ++ '-' :: stop → ¬ Place.Spells stop p) :
    cutStop s = (s, none) := by
  unfold cutStop
  split
  · next start stop hcut =>
    have hs := (Text.cutLast?_eq_some_iff.1 hcut).1
    split
    · next p hp => exact absurd (Place.read?_eq_some_iff.1 hp) (h start stop p hs)
    · rfl
  · rfl

theorem readRange?_eq_some_iff {s : List Char} {p : Position} :
    readRange? s = some p ↔
      (∃ file place, SpellsStart s file place ∧ p = point file place) ∨
        ∃ start stop, s = start ++ '-' :: stop ∧ SpellsStart start p.file p.start ∧ p.stop.Spells stop := by
  by_cases h : ∃ start stop q, s = start ++ '-' :: stop ∧ Place.Spells stop q
  · obtain ⟨start, stop, q, rfl, hq⟩ := h
    simp only [readRange?, cutStop_range hq, Option.map_eq_some_iff, Prod.exists, readStart?_eq_some_iff]
    constructor
    · intro h
      obtain ⟨file, place, hstart, rfl⟩ := h
      exact .inr ⟨start, stop, rfl, hstart, hq⟩
    · rintro (⟨file, place, hstart, -⟩ | ⟨start', stop', hs, hstart, hp⟩)
      · exact absurd hstart (not_spellsStart_of_range hq file)
      · obtain ⟨rfl, rfl⟩ := Text.append_cons_inj_of_not_mem hq.not_mem hp.not_mem hs
        have hpq : q = p.stop :=
          Option.some.inj ((Place.read?_eq_some_iff.2 hq).symm.trans (Place.read?_eq_some_iff.2 hp))
        exact ⟨p.file, p.start, hstart, by rw [hpq]⟩
  · push Not at h
    have hcut : cutStop s = (s, none) := cutStop_of_forall fun start stop q hs => h start stop q hs
    simp only [readRange?, hcut, Option.map_eq_some_iff, Prod.exists, readStart?_eq_some_iff]
    constructor
    · intro h
      obtain ⟨file, place, hstart, rfl⟩ := h
      exact .inl ⟨file, place, hstart, rfl⟩
    · rintro (⟨file, place, hstart, rfl⟩ | ⟨start, stop, hs, -, hp⟩)
      · exact ⟨file, place, hstart, rfl⟩
      · exact absurd hp (h start stop p.stop hs)

/-! ### Known and valid positions -/

theorem column_le_right (p : Place) : p.column ≤ p.right.column := by
  unfold Place.right Place.lastColumn
  split
  · next h => exact UInt32.le_of_eq h
  · next h =>
    have hne : p.column.toNat ≠ 4294967295 := fun e => h (UInt32.toNat_inj.1 e)
    have hlt := p.column.toNat_lt
    rw [UInt32.le_iff_toNat_le, UInt32.toNat_add]
    have hone : (1 : UInt32).toNat = 1 := rfl
    omega

theorem known_and_valid_point_iff {file : String} {place : Place} (h : file ≠ "") :
    (point file place).Known ∧ (point file place).Valid ↔ place.line ≠ 0 ∧ place.column ≠ 0 := by
  constructor
  · intro h
    obtain ⟨hk, hv⟩ := h
    exact ⟨hk, (hv hk).2.1⟩
  · intro h
    obtain ⟨hline, hcolumn⟩ := h
    exact ⟨hline, fun _ => ⟨h, hcolumn, UInt32.le_refl _, .inr (column_le_right place)⟩⟩

/-! ### The grammar -/

/-- `spec` stands for a position: for none, for one column, or for a range. -/
inductive Denotes (spec : String) : Position → Prop
  | unknown : spec = "-" → Denotes spec unknown
  | point (file line column : String) (place : Place) :
      spec = file ++ ":" ++ line ++ ":" ++ column → file ≠ "" →
      Numeral.Spells line.toList place.line.toNat → Numeral.Spells column.toList place.column.toNat →
      place.line ≠ 0 → place.column ≠ 0 → Denotes spec (point file place)
  | range (line column lastLine lastColumn : String) (p : Position) :
      spec = p.file ++ ":" ++ line ++ ":" ++ column ++ "-" ++ lastLine ++ ":" ++ lastColumn → p.file ≠ "" →
      Numeral.Spells line.toList p.start.line.toNat → Numeral.Spells column.toList p.start.column.toNat →
      Numeral.Spells lastLine.toList p.stop.line.toNat → Numeral.Spells lastColumn.toList p.stop.column.toNat →
      p.Known → p.Valid → Denotes spec p

theorem SpellsStart.colon_mem {s : List Char} {file : String} {place : Place} (h : SpellsStart s file place) :
    ':' ∈ s := by
  obtain ⟨-, rest, rfl, -⟩ := h
  simp

theorem denotes_iff {spec : String} {p : Position} :
    Denotes spec p ↔
      spec = "-" ∧ p = unknown ∨
      (∃ file place, SpellsStart spec.toList file place ∧ (place.line ≠ 0 ∧ place.column ≠ 0) ∧
        p = point file place) ∨
      ∃ start stop, spec.toList = start ++ '-' :: stop ∧ SpellsStart start p.file p.start ∧
        p.stop.Spells stop ∧ p.Known ∧ p.Valid := by
  constructor
  · intro h
    cases h with
    | unknown hs => exact .inl ⟨hs, rfl⟩
    | point file line column place hs hfile hm hn hline hcolumn =>
        refine .inr (.inl ⟨file, place, ⟨hfile, line.toList ++ ':' :: column.toList, ?_, ?_⟩, ⟨hline, hcolumn⟩, rfl⟩)
        · simp [hs]
        · exact ⟨_, _, rfl, hm, hn⟩
    | range line column lastLine lastColumn p hs hfile hm hn hm' hn' hk hv =>
        refine .inr (.inr ⟨p.file.toList ++ ':' :: (line.toList ++ ':' :: column.toList),
          lastLine.toList ++ ':' :: lastColumn.toList, ?_, ⟨hfile, _, rfl, ?_⟩, ?_, hk, hv⟩)
        · simp [hs]
        · exact ⟨_, _, rfl, hm, hn⟩
        · exact ⟨_, _, rfl, hm', hn'⟩
  · intro h
    rcases h with ⟨rfl, rfl⟩ | ⟨file, place, ⟨hfile, rest, hs, line, column, rfl, hm, hn⟩, ⟨hline, hcolumn⟩, rfl⟩ |
      ⟨start, stop, hs, ⟨hfile, rest, rfl, line, column, rfl, hm, hn⟩, ⟨lastLine, lastColumn, rfl, hm', hn'⟩, hk, hv⟩
    · exact .unknown rfl
    · refine .point file (String.ofList line) (String.ofList column) place ?_ hfile ?_ ?_ hline hcolumn
      · exact String.toList_inj.1 (by simp [hs])
      · simpa using hm
      · simpa using hn
    · refine .range (String.ofList line) (String.ofList column) (String.ofList lastLine) (String.ofList lastColumn) p
        ?_ hfile ?_ ?_ ?_ ?_ hk hv
      · exact String.toList_inj.1 (by simp [hs])
      · simpa using hm
      · simpa using hn
      · simpa using hm'
      · simpa using hn'

theorem read?_eq_some_iff {spec : String} {p : Position} : read? spec = some p ↔ Denotes spec p := by
  rw [denotes_iff, read?]
  split
  · next h =>
    subst h
    have hcolon : ':' ∉ "-".toList := by decide
    constructor
    · intro hp
      exact .inl ⟨rfl, (Option.some.inj hp).symm⟩
    · intro h
      rcases h with ⟨-, rfl⟩ | ⟨file, place, hstart, -⟩ | ⟨start, stop, hs, hstart, -⟩
      · rfl
      · exact absurd hstart.colon_mem hcolon
      · exact absurd (hs ▸ List.mem_append_left _ hstart.colon_mem) hcolon
  · next h =>
    simp only [Option.filter_eq_some_iff, readRange?_eq_some_iff, decide_eq_true_eq, h, false_and, false_or]
    constructor
    · intro h
      obtain ⟨⟨file, place, hstart, rfl⟩ | ⟨start, stop, hs, hstart, hstop⟩, hkv⟩ := h
      · exact .inl ⟨file, place, hstart, (known_and_valid_point_iff hstart.1).1 hkv, rfl⟩
      · exact .inr ⟨start, stop, hs, hstart, hstop, hkv⟩
    · intro h
      rcases h with ⟨file, place, hstart, hplace, rfl⟩ | ⟨start, stop, hs, hstart, hstop, hkv⟩
      · exact ⟨.inl ⟨file, place, hstart, rfl⟩, (known_and_valid_point_iff hstart.1).2 hplace⟩
      · exact ⟨.inr ⟨start, stop, hs, hstart, hstop⟩, hkv⟩

/-! ### Written positions are read back -/

theorem denotes_rangeText {p : Position} (hk : p.Known) (hv : p.Valid) : Denotes p.rangeText p := by
  have hstart : SpellsStart p.startText.toList p.file p.start :=
    ⟨(hv hk).1, p.start.chars, by simp [startText], p.start.spells_chars⟩
  have hspec : p.rangeText.toList = p.startText.toList ++ '-' :: p.stop.chars := by simp [rangeText]
  exact denotes_iff.2 (.inr (.inr ⟨_, _, hspec, hstart, p.stop.spells_chars, hk, hv⟩))

theorem denotes_text {p : Position} (hk : p.Known) (hv : p.Valid) : Denotes p.text (point p.file p.start) := by
  have hstart : SpellsStart p.text.toList p.file p.start :=
    ⟨(hv hk).1, p.start.chars, by simp [text, hk, startText], p.start.spells_chars⟩
  exact denotes_iff.2 (.inr (.inl ⟨p.file, p.start, hstart, ⟨hk, (hv hk).2.1⟩, rfl⟩))

end Position

namespace CommandLine

theorem readPosition_eq_ok_iff {spec : String} {p : Position} :
    readPosition spec = .ok p ↔ Position.Denotes spec p := by
  rw [← Position.read?_eq_some_iff, readPosition]
  cases Position.read? spec <;> simp

theorem readPosition_of_forall_not {spec : String} (h : ∀ p, ¬ Position.Denotes spec p) :
    readPosition spec = .error (.badPosition spec) := by
  have hnone : Position.read? spec = none :=
    Option.eq_none_iff_forall_ne_some.2 fun p hp => h p (Position.read?_eq_some_iff.1 hp)
  rw [readPosition, hnone]

/-- **The grammar of written positions.**  A text is read as a position exactly if it stands for that one, it stands for
one at most, and any other text is refused by its own words.  What is written of a known and valid position is read
back: its range as it is, and its shown text as the column at its start. -/
theorem position_grammar :
    (∀ spec p, readPosition spec = .ok p ↔ Position.Denotes spec p) ∧
      (∀ spec p q, Position.Denotes spec p → Position.Denotes spec q → p = q) ∧
      (∀ spec, (∀ p, ¬ Position.Denotes spec p) → readPosition spec = .error (.badPosition spec)) ∧
      ∀ p : Position, p.Known → p.Valid →
        readPosition p.rangeText = .ok p ∧ readPosition p.text = .ok (.point p.file p.start) := by
  refine ⟨fun spec p => readPosition_eq_ok_iff, fun spec p q hp hq => ?_, fun spec h => readPosition_of_forall_not h,
    fun p hk hv => ⟨?_, ?_⟩⟩
  · have hpq := (readPosition_eq_ok_iff.2 hp).symm.trans (readPosition_eq_ok_iff.2 hq)
    exact Except.ok.inj hpq
  · exact readPosition_eq_ok_iff.2 (Position.denotes_rangeText hk hv)
  · exact readPosition_eq_ok_iff.2 (Position.denotes_text hk hv)

/-- A range in a file whose name reads like one. -/
theorem position_grammar_of_imitation :
    let p : Position := ⟨"a-1:2:3-4:5", ⟨6, 7⟩, ⟨8, 1⟩⟩
    (p.Known ∧ p.Valid) ∧ readPosition p.rangeText = .ok p := by
  intro p
  have hk : p.Known := by decide
  have hv : p.Valid := by decide
  exact ⟨⟨hk, hv⟩, (position_grammar.2.2.2 p hk hv).1⟩

end CommandLine

end Diagnostics
