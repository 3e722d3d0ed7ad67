import Mathlib.Order.Bounds.Basic
import Mathlib.Order.MinMax
import Diagnostics.Source

/-! # Joined positions

A join is the least range that covers two positions of a file, and a run of joins is the least range that covers all
positions of one file.

* **Places** are ordered by their line numbers and then by their columns, and the order is linear.  With it a known
  position is valid if its file has a name, its first column is not zero, and it does not stop before it starts
  (`valid_iff_of_known`).
* **One join** is one of the two positions or the range over both (`join_cases`).  What covers this range is what covers
  both positions (`covers_join_iff`), and a join of valid positions is valid (`Valid.join`).
* **A run of joins** keeps to the file of the first known position.  In that file it goes from the earliest start so far
  to the latest stop so far (`Spans`), and one more join keeps this (`Spans.join`).  Since these places are determined by
  the known positions of the file (`Spans.unique`), their order does not count. -/

namespace Diagnostics

namespace Place

theorem le_iff_toNat {p q : Place} :
    p ≤ q ↔ p.line.toNat < q.line.toNat ∨ p.line.toNat = q.line.toNat ∧ p.column.toNat ≤ q.column.toNat := by
  rw [le_iff, UInt32.lt_iff_toNat_lt, UInt32.le_iff_toNat_le, UInt32.toNat_inj]

instance : LinearOrder Place where
  le_refl p := le_iff_toNat.2 (.inr ⟨rfl, Nat.le_refl _⟩)
  le_trans p q r hpq hqr := by
    rw [le_iff_toNat] at hpq hqr ⊢
    omega
  le_antisymm p q hpq hqp := by
    rw [le_iff_toNat] at hpq hqp
    have hline : p.line = q.line := UInt32.toNat_inj.1 (by omega)
    have hcolumn : p.column = q.column := UInt32.toNat_inj.1 (by omega)
    cases p
    cases q
    rw [mk.injEq]
    exact ⟨hline, hcolumn⟩
  le_total p q := by
    rw [le_iff_toNat, le_iff_toNat]
    omega
  toDecidableLE := inferInstance
  toMin := inferInstance
  toMax := inferInstance

end Place

namespace Position
variable {p q : Position}

/-! ### One join -/

theorem join_of_known (hp : p.Known) (hq : q.Known) (h : p.file = q.file) :
    p.join q = ⟨p.file, min p.start q.start, max p.stop q.stop⟩ := by
  simp [join, hp, hq, h]

theorem join_of_not_known_left (hp : ¬ p.Known) (hq : q.Known) : p.join q = q := by simp [join, hp, hq]

theorem join_of_file_ne (hp : p.Known) (h : p.file ≠ q.file) : p.join q = p := by simp [join, hp, h]

/-- A join is one of the two positions, or the range over both if they are known and in one file. -/
theorem join_cases (p q : Position) :
    (¬ q.Known ∧ p.join q = p) ∨ (q.Known ∧ ¬ p.Known ∧ p.join q = q) ∨
      (q.Known ∧ p.Known ∧ p.file ≠ q.file ∧ p.join q = p) ∨
      (q.Known ∧ p.Known ∧ p.file = q.file ∧ p.join q = ⟨p.file, min p.start q.start, max p.stop q.stop⟩) := by
  by_cases hq : q.Known
  · right
    by_cases hp : p.Known
    · right
      by_cases hfile : p.file = q.file
      · exact .inr ⟨hq, hp, hfile, join_of_known hp hq hfile⟩
      · exact .inl ⟨hq, hp, hfile, join_of_file_ne hp hfile⟩
    · exact .inl ⟨hq, hp, join_of_not_known_left hp hq⟩
  · exact .inl ⟨hq, join_of_not_known hq⟩

theorem valid_iff_of_known (h : p.Known) : p.Valid ↔ p.file ≠ "" ∧ p.start.column ≠ 0 ∧ p.start ≤ p.stop := by
  have horder : p.start.line ≤ p.stop.line ∧ (p.MultiLine ∨ p.start.column ≤ p.stop.column) ↔ p.start ≤ p.stop := by
    rw [MultiLine, Place.le_iff_toNat, UInt32.le_iff_toNat_le, UInt32.lt_iff_toNat_lt, UInt32.le_iff_toNat_le]
    omega
  rw [Valid, imp_iff_right h, horder]

/-- A join of valid positions is valid. -/
theorem Valid.join (hp : p.Valid) (hq : q.Valid) : (p.join q).Valid := by
  rcases join_cases p q with ⟨-, h⟩ | ⟨-, -, h⟩ | ⟨-, -, -, h⟩ | ⟨hqk, hpk, hfile, h⟩
  · rwa [h]
  · rwa [h]
  · rwa [h]
  · obtain ⟨hname, hcolumn, hle⟩ := (valid_iff_of_known hpk).1 hp
    obtain ⟨-, hcolumn', -⟩ := (valid_iff_of_known hqk).1 hq
    rw [h]
    refine fun hk => (valid_iff_of_known hk).2 ⟨hname, ?_, ?_⟩ hk
    · -- The start is one of the two starts.
      rcases min_choice p.start q.start with h | h
      · rwa [h]
      · rwa [h]
    · calc min p.start q.start
          ≤ p.start := min_le_left _ _
        _ ≤ p.stop := hle
        _ ≤ max p.stop q.stop := le_max_left _ _

/-- Whether a position covers another one of the same file: it starts no later and stops no earlier. -/
def Covers (r p : Position) : Prop := r.file = p.file ∧ r.start ≤ p.start ∧ p.stop ≤ r.stop

instance (r p : Position) : Decidable (r.Covers p) := inferInstanceAs (Decidable (_ ∧ _ ∧ _))

theorem covers_join_iff (hp : p.Known) (hq : q.Known) (h : p.file = q.file) (r : Position) :
    r.Covers (p.join q) ↔ r.Covers p ∧ r.Covers q := by
  rw [join_of_known hp hq h, Covers, Covers, Covers, ← h, le_min_iff, max_le_iff]
  constructor
  · rintro ⟨hfile, ⟨hstart, hstart'⟩, hstop, hstop'⟩
    exact ⟨⟨hfile, hstart, hstop⟩, hfile, hstart', hstop'⟩
  · rintro ⟨⟨hfile, hstart, hstop⟩, -, hstart', hstop'⟩
    exact ⟨hfile, ⟨hstart, hstart'⟩, hstop, hstop'⟩

/-- **The least cover.**  A join of valid positions is valid.  If both are known and in one file, then a position covers
their join exactly if it covers both of them. -/
theorem least_cover_of_join (p q : Position) :
    (p.Valid → q.Valid → (p.join q).Valid) ∧
      (p.Known → q.Known → p.file = q.file → ∀ r : Position, r.Covers (p.join q) ↔ r.Covers p ∧ r.Covers q) :=
  ⟨Valid.join, covers_join_iff⟩

/-- The start comes from the one position and the stop from the other. -/
theorem least_cover_of_overlap :
    let p : Position := ⟨"a.ispc", ⟨3, 9⟩, ⟨3, 12⟩⟩
    let q : Position := ⟨"a.ispc", ⟨2, 14⟩, ⟨3, 10⟩⟩
    p.Valid ∧ q.Valid ∧ p.join q = ⟨"a.ispc", ⟨2, 14⟩, ⟨3, 12⟩⟩ ∧ (p.join q).Valid ∧
      ∀ r : Position, r.Covers (p.join q) ↔ r.Covers p ∧ r.Covers q := by
  intro p q
  have hp : p.Valid := by decide
  have hq : q.Valid := by decide
  obtain ⟨hvalid, hcovers⟩ := least_cover_of_join p q
  exact ⟨hp, hq, by decide, hvalid hp hq, hcovers (by decide) (by decide) rfl⟩

/-! ### Runs of joins -/

/-- The file of the first known position. -/
def firstFile? (ps : List Position) : Option String := (ps.find? (·.Known)).map file

/-- The places that stand at one end of the known positions of a file. -/
def places (side : Position → Place) (file : String) (ps : List Position) : Set Place :=
  {place | ∃ p ∈ ps, p.Known ∧ p.file = file ∧ side p = place}

/-- Whether a position goes from the earliest start to the latest stop of the known positions of a file. -/
structure Spans (file : String) (ps : List Position) (all : Position) : Prop where
  file_eq : all.file = file
  start_isLeast : IsLeast (places start file ps) all.start
  stop_isGreatest : IsGreatest (places stop file ps) all.stop

section places
variable {file : String} {ps : List Position} (side : Position → Place)

/-- Only the known positions of the file count. -/
theorem places_congr {ps' : List Position} (h : ∀ p : Position, p.Known → p.file = file → (p ∈ ps ↔ p ∈ ps')) :
    places side file ps = places side file ps' := by
  ext place
  constructor
  · rintro ⟨p, hp, hk, hfile, hplace⟩
    exact ⟨p, (h p hk hfile).1 hp, hk, hfile, hplace⟩
  · rintro ⟨p, hp, hk, hfile, hplace⟩
    exact ⟨p, (h p hk hfile).2 hp, hk, hfile, hplace⟩

theorem places_cons_of_known (hq : q.Known) (hfile : q.file = file) :
    places side file (q :: ps) = insert (side q) (places side file ps) := by
  ext place
  simp [places, hq, hfile, eq_comm]

theorem places_cons_of_not_known (hq : ¬ q.Known) : places side file (q :: ps) = places side file ps := by
  simp [places, hq]

theorem places_cons_of_file_ne (hfile : q.file ≠ file) : places side file (q :: ps) = places side file ps := by
  simp [places, hfile]

end places

namespace Spans
variable {file : String} {ps : List Position} {all : Position}

theorem known (h : Spans file ps all) : all.Known := by
  obtain ⟨p, -, hp, -, hstart⟩ := h.start_isLeast.1
  rwa [Known, ← hstart]

theorem congr {ps' : List Position} (h : Spans file ps all)
    (hplaces : ∀ side, places side file ps = places side file ps') : Spans file ps' all :=
  ⟨h.file_eq, hplaces start ▸ h.start_isLeast, hplaces stop ▸ h.stop_isGreatest⟩

theorem unique {all' : Position} (h : Spans file ps all) (h' : Spans file ps all') : all = all' := by
  cases all
  cases all'
  rw [mk.injEq]
  exact ⟨h.file_eq.trans h'.file_eq.symm, h.start_isLeast.unique h'.start_isLeast,
    h.stop_isGreatest.unique h'.stop_isGreatest⟩

theorem singleton (h : p.Known) : Spans p.file [p] p where
  file_eq := rfl
  start_isLeast := by simp [places, h, isLeast_singleton]
  stop_isGreatest := by simp [places, h, isGreatest_singleton]

/-- One more join widens the range to one more position. -/
theorem join (h : Spans file ps all) (q : Position) : Spans file (q :: ps) (all.join q) := by
  rcases join_cases all q with ⟨hq, e⟩ | ⟨-, hall, -⟩ | ⟨-, -, hfile, e⟩ | ⟨hq, -, hfile, e⟩
  · rw [e]
    exact h.congr fun side => (places_cons_of_not_known side hq).symm
  · exact absurd h.known hall
  · rw [e]
    rw [h.file_eq] at hfile
    exact h.congr fun side => (places_cons_of_file_ne side hfile.symm).symm
  · rw [e]
    rw [h.file_eq] at hfile
    refine ⟨h.file_eq, ?_, ?_⟩
    · rw [places_cons_of_known start hq hfile.symm, min_comm]
      exact h.start_isLeast.insert q.start
    · rw [places_cons_of_known stop hq hfile.symm, max_comm]
      exact h.stop_isGreatest.insert q.stop

theorem foldl_join (h : Spans file ps all) (qs : List Position) :
    Spans file (qs ++ ps) (qs.foldl Position.join all) := by
  induction qs generalizing ps all with
  | nil => exact h
  | cons q qs ih =>
      exact (ih (h.join q)).congr fun side => places_congr side fun p _ _ => List.perm_middle.mem_iff

end Spans

theorem foldl_join_of_forall_not_known {qs : List Position} (h : ∀ q ∈ qs, ¬ q.Known) : qs.foldl join p = p := by
  induction qs with
  | nil => rfl
  | cons q qs ih =>
      obtain ⟨hq, hqs⟩ := List.forall_mem_cons.1 h
      rw [List.foldl_cons, join_of_not_known hq, ih hqs]

/-- A run of joins starts over at the first known position. -/
theorem foldl_join_of_first_known {p q : Position} {qs before after : List Position}
    (hcut : p :: qs = before ++ q :: after) (hbefore : ∀ r ∈ before, ¬ r.Known) (hq : q.Known) :
    qs.foldl join p = after.foldl join q := by
  cases before with
  | nil =>
      obtain ⟨rfl, rfl⟩ := List.cons.inj hcut
      rfl
  | cons r before =>
      rw [List.cons_append] at hcut
      obtain ⟨rfl, rfl⟩ := List.cons.inj hcut
      obtain ⟨hr, hrest⟩ := List.forall_mem_cons.1 hbefore
      rw [List.foldl_append, foldl_join_of_forall_not_known hrest, List.foldl_cons, join_of_not_known_left hr hq]

theorem spans_foldl_join {file : String} {qs : List Position} (h : firstFile? (p :: qs) = some file) :
    Spans file (p :: qs) (qs.foldl join p) := by
  obtain ⟨q, hfind, rfl⟩ := Option.map_eq_some_iff.1 h
  obtain ⟨hq, before, after, hcut, hbefore⟩ := List.find?_eq_some_iff_append.1 hfind
  have hqk : q.Known := of_decide_eq_true hq
  have hunknown : ∀ r ∈ before, ¬ r.Known := fun r hr => by simpa using hbefore r hr
  rw [foldl_join_of_first_known hcut hunknown hqk, hcut]
  refine ((Spans.singleton hqk).foldl_join after).congr fun side => places_congr side fun r hr _ => ?_
  have hne : r ∉ before := fun hmem => hunknown r hmem hr
  simp [hne, or_comm]

/-- **What a run of joins comes to.**  If no position is known it is the position that it started from.  Otherwise it is in
the file of the first known position, and goes from the earliest start to the latest stop of the known positions of that
file.  So the order of the positions counts only for which file comes first. -/
theorem spans_of_joins (p : Position) (qs : List Position) :
    ((∀ q ∈ p :: qs, ¬ q.Known) → qs.foldl join p = p) ∧
      (∀ file, firstFile? (p :: qs) = some file → Spans file (p :: qs) (qs.foldl join p)) ∧
      ∀ p' qs' file, (p' :: qs').Perm (p :: qs) → firstFile? (p :: qs) = some file →
        firstFile? (p' :: qs') = some file → qs'.foldl join p' = qs.foldl join p := by
  refine ⟨fun h => ?_, fun file h => spans_foldl_join h, fun p' qs' file hperm h h' => ?_⟩
  · exact foldl_join_of_forall_not_known fun q hq => h q (List.mem_cons_of_mem p hq)
  · have hplaces (side : Position → Place) : places side file (p' :: qs') = places side file (p :: qs) :=
      places_congr side fun r _ _ => hperm.mem_iff
    exact ((spans_foldl_join h').congr hplaces).unique (spans_foldl_join h)

/-- The other file and the unknown positions in between have no effect, and neither has the order. -/
theorem spans_of_two_files :
    let b := Position.mk "b.ispc" ⟨4, 7⟩ ⟨4, 9⟩
    let b' := Position.mk "b.ispc" ⟨3, 20⟩ ⟨3, 22⟩
    let a := Position.mk "a.ispc" ⟨1, 1⟩ ⟨9, 1⟩
    Spans "b.ispc" [unknown, b, a, unknown, b'] ⟨"b.ispc", ⟨3, 20⟩, ⟨4, 9⟩⟩ ∧
      [unknown, a, unknown, b].foldl join b' = [b, a, unknown, b'].foldl join unknown := by
  intro b b' a
  obtain ⟨-, hspans, horder⟩ := spans_of_joins unknown [b, a, unknown, b']
  refine ⟨hspans "b.ispc" (by decide), horder b' [unknown, a, unknown, b] "b.ispc" ?_ (by decide) (by decide)⟩
  decide

end Position

end Diagnostics
