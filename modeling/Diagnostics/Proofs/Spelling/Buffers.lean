import Diagnostics.Proofs.Spelling.Bound

/-! # Two buffers for the rows

The rows of the table can be held in two buffers of one length: a row is written over one of them while the row above it
stands in the other, and then the buffers change places.

* **Writing a row** (`Buffers.overwrite`).  Cells are written from left to right, each from cells of the row above and the
  cell just written.  What the buffer held before is never read, so it does not show (`overwrite_holds`).
* **All rows** (`Buffers.loop?`).  The loop goes through the rows of `Row.advance?` and stops where that stops
  (`loop?_of_holds`).
* **Least cells.**  The least cell of a row is kept while the row is written (`best_overwrite`).  It does not decrease from a
  row to the next one (`least_of_le_least_of_cons`), and the distance is not less (`least_of_le_cost`). -/

namespace Diagnostics

namespace Spelling

/-- A buffer for the cells of a row over a target. -/
abbrev Buffer (target : List Char) := Vector Nat (target.length + 1)

/-- The row reached so far, and a buffer for the row below it. -/
structure Buffers (target : List Char) where
  previous : Buffer target
  current : Buffer target
deriving DecidableEq, Repr

/-- A buffer that is being overwritten, and the least of the cells written so far. -/
structure Overwritten (target : List Char) where
  cells : Buffer target
  best : Nat
deriving DecidableEq, Repr

variable {target : List Char}

/-- One more cell is written: the one to the right of column `x`, in the row of `c`. -/
def Overwritten.write (c : Char) (previous : Buffer target) (row : Overwritten target) (x : Fin target.length) :
    Overwritten target :=
  let cell := min (min (previous[x.val] + Row.substitution c target[x]) (row.cells[x.val] + 1)) (previous[x.val + 1] + 1)
  ⟨row.cells.set (x.val + 1) cell, min row.best cell⟩

namespace Buffers

/-- The buffers before the first row is written, one of them with any content. -/
def start (stale : Buffer target) : Buffers target := ⟨Vector.ofFn fun x => x.val, stale⟩

/-- The row of `c` is written over the second buffer when `y` characters stand before `c`. -/
def overwrite (y : Nat) (c : Char) (buffers : Buffers target) : Overwritten target :=
  Fin.foldl target.length (Overwritten.write c buffers.previous) ⟨buffers.current.set 0 (y + 1), y + 1⟩

/-- The buffers after the rest of the source, unless the least cell of a row exceeds the bound. -/
def loop? (bound y : Nat) (buffers : Buffers target) : (source : List Char) → Option (Buffers target)
  | [] => some buffers
  | c :: source =>
    let row := buffers.overwrite y c
    if bound ≠ 0 ∧ bound < row.best then none else loop? bound (y + 1) ⟨row.cells, buffers.previous⟩ source

/-- The row reached so far. -/
def row (buffers : Buffers target) : Row := ⟨buffers.previous[0], buffers.previous.toList.tail⟩

end Buffers

/-! ### One row -/

/-- The first columns of a row, up to column `x`, hold the costs from the part `s` of the source, its last character
first. -/
structure Overwritten.Holds (s : List Char) (x : Nat) (row : Overwritten target) : Prop where
  cells : ∀ i (hi : i < target.length + 1), i ≤ x → row.cells[i] = cost s (target.take i).reverse
  best : ∀ n, n < row.best ↔ ∀ i ≤ x, n < cost s (target.take i).reverse

/-- A buffer holds the costs from the part `s` of the source, its last character first. -/
def Buffer.Holds (s : List Char) (buffer : Buffer target) : Prop :=
  ∀ i (hi : i < target.length + 1), buffer[i] = cost s (target.take i).reverse

theorem foldl_invariant {α : Type} {n : Nat} {f : α → Fin n → α} {a : α} (P : Nat → α → Prop) (h : P 0 a)
    (hstep : ∀ (i : Fin n) (b : α), P i.val b → P (i.val + 1) (f b i)) : P n (Fin.foldl n f a) := by
  induction n with
  | zero => exact h
  | succ n ih =>
      rw [Fin.foldl_succ_last]
      exact hstep (Fin.last n) _ (ih fun i b hb => hstep i.castSucc b hb)

theorem reverse_take_succ (x : Fin target.length) :
    (target.take (x.val + 1)).reverse = target[x] :: (target.take x.val).reverse := by
  rw [List.take_succ_eq_append_getElem x.isLt, List.reverse_append]
  rfl

section overwrite
variable {c : Char} {s : List Char} {previous : Buffer target} (hprevious : Buffer.Holds s previous)
include hprevious

theorem Overwritten.Holds.write {row : Overwritten target} {x : Fin target.length} (h : row.Holds (c :: s) x.val) :
    (row.write c previous x).Holds (c :: s) (x.val + 1) := by
  have hcell :
      min (min (previous[x.val] + Row.substitution c target[x]) (row.cells[x.val] + 1)) (previous[x.val + 1] + 1) =
        cost (c :: s) (target.take (x.val + 1)).reverse := by
    rw [hprevious, hprevious, h.cells x.val (by omega) (Nat.le_refl _), reverse_take_succ, cost_cons_cons]
  unfold Overwritten.write
  rw [hcell]
  constructor
  · intro i hi hx
    rw [Vector.getElem_set]
    split
    · next e => rw [e]
    · next hne => exact h.cells i hi (by omega)
  · intro n
    rw [Nat.lt_min, h.best]
    constructor
    · rintro ⟨hleft, hlast⟩ i hi
      rcases Nat.lt_or_eq_of_le hi with hi | rfl
      · exact hleft i (by omega)
      · exact hlast
    · intro hall
      exact ⟨fun i hi => hall i (by omega), hall _ (Nat.le_refl _)⟩

theorem Buffers.overwrite_holds (stale : Buffer target) :
    (Buffers.overwrite s.length c ⟨previous, stale⟩).Holds (c :: s) target.length := by
  refine foldl_invariant (Overwritten.Holds (c :: s)) ?_ fun x row h => h.write hprevious
  have hleftmost : cost (c :: s) [] = s.length + 1 := cost_nil_right (c :: s)
  constructor
  · intro i hi hx
    obtain rfl := Nat.le_zero.1 hx
    rw [Vector.getElem_set_self, List.take_zero, List.reverse_nil, hleftmost]
  · intro n
    simp [hleftmost]

end overwrite

/-! ### The row of a part of the source -/

theorem Row.cells_of (target s : List Char) :
    (Row.of target s).cells = (List.range (target.length + 1)).map fun i => cost s (target.take i).reverse := by
  have hcosts (u t : List Char) :
      cost s u :: Row.costs s u t = (List.range (t.length + 1)).map fun i => cost s ((t.take i).reverse ++ u) := by
    induction t generalizing u with
    | nil => rfl
    | cons d t ih =>
        rw [Row.costs, ih, List.length_cons, List.range_succ_eq_map (n := t.length + 1), List.map_cons, List.map_map]
        simp [Function.comp_def]
  simpa [Row.cells, Row.of] using hcosts [] target

theorem toList_of_holds {s : List Char} {buffer : Buffer target} (h : Buffer.Holds s buffer) :
    buffer.toList = (Row.of target s).cells := by
  rw [Row.cells_of]
  refine List.ext_getElem (by simp) fun i hi _ => ?_
  rw [Vector.getElem_toList, List.getElem_map, List.getElem_range]
  exact h i (by simpa using hi)

theorem Buffers.row_eq_of {s : List Char} {buffers : Buffers target} (h : Buffer.Holds s buffers.previous) :
    buffers.row = Row.of target s := by
  rw [row, toList_of_holds h, h 0 (Nat.succ_pos _)]
  rfl

theorem Overwritten.Holds.best_eq {s : List Char} {row : Overwritten target} (h : row.Holds s target.length) :
    row.best = (Row.of target s).least := by
  refine eq_of_forall_lt_iff fun n => ?_
  rw [h.best, Row.lt_least_iff, Row.cells_of, List.forall_mem_map]
  simp only [List.mem_range, Nat.lt_add_one_iff]

/-! ### All rows -/

theorem Buffers.start_holds (stale : Buffer target) : Buffer.Holds [] (start stale).previous := by
  intro i hi
  rw [start, Vector.getElem_ofFn, cost_nil_left, List.length_reverse, List.length_take]
  exact (Nat.min_eq_left (Nat.le_of_lt_succ hi)).symm

section loop
variable {s : List Char} {buffers : Buffers target} (h : Buffer.Holds s buffers.previous)
include h

theorem Buffers.overwrite_cells (c : Char) : Buffer.Holds (c :: s) (buffers.overwrite s.length c).cells :=
  fun i hi => (overwrite_holds h buffers.current).cells i hi (by omega)

theorem Buffers.best_overwrite (c : Char) : (buffers.overwrite s.length c).best = (Row.of target (c :: s)).least :=
  (overwrite_holds h buffers.current).best_eq

/-- The loop goes through the rows that belong to the parts of the source. -/
theorem Buffers.loop?_of_holds (bound : Nat) (source : List Char) :
    (Row.of target s).advance? target bound source = (buffers.loop? bound s.length source).map row ∧
      ∀ b, buffers.loop? bound s.length source = some b → Buffer.Holds (source.reverse ++ s) b.previous := by
  induction source generalizing s buffers with
  | nil =>
      refine ⟨?_, fun b hb => ?_⟩
      · rw [Row.advance?, loop?, Option.map_some, row_eq_of h]
      · rw [loop?] at hb
        exact Option.some.inj hb ▸ h
  | cons c source ih =>
      let below : Buffers target := ⟨(buffers.overwrite s.length c).cells, buffers.previous⟩
      have hbelow : Buffer.Holds (c :: s) below.previous := overwrite_cells h c
      obtain ⟨hrows, hreached⟩ := ih hbelow
      have hread : (c :: source).reverse ++ s = source.reverse ++ c :: s := by simp
      rw [Row.advance?, Row.next_of, loop?, best_overwrite h, hread]
      by_cases hstop : bound ≠ 0 ∧ bound < (Row.of target (c :: s)).least
      · rw [if_pos hstop, if_pos hstop]
        exact ⟨rfl, fun b hb => absurd hb (by simp)⟩
      · rw [if_neg hstop, if_neg hstop]
        exact ⟨hrows, hreached⟩

end loop

/-! ### Least cells -/

theorem Row.isLeast_least (row : Row) : IsLeast {n | n ∈ row.cells} row.least := by
  have hle : ∀ n ∈ row.cells, row.least ≤ n := fun n hn =>
    le_of_forall_lt fun k hk => Row.lt_least_iff.1 hk n hn
  refine ⟨?_, hle⟩
  by_contra hmem
  exact lt_irrefl _ (Row.lt_least_iff.2 fun n hn => lt_of_le_of_ne (hle n hn) fun e => hmem (e ▸ hn))

/-- A row has no cell below the least cell of the row above it. -/
theorem Row.least_of_le_least_of_cons (target s : List Char) (c : Char) :
    (of target s).least ≤ (of target (c :: s)).least := by
  refine le_of_forall_lt fun n hn => Row.lt_least_iff.2 fun k hk => ?_
  obtain ⟨v, hv, rfl⟩ := mem_cells_of.1 hk
  obtain ⟨w, hw, hle⟩ := exists_suffix_cost_le c s v.reverse
  have hcell : cost s w ∈ (of target s).cells := by
    refine mem_cells_of.2 ⟨w.reverse, (List.reverse_suffix.1 ?_).trans hv, by rw [List.reverse_reverse]⟩
    rwa [List.reverse_reverse]
  exact (lt_least_iff.1 hn _ hcell).trans_le hle

theorem Row.least_of_le_cost (target s r : List Char) : (of target s).least ≤ cost (r ++ s) target.reverse :=
  le_of_forall_lt fun _ hn => lt_cost_of_lt_least hn r

/-- A row that does not stop the computation has its least cell within the bound. -/
theorem Row.least_le_of_advance? {bound : Nat} {row row' : Row} {source : List Char} (hbound : bound ≠ 0)
    (hrow : row.least ≤ bound) (h : row.advance? target bound source = some row') : row'.least ≤ bound := by
  induction source generalizing row with
  | nil => exact Option.some.inj h ▸ hrow
  | cons c source ih =>
      rw [advance?] at h
      by_cases hstop : bound ≠ 0 ∧ bound < (row.next target c).least
      · rw [if_pos hstop] at h
        exact absurd h (by simp)
      · rw [if_neg hstop] at h
        exact ih (Nat.not_lt.1 fun hlt => hstop ⟨hbound, hlt⟩) h

theorem Row.least_start (target : List Char) : (start target).least = 0 :=
  Nat.le_zero.1 ((isLeast_least _).2 List.mem_cons_self)

section distance
variable {source target : String} {read rest : List Char} (hsource : source.toList = read ++ rest)
include hsource

theorem Row.least_of_le_distance : (of target.toList read.reverse).least ≤ distance source target 0 := by
  rw [distance_zero, hsource, List.reverse_append]
  exact least_of_le_cost _ _ _

theorem Row.least_le_distance {bound : Nat} (hbound : bound ≤ Count.limit)
    (h : (start target.toList).advance? target.toList bound read = some (of target.toList read.reverse)) :
    (of target.toList read.reverse).least ≤ distance source target bound := by
  have hexact : (of target.toList read.reverse).least ≤ distance source target 0 := least_of_le_distance hsource
  by_cases hzero : bound = 0
  · rwa [hzero]
  · have hstart : (start target.toList).least ≤ bound := by
      rw [least_start]
      exact Nat.zero_le bound
    have hwithin := least_le_of_advance? hzero hstart h
    rw [distance_eq_min hzero hbound, Count.next]
    omega

end distance

/-- **What the two buffers hold.**  Whatever the second buffer holds at first, the loop goes through the rows of the
distance.  As long as it has not stopped, the row reached holds the least number of edits from the part of the source
that is read to each part of the target, and its least cell is at most the distance and at most the least cell of the
row below it. -/
theorem rows_of_buffers (source target : String) (bound : Nat) (stale : Buffer target.toList) (read rest : List Char)
    (hsource : source.toList = read ++ rest) :
    let reached := (Buffers.start stale).loop? bound 0 read
    (Row.start target.toList).advance? target.toList bound read = reached.map Buffers.row ∧
      ∀ buffers, reached = some buffers →
        (∀ x (_ : x < target.toList.length + 1),
          IsLeast {n | Edits n read (target.toList.take x)} buffers.previous[x]) ∧
        IsLeast {n | n ∈ buffers.previous.toList} buffers.row.least ∧
        buffers.row.least ≤ distance source target 0 ∧
        (bound ≤ Count.limit → buffers.row.least ≤ distance source target bound) ∧
        ∀ c ∈ rest.head?,
          let below := buffers.overwrite read.length c
          IsLeast {n | n ∈ below.cells.toList} below.best ∧ buffers.row.least ≤ below.best := by
  intro reached
  obtain ⟨hloop, hreached⟩ := Buffers.loop?_of_holds (Buffers.start_holds stale) bound read
  rw [← Row.start_eq_of] at hloop
  have hrows : (Row.start target.toList).advance? target.toList bound read = reached.map Buffers.row := hloop
  refine ⟨hrows, fun buffers hbuffers => ?_⟩
  have hholds : Buffer.Holds read.reverse buffers.previous := by simpa using hreached buffers hbuffers
  have hrow : buffers.row = Row.of target.toList read.reverse := Buffers.row_eq_of hholds
  have hadvance : (Row.start target.toList).advance? target.toList bound read = some buffers.row := by
    rw [hrows, hbuffers, Option.map_some]
  refine ⟨fun x hx => ?_, ?_, ?_, fun hbound => ?_, fun c _ => ?_⟩
  · rw [hholds x hx]
    exact isLeast_cost_reverse _ _
  · rw [toList_of_holds hholds, hrow]
    exact Row.isLeast_least _
  · rw [hrow]
    exact Row.least_of_le_distance hsource
  · rw [hrow] at hadvance ⊢
    exact Row.least_le_distance hsource hbound hadvance
  · have hbelow := Buffers.overwrite_cells hholds c
    have hbest := Buffers.best_overwrite hholds c
    rw [List.length_reverse] at hbelow hbest
    intro below
    rw [toList_of_holds hbelow, hbest, hrow]
    exact ⟨Row.isLeast_least _, Row.least_of_le_least_of_cons _ _ c⟩

/-- A buffer that was full of other numbers holds the third row, whose least cell does not reach the bound that the
distance exceeds. -/
theorem rows_of_stale_buffers :
    let stale : Buffer "sitting".toList := Vector.replicate 8 99
    let buffers : Buffers "sitting".toList := ⟨#v[3, 3, 2, 1, 2, 3, 4, 5], #v[2, 2, 1, 2, 3, 4, 5, 6]⟩
    "kitten".toList = "kit".toList ++ "ten".toList ∧ (Buffers.start stale).loop? 2 0 "kit".toList = some buffers ∧
      IsLeast {n | Edits n "kit".toList ("sitting".toList.take 3)} 1 ∧
      buffers.row.least ≤ distance "kitten" "sitting" 2 ∧ buffers.row.least ≤ (buffers.overwrite 3 't').best := by
  intro stale buffers
  have hsource : "kitten".toList = "kit".toList ++ "ten".toList := by decide
  have hreached : (Buffers.start stale).loop? 2 0 "kit".toList = some buffers := by decide
  obtain ⟨-, hrows⟩ := rows_of_buffers "kitten" "sitting" 2 stale "kit".toList "ten".toList hsource
  obtain ⟨hcells, -, -, hbounded, hbelow⟩ := hrows buffers hreached
  exact ⟨hsource, hreached, hcells 3 (by decide), hbounded (by decide), (hbelow 't' (by decide)).2⟩

end Spelling

end Diagnostics
