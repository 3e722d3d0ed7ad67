import Mathlib.Data.List.Infix
import Mathlib.Order.Bounds.Defs
import Mathlib.Order.MinMax
import Diagnostics.Spelling

/-! # Edits and the table of their costs

`Edits n s t` says that `n` edits in sequence, each of one character anywhere in the text, lead from `s` to `t`.  The
least such `n` satisfies a recursion on the first characters of the two texts (`cost`).

* **Enough edits** (`edits_cost`).  The recursion tells what to do with the first characters: drop the one of `s`, put
  the one of `t` in front, or replace the one by the other.  An edit behind a common first character is an edit.
* **No fewer edits** (`cost_le_of_edits`).  One edit changes the cost to any third text by one at most
  (`cost_le_of_edit`), and the cost from a text to itself is zero.
* **Rows.**  The rows that a computation of the distance goes through hold the costs from the part of the source that has
  been read to each initial part of the target.  The row that belongs to a part of the source (`Row.of`) is followed by
  the row of the part one character longer (`next_of`).
* **Least cells.**  Every cell has one in the row above that is not greater (`exists_suffix_cost_le`), so a row whose
  least cell exceeds the bound puts the distance above the bound (`lt_cost_of_lt_least`).

Parts are read from the left, so the cost of the next cell is that of two texts with their last characters first; but
edits do not tell the two ends of a text apart (`edits_reverse_iff`).  Without a bound the distance is the least number
of edits (`edits_distance`, `distance_le_of_edits`), and with a bound it is that number as far as the bound goes
(`distance_of_ne_zero`). -/

namespace Diagnostics

/-! ## Edits -/

namespace Spelling

/-- One character is inserted, deleted, or replaced by another one. -/
inductive Edit : List Char → List Char → Prop
  | insert (before after : List Char) (c : Char) : Edit (before ++ after) (before ++ c :: after)
  | delete (before after : List Char) (c : Char) : Edit (before ++ c :: after) (before ++ after)
  | replace (before after : List Char) {c d : Char} : c ≠ d → Edit (before ++ c :: after) (before ++ d :: after)

/-- A sequence of `n` edits leads from one text to another. -/
inductive Edits : Nat → List Char → List Char → Prop
  | none (s : List Char) : Edits 0 s s
  | more {n : Nat} {s t u : List Char} : Edit s t → Edits n t u → Edits (n + 1) s u

/-- The number of edits from one text to another, by what becomes of their first characters. -/
def cost : List Char → List Char → Nat
  | [], t => t.length
  | c :: s, [] => (c :: s).length
  | c :: s, d :: t => min (min (cost s t + Row.substitution c d) (cost (c :: s) t + 1)) (cost s (d :: t) + 1)
termination_by s t => s.length + t.length

theorem cost_nil_left (t : List Char) : cost [] t = t.length := by rw [cost]

theorem cost_nil_right (s : List Char) : cost s [] = s.length := by
  cases s <;> rw [cost]

theorem cost_cons_cons (c d : Char) (s t : List Char) :
    cost (c :: s) (d :: t) =
      min (min (cost s t + Row.substitution c d) (cost (c :: s) t + 1)) (cost s (d :: t) + 1) := by rw [cost]

/-! ### Both ends of a text -/

theorem Edit.reverse {s t : List Char} (h : Edit s t) : Edit s.reverse t.reverse := by
  cases h with
  | insert before after c => simpa using Edit.insert after.reverse before.reverse c
  | delete before after c => simpa using Edit.delete after.reverse before.reverse c
  | replace before after hcd => simpa using Edit.replace after.reverse before.reverse hcd

theorem Edits.reverse {n : Nat} {s t : List Char} (h : Edits n s t) : Edits n s.reverse t.reverse := by
  induction h with
  | none s => exact .none s.reverse
  | more h _ ih => exact .more h.reverse ih

theorem edits_reverse_iff {n : Nat} {s t : List Char} : Edits n s.reverse t.reverse ↔ Edits n s t :=
  ⟨fun h => by simpa using h.reverse, Edits.reverse⟩

/-! ### Enough edits -/

theorem Edit.cons {s t : List Char} (c : Char) (h : Edit s t) : Edit (c :: s) (c :: t) := by
  cases h with
  | insert before after d => exact .insert (c :: before) after d
  | delete before after d => exact .delete (c :: before) after d
  | replace before after hcd => exact .replace (c :: before) after hcd

theorem Edits.cons {n : Nat} {s t : List Char} (c : Char) (h : Edits n s t) : Edits n (c :: s) (c :: t) := by
  induction h with
  | none s => exact .none (c :: s)
  | more h _ ih => exact .more (h.cons c) ih

theorem Edits.trans {m n : Nat} {s t u : List Char} (h : Edits m s t) (h' : Edits n t u) : Edits (m + n) s u := by
  induction h with
  | none s => rwa [Nat.zero_add]
  | more h _ ih =>
      rw [Nat.add_right_comm]
      exact .more h (ih h')

theorem Edits.insertFirst {n : Nat} {s t : List Char} (d : Char) (h : Edits n s t) : Edits (n + 1) s (d :: t) :=
  h.trans (.more (.insert [] t d) (.none _))

theorem Edits.deleteFirst {n : Nat} {s t : List Char} (c : Char) (h : Edits n s t) : Edits (n + 1) (c :: s) t :=
  .more (.delete [] s c) h

theorem Edits.replaceFirst {n : Nat} {s t : List Char} (c d : Char) (h : Edits n s t) :
    Edits (n + Row.substitution c d) (c :: s) (d :: t) := by
  unfold Row.substitution
  split
  · next hcd => exact hcd ▸ h.cons c
  · next hcd => exact .more (.replace [] s hcd) (h.cons d)

theorem Edits.min {m n : Nat} {s t : List Char} (h : Edits m s t) (h' : Edits n s t) : Edits (min m n) s t := by
  rcases min_choice m n with e | e <;> rwa [e]

theorem edits_insertAll (t : List Char) : Edits t.length [] t := by
  induction t with
  | nil => exact .none []
  | cons d t ih => exact ih.insertFirst d

theorem edits_deleteAll (s : List Char) : Edits s.length s [] := by
  induction s with
  | nil => exact .none []
  | cons c s ih => exact ih.deleteFirst c

theorem edits_cost (s t : List Char) : Edits (cost s t) s t := by
  fun_induction cost s t with
  | case1 t => exact edits_insertAll t
  | case2 c s => exact edits_deleteAll (c :: s)
  | case3 c s d t hreplace hinsert hdelete =>
      exact ((hreplace.replaceFirst c d).min (hinsert.insertFirst d)).min (hdelete.deleteFirst c)

/-! ### No fewer edits -/

theorem substitution_le_one (c d : Char) : Row.substitution c d ≤ 1 := by
  unfold Row.substitution
  split <;> omega

theorem cost_self (s : List Char) : cost s s = 0 := by
  induction s with
  | nil => exact cost_nil_left []
  | cons c s ih => simp [cost_cons_cons, ih, Row.substitution]

/-- A character in front of the source costs one at most. -/
theorem cost_cons_le (c : Char) (s t : List Char) : cost (c :: s) t ≤ cost s t + 1 := by
  cases t with
  | nil => rw [cost_nil_right, cost_nil_right, List.length_cons]
  | cons d t =>
      rw [cost_cons_cons]
      omega

/-- A character in front of the target costs one at most. -/
theorem cost_cons_right_le (d : Char) (s t : List Char) : cost s (d :: t) ≤ cost s t + 1 := by
  cases s with
  | nil => rw [cost_nil_left, cost_nil_left, List.length_cons]
  | cons c s =>
      rw [cost_cons_cons]
      omega

/-- A character in front of the source saves one at most. -/
theorem cost_le_cons (c : Char) (s t : List Char) : cost s t ≤ cost (c :: s) t + 1 := by
  induction t with
  | nil =>
      rw [cost_nil_right, cost_nil_right, List.length_cons]
      omega
  | cons d t ih =>
      have hinsert := cost_cons_right_le d s t
      rw [cost_cons_cons]
      omega

/-- Another character in front of the source costs one at most. -/
theorem cost_cons_le_cons (c d : Char) (s t : List Char) : cost (c :: s) t ≤ cost (d :: s) t + 1 := by
  induction t with
  | nil =>
      rw [cost_nil_right, cost_nil_right, List.length_cons, List.length_cons]
      omega
  | cons e t ih =>
      have hce := substitution_le_one c e
      rw [cost_cons_cons, cost_cons_cons]
      omega

/-- What costs one at most still does so behind a common first character. -/
theorem cost_cons_le_cons_of_forall {s t : List Char} (h : ∀ u, cost s u ≤ cost t u + 1) (c : Char) (u : List Char) :
    cost (c :: s) u ≤ cost (c :: t) u + 1 := by
  induction u with
  | nil =>
      have hnil := h []
      rw [cost_nil_right, cost_nil_right] at hnil
      rw [cost_nil_right, cost_nil_right, List.length_cons, List.length_cons]
      omega
  | cons d u ih =>
      have hu := h u
      have hdu := h (d :: u)
      rw [cost_cons_cons, cost_cons_cons]
      omega

theorem cost_append_le_append {s t : List Char} (h : ∀ u, cost s u ≤ cost t u + 1) (before u : List Char) :
    cost (before ++ s) u ≤ cost (before ++ t) u + 1 := by
  induction before generalizing u with
  | nil => exact h u
  | cons c before ih => exact cost_cons_le_cons_of_forall ih c u

/-- One edit changes the cost to any text by one at most. -/
theorem cost_le_of_edit {s t : List Char} (h : Edit s t) (u : List Char) : cost s u ≤ cost t u + 1 := by
  cases h with
  | insert before after c => exact cost_append_le_append (cost_le_cons c after) before u
  | delete before after c => exact cost_append_le_append (cost_cons_le c after) before u
  | @replace before after c d => exact cost_append_le_append (cost_cons_le_cons c d after) before u

theorem cost_le_of_edits {n : Nat} {s t : List Char} (h : Edits n s t) : cost s t ≤ n := by
  induction h with
  | none s => exact Nat.le_of_eq (cost_self s)
  | @more n s t u h _ ih =>
      have hstep := cost_le_of_edit h u
      omega

/-- The cost is the least number of edits, also when it is taken from the last characters on. -/
theorem isLeast_cost_reverse (s t : List Char) : IsLeast {n | Edits n s t} (cost s.reverse t.reverse) :=
  ⟨edits_reverse_iff.1 (edits_cost _ _), fun _ h => cost_le_of_edits h.reverse⟩

/-! ## The table of costs -/

namespace Row

/-! ### The row of a part of the source -/

/-- The costs from `s` to `u` with one, two and more characters of a text added.  Both `s` and `u` are written with their
last characters first. -/
def costs (s u : List Char) : List Char → List Nat
  | [] => []
  | d :: t => cost s (d :: u) :: costs s (d :: u) t

/-- The row that belongs to the part `s` of the source, its last character first. -/
def of (target s : List Char) : Row := ⟨cost s [], costs s [] target⟩

theorem costs_nil (u t : List Char) : costs [] u t = List.range' (u.length + 1) t.length := by
  induction t generalizing u with
  | nil => rfl
  | cons d t ih => simp [costs, ih, cost_nil_left, List.range'_succ]

theorem start_eq_of (target : List Char) : start target = of target [] := by
  simp [start, of, costs_nil, cost_nil_left]

theorem extend_costs (c : Char) (s u t : List Char) :
    extend c (cost s u) (cost (c :: s) u) (costs s u t) t = costs (c :: s) u t := by
  induction t generalizing u with
  | nil => rfl
  | cons d t ih =>
      rw [costs, costs, extend, ← cost_cons_cons, ih]

theorem next_of (target s : List Char) (c : Char) : (of target s).next target c = of target (c :: s) := by
  have hleft : cost s [] + 1 = cost (c :: s) [] := by
    rw [cost_nil_right, cost_nil_right, List.length_cons]
  simp only [next, of, hleft, extend_costs]

theorem getLastD_costs (s u t : List Char) : (costs s u t).getLastD (cost s u) = cost s (t.reverse ++ u) := by
  induction t generalizing u with
  | nil => rfl
  | cons d t ih =>
      rw [costs, List.getLastD_cons, ih]
      simp

theorem rightmost_of (target s : List Char) : (of target s).rightmost = cost s target.reverse := by
  rw [rightmost, of, getLastD_costs, List.append_nil]

theorem mem_costs {s u t : List Char} {n : Nat} :
    n ∈ cost s u :: costs s u t ↔ ∃ v, v <+: t ∧ n = cost s (v.reverse ++ u) := by
  induction t generalizing u with
  | nil => simp [costs]
  | cons d t ih =>
      rw [List.mem_cons, costs, ih]
      constructor
      · rintro (rfl | ⟨v, hv, rfl⟩)
        · exact ⟨[], List.nil_prefix, rfl⟩
        · exact ⟨d :: v, List.prefix_cons_inj d |>.2 hv, by simp⟩
      · rintro ⟨v, hv, rfl⟩
        cases v with
        | nil => exact .inl rfl
        | cons e v =>
            obtain ⟨rfl, hv'⟩ := List.cons_prefix_cons.1 hv
            exact .inr ⟨v, hv', by simp⟩

theorem mem_cells_of {target s : List Char} {n : Nat} :
    n ∈ (of target s).cells ↔ ∃ v, v <+: target ∧ n = cost s v.reverse := by
  simp only [cells, of, mem_costs, List.append_nil]

/-! ### Least cells -/

theorem lt_foldl_min {n a : Nat} {l : List Nat} : n < l.foldl min a ↔ n < a ∧ ∀ x ∈ l, n < x := by
  induction l generalizing a with
  | nil => simp
  | cons b l ih => simp [ih, and_assoc]

theorem lt_least_iff {row : Row} {n : Nat} : n < row.least ↔ ∀ x ∈ row.cells, n < x := by
  rw [least, lt_foldl_min, cells, List.forall_mem_cons]

/-- Above every cell, or to the left of the one above it, stands a cell that is not greater. -/
theorem exists_suffix_cost_le (c : Char) (s u : List Char) : ∃ v, v <:+ u ∧ cost s v ≤ cost (c :: s) u := by
  induction u with
  | nil => exact ⟨[], List.suffix_rfl, by simp [cost_nil_right]⟩
  | cons d u ih =>
      obtain ⟨v, hv, hle⟩ := ih
      have hcell := cost_cons_cons c d s u
      by_cases hcorner : cost s u ≤ cost (c :: s) (d :: u)
      · exact ⟨u, List.suffix_cons d u, hcorner⟩
      · by_cases hup : cost s (d :: u) ≤ cost (c :: s) (d :: u)
        · exact ⟨d :: u, List.suffix_rfl, hup⟩
        · exact ⟨v, hv.trans (List.suffix_cons d u), by omega⟩

theorem exists_suffix_cost_append_le (r s u : List Char) : ∃ v, v <:+ u ∧ cost s v ≤ cost (r ++ s) u := by
  induction r generalizing u with
  | nil => exact ⟨u, List.suffix_rfl, Nat.le_refl _⟩
  | cons c r ih =>
      obtain ⟨v, hv, hle⟩ := exists_suffix_cost_le c (r ++ s) u
      obtain ⟨w, hw, hle'⟩ := ih v
      exact ⟨w, hw.trans hv, hle'.trans hle⟩

/-- What is below the least cell of a row is below every cost that comes out in the end. -/
theorem lt_cost_of_lt_least {target s : List Char} {n : Nat} (h : n < (of target s).least) (r : List Char) :
    n < cost (r ++ s) target.reverse := by
  obtain ⟨v, hv, hle⟩ := exists_suffix_cost_append_le r s target.reverse
  have hcell : cost s v ∈ (of target s).cells :=
    mem_cells_of.2 ⟨v.reverse, List.reverse_suffix.1 (by simpa using hv), by simp⟩
  exact (lt_least_iff.1 h _ hcell).trans_le hle

/-! ### All rows -/

/-- The row that is reached belongs to the whole source, unless the cost is known to exceed the bound. -/
theorem advance?_of (target : List Char) (bound : Nat) (s source : List Char) :
    (of target s).advance? target bound source = some (of target (source.reverse ++ s)) ∨
      (of target s).advance? target bound source = none ∧ bound ≠ 0 ∧
        bound < cost (source.reverse ++ s) target.reverse := by
  induction source generalizing s with
  | nil => exact .inl rfl
  | cons c source ih =>
      have hread : (c :: source).reverse ++ s = source.reverse ++ c :: s := by simp
      rw [advance?, next_of, hread]
      by_cases h : bound ≠ 0 ∧ bound < (of target (c :: s)).least
      · rw [if_pos h]
        exact .inr ⟨rfl, h.1, lt_cost_of_lt_least h.2 source.reverse⟩
      · rw [if_neg h]
        exact ih (c :: s)

end Row

/-! ### The distance -/

variable (source target : String)

theorem distance_zero : distance source target 0 = cost source.toList.reverse target.toList.reverse := by
  rw [distance, Row.start_eq_of]
  rcases Row.advance?_of target.toList 0 [] source.toList with h | ⟨-, h, -⟩
  · simp [h, Row.rightmost_of]
  · exact absurd rfl h

/-- A bound shows the distance as it is up to the bound, and every greater one as the count after the bound. -/
theorem distance_of_ne_zero {bound : Nat} (hbound : bound ≠ 0) :
    distance source target bound =
      if distance source target 0 ≤ bound then distance source target 0 else Count.next bound := by
  rw [distance_zero, distance, Row.start_eq_of]
  rcases Row.advance?_of target.toList bound [] source.toList with h | ⟨h, -, hlt⟩
  · rw [h, List.append_nil]
    simp only [Row.rightmost_of]
    split
    · next hlt => rw [if_neg (Nat.not_le.2 hlt.2)]
    · next hle => rw [if_pos (Nat.not_lt.1 fun hlt => hle ⟨hbound, hlt⟩)]
  · rw [List.append_nil] at hlt
    rw [h, if_neg (Nat.not_le.2 hlt)]

theorem edits_distance : Edits (distance source target 0) source.toList target.toList := by
  rw [distance_zero]
  exact (isLeast_cost_reverse _ _).1

variable {source target} in
theorem distance_le_of_edits {n : Nat} (h : Edits n source.toList target.toList) : distance source target 0 ≤ n := by
  rw [distance_zero]
  exact (isLeast_cost_reverse _ _).2 h

/-- **The distance is the least number of edits.**  A sequence of that many edits leads from the source to the target,
and no shorter one does. -/
theorem isLeast_distance : IsLeast {n | Edits n source.toList target.toList} (distance source target 0) :=
  ⟨edits_distance source target, fun _ h => distance_le_of_edits h⟩

end Spelling

end Diagnostics
