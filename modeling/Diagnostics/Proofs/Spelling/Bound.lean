import Mathlib.Data.List.Induction
import Mathlib.Order.Bounds.Basic
import Diagnostics.Proofs.Spelling.Edits

/-! # Distances under a bound

A computation under a bound stops at the first row whose least cell exceeds the bound, and a distance that exceeds the
bound is shown as the count after it.

* **Rows that do not stop** (`Row.reached`).  Without a bound every row is computed.  What is below the least cell of one
  of these rows is below the distance (`lt_distance_of_lt_least`), so stopping at that row loses nothing.
* **Room for the count after the bound** (`distance_lt_limit`).  Deleting one text and inserting the other is a sequence
  of edits, so the distance of two texts, each shorter than half of all counts, is below the limit; and so is a bound
  that is exceeded.
* **Candidates.**  While candidates are looked at one by one, the tier holds those among them that are nearest to the query
  (`Tier.Collects`).  Distances are computed no further than the tier needs them, and that loses none: what is cut off
  exceeds the distance of the tier (`consider_eq`).  So one pass offers what two passes would: the first finds the least
  distance of a candidate, the second keeps the candidates at that distance (`nearestWithin_eq_filter`).
* **Metrics.**  Rows belong to the source and cells to the target, so the computation treats its two texts differently, and
  under a bound it stops at different rows when they are exchanged.  What it computes does not: no edit leads from a text
  to itself only, edits are undone by as many edits (`Edits.symm`), and edits follow one another (`Edits.trans`).  Under a
  bound the distance is the unbounded one or a fixed positive count, whichever is less (`distance_eq_min`), and cutting a
  metric off at such a count leaves a metric (`IsMetric.min`). -/

namespace Diagnostics

/-! ## Stopping at a bound -/

namespace Spelling

namespace Row

/-- The row that a part of the source leads to when no row stops the computation. -/
def reached (target read : List Char) : Row := read.foldl (next target) (start target)

theorem foldl_next_of (target s read : List Char) :
    read.foldl (next target) (of target s) = of target (read.reverse ++ s) := by
  induction read generalizing s with
  | nil => rfl
  | cons c read ih =>
      rw [List.foldl_cons, next_of, ih]
      simp

theorem reached_eq_of (target read : List Char) : reached target read = of target read.reverse := by
  rw [reached, start_eq_of, foldl_next_of, List.append_nil]

end Row

variable {source target : String}

theorem lt_distance_of_lt_least {bound : Nat} {read rest : List Char} (hsource : source.toList = read ++ rest)
    (h : bound < (Row.reached target.toList read).least) : bound < distance source target 0 := by
  rw [Row.reached_eq_of] at h
  rw [distance_zero, hsource, List.reverse_append]
  exact Row.lt_cost_of_lt_least h rest.reverse

theorem distance_le_add (source target : String) : distance source target 0 ≤ source.length + target.length := by
  rw [← String.length_toList, ← String.length_toList]
  exact distance_le_of_edits ((edits_deleteAll source.toList).trans (edits_insertAll target.toList))

theorem distance_lt_limit (hsource : source.length < Nat.pow 2 63) (htarget : target.length < Nat.pow 2 63) :
    distance source target 0 < Count.limit := by
  have hlimit : Count.limit = Nat.pow 2 63 + Nat.pow 2 63 - 1 := by decide
  have hle := distance_le_add source target
  omega

/-- **A bound only cuts off.**  Under a bound other than zero the distance is the unbounded one as far as the bound goes,
and the number after the bound, which is a count, when the distance exceeds the bound.  The row at which the computation
may stop does not matter: at each row whose least cell exceeds the bound, the distance does too. -/
theorem distance_of_bound (source target : String) (bound : Nat) (hsource : source.length < Nat.pow 2 63)
    (htarget : target.length < Nat.pow 2 63) (hbound : 1 ≤ bound) :
    (distance source target 0 ≤ bound → distance source target bound = distance source target 0) ∧
      (bound < distance source target 0 → bound + 1 ≤ Count.limit ∧ distance source target bound = bound + 1) ∧
      ∀ read rest, source.toList = read ++ rest → bound < (Row.reached target.toList read).least →
        bound < distance source target 0 := by
  have hvalue := distance_of_ne_zero source target (Nat.ne_of_gt hbound)
  refine ⟨fun hle => ?_, fun hlt => ?_, fun read rest hread hleast => lt_distance_of_lt_least hread hleast⟩
  · rw [hvalue, if_pos hle]
  · have hroom : bound < Count.limit := hlt.trans (distance_lt_limit hsource htarget)
    refine ⟨hroom, ?_⟩
    rw [hvalue, if_neg (Nat.not_le.2 hlt), Count.next_of_lt hroom]

/-- Under a bound of one the computation stops before the last row, and it shows the number after the bound. -/
theorem distance_of_exceeded_bound :
    1 < (Row.reached "sitting".toList "kitte".toList).least ∧ 1 < distance "kitten" "sitting" 0 ∧
      distance "kitten" "sitting" 1 = 2 := by
  have hleast : 1 < (Row.reached "sitting".toList "kitte".toList).least := by decide
  obtain ⟨-, hexceeded, hstop⟩ := distance_of_bound "kitten" "sitting" 1 (by decide) (by decide) (by decide)
  have hlt := hstop "kitte".toList ['n'] (by decide) hleast
  exact ⟨hleast, hlt, (hexceeded hlt).2⟩

/-! ## The candidates that are offered -/

namespace Tier

/-- Considering a candidate compares its distance with that of the tier. -/
theorem consider_eq {query candidate : String} {tier : Tier}
    (h : tier.distance < Count.limit ∨ Spelling.distance query candidate 0 ≤ Count.limit) :
    tier.consider query candidate =
      if Spelling.distance query candidate 0 < tier.distance then ⟨Spelling.distance query candidate 0, [candidate]⟩
      else if Spelling.distance query candidate 0 = tier.distance then ⟨tier.distance, tier.names ++ [candidate]⟩
      else tier := by
  have hpos : Count.next tier.distance ≠ 0 := by
    have hlimit : 0 < Count.limit := by decide
    unfold Count.next
    omega
  rw [consider, distance_of_ne_zero query candidate hpos]
  by_cases hle : Spelling.distance query candidate 0 ≤ Count.next tier.distance
  · simp only [if_pos hle]
  · -- Cut off, the distance is still greater than that of the tier.
    simp only [if_neg hle]
    unfold Count.next at hle ⊢
    rw [if_neg (by omega), if_neg (by omega), if_neg (by omega), if_neg (by omega)]

/-- The tier holds the nearest of some candidates, unless none of them is within `delta`. -/
structure Collects (delta : Nat) (query : String) (candidates : List String) (tier : Tier) : Prop where
  le_delta : tier.distance ≤ delta
  le_distance : ∀ candidate ∈ candidates, tier.distance ≤ Spelling.distance query candidate 0
  names_eq : tier.names = candidates.filter fun candidate => Spelling.distance query candidate 0 = tier.distance
  attained : tier.distance = delta ∨ tier.names ≠ []

namespace Collects

variable {delta : Nat} {query : String} {candidates : List String} {tier : Tier}

theorem nil (delta : Nat) (query : String) : Collects delta query [] ⟨delta, []⟩ where
  le_delta := Nat.le_refl delta
  le_distance := by simp
  names_eq := rfl
  attained := .inl rfl

theorem consider (h : Collects delta query candidates tier) {candidate : String}
    (hlimit : delta < Count.limit ∨ Spelling.distance query candidate 0 ≤ Count.limit) :
    Collects delta query (candidates ++ [candidate]) (tier.consider query candidate) := by
  have hle := h.le_delta
  rw [consider_eq (hlimit.imp_left hle.trans_lt)]
  by_cases hlt : Spelling.distance query candidate 0 < tier.distance
  · -- A nearer candidate: none of the earlier ones is as near.
    rw [if_pos hlt]
    refine ⟨by dsimp only; omega, fun c hc => ?_, ?_, .inr (List.cons_ne_nil _ _)⟩
    · rcases List.mem_append.1 hc with hc | hc
      · exact hlt.le.trans (h.le_distance c hc)
      · rw [List.mem_singleton.1 hc]
    · have hnone : candidates.filter (fun c => Spelling.distance query c 0 = Spelling.distance query candidate 0) = [] :=
        List.filter_eq_nil_iff.2 fun c hc => by
          have hc' := h.le_distance c hc
          simp only [decide_eq_true_eq]
          omega
      simp [hnone]
  · rw [if_neg hlt]
    have hle' : ∀ c ∈ candidates ++ [candidate], tier.distance ≤ Spelling.distance query c 0 := by
      intro c hc
      rcases List.mem_append.1 hc with hc | hc
      · exact h.le_distance c hc
      · rw [List.mem_singleton.1 hc]
        exact Nat.not_lt.1 hlt
    by_cases heq : Spelling.distance query candidate 0 = tier.distance
    · rw [if_pos heq]
      refine ⟨hle, hle', ?_, .inr (by simp)⟩
      simp [h.names_eq, heq]
    · rw [if_neg heq]
      refine ⟨hle, hle', ?_, h.attained⟩
      simp [h.names_eq, heq]

theorem foldl (delta : Nat) (query : String) (candidates : List String)
    (hlimit : delta < Count.limit ∨ ∀ c ∈ candidates, Spelling.distance query c 0 ≤ Count.limit) :
    Collects delta query candidates (candidates.foldl (Tier.consider query) ⟨delta, []⟩) := by
  induction candidates using List.reverseRecOn with
  | nil => exact nil delta query
  | append_singleton candidates candidate ih =>
      rw [List.foldl_concat]
      refine (ih (hlimit.imp_right fun h c hc => h c (List.mem_append_left _ hc))).consider ?_
      exact hlimit.imp_right fun h => h candidate (List.mem_append_right _ List.mem_cons_self)

/-- Nothing is collected exactly if every candidate is too far away. -/
theorem names_eq_nil_iff (h : Collects delta query candidates tier) :
    tier.names = [] ↔ ∀ c ∈ candidates, delta < Spelling.distance query c 0 := by
  constructor
  · intro hnil c hc
    have hdelta : tier.distance = delta := h.attained.resolve_right (not_not_intro hnil)
    have hle := h.le_distance c hc
    have hne : Spelling.distance query c 0 ≠ tier.distance := by
      have hfilter := h.names_eq.symm.trans hnil
      simpa using List.filter_eq_nil_iff.1 hfilter c hc
    omega
  · intro hfar
    rw [h.names_eq, List.filter_eq_nil_iff]
    intro c hc
    have hc' := hfar c hc
    have hle := h.le_delta
    simp only [decide_eq_true_eq]
    omega

/-- The tier stands at the least distance of a candidate, if any candidate is in it. -/
theorem isLeast (h : Collects delta query candidates tier) (hne : tier.names ≠ []) :
    IsLeast {d | d ≤ delta ∧ ∃ c ∈ candidates, Spelling.distance query c 0 = d} tier.distance := by
  refine ⟨⟨h.le_delta, ?_⟩, ?_⟩
  · obtain ⟨c, hc⟩ := List.exists_mem_of_ne_nil _ hne
    rw [h.names_eq, List.mem_filter, decide_eq_true_iff] at hc
    exact ⟨c, hc⟩
  · rintro d ⟨-, c, hc, rfl⟩
    exact h.le_distance c hc

end Collects
end Tier

/-- No candidate is offered exactly if more than `delta` edits lead to each of them. -/
theorem nearestWithin_eq_nil_iff {delta : Nat} {query : String} {candidates : List String}
    (hlimit : delta < Count.limit ∨ ∀ c ∈ candidates, distance query c 0 ≤ Count.limit) :
    nearestWithin delta query candidates = [] ↔ ∀ c ∈ candidates, delta < distance query c 0 :=
  (Tier.Collects.foldl delta query candidates hlimit).names_eq_nil_iff

/-- A text is too far away exactly if no short sequence of edits leads to it. -/
theorem lt_distance_iff {n : Nat} {source target : String} :
    n < distance source target 0 ↔ ∀ k, Edits k source.toList target.toList → n < k :=
  ⟨fun h _ hk => h.trans_le (distance_le_of_edits hk), fun h => h _ (edits_distance source target)⟩

theorem nearest_eq_nil_iff {query : String} {candidates : List String} :
    nearest query candidates = [] ↔ ∀ c ∈ candidates, ∀ n, Edits n query.toList c.toList → defaultDelta < n := by
  simp only [nearest, nearestWithin_eq_nil_iff (.inl (by decide : defaultDelta < Count.limit)), lt_distance_iff]

/-! ### One pass or two -/

/-- Whether `n` is the least number of edits that lead from one text to another. -/
def Apart (n : Nat) (source target : String) : Prop := IsLeast {k | Edits k source.toList target.toList} n

theorem apart_iff {n : Nat} {source target : String} : Apart n source target ↔ distance source target 0 = n := by
  have hleast : Apart (distance source target 0) source target :=
    ⟨edits_distance source target, fun _ h => distance_le_of_edits h⟩
  exact ⟨fun h => hleast.unique h, fun h => h ▸ hleast⟩

instance (n : Nat) (source target : String) : Decidable (Apart n source target) := decidable_of_iff _ apart_iff.symm

/-- **The candidates at the least distance.**  Nothing is offered exactly if no candidate is within `delta` edits of the
query.  Otherwise the candidates at the least distance of one are offered, in their order and as often as they are
given. -/
theorem nearestWithin_eq_filter (delta : Nat) (query : String) (candidates : List String)
    (hquery : query.length < Nat.pow 2 63) (hcandidates : ∀ c ∈ candidates, c.length < Nat.pow 2 63) :
    (nearestWithin delta query candidates = [] ↔ ¬ ∃ c ∈ candidates, ∃ d ≤ delta, Apart d query c) ∧
      ((∃ c ∈ candidates, ∃ d ≤ delta, Apart d query c) →
        ∃ m, IsLeast {d | d ≤ delta ∧ ∃ c ∈ candidates, Apart d query c} m ∧
          nearestWithin delta query candidates = candidates.filter fun c => Apart m query c) := by
  have hlimit : ∀ c ∈ candidates, distance query c 0 ≤ Count.limit :=
    fun c hc => (distance_lt_limit hquery (hcandidates c hc)).le
  have hcollects := Tier.Collects.foldl delta query candidates (.inr hlimit)
  have hnil : nearestWithin delta query candidates = [] ↔ ¬ ∃ c ∈ candidates, ∃ d ≤ delta, Apart d query c := by
    rw [nearestWithin_eq_nil_iff (.inr hlimit)]
    simp [apart_iff]
  refine ⟨hnil, fun hwithin => ?_⟩
  have hne : nearestWithin delta query candidates ≠ [] := fun h => hnil.1 h hwithin
  simp only [apart_iff]
  exact ⟨_, hcollects.isLeast hne, hcollects.names_eq⟩

/-- With no limit on the distance, a candidate that is the query itself is offered as often as it is given, and none of
the others, though one of them comes first. -/
theorem nearestWithin_of_exact_match :
    IsLeast {d | d ≤ Count.limit ∧ ∃ c ∈ ["cut", "cat", "dog", "cat"], Apart d "cat" c} 0 ∧
      nearestWithin Count.limit "cat" ["cut", "cat", "dog", "cat"] = ["cat", "cat"] := by
  have hexact : Apart 0 "cat" "cat" := by decide
  obtain ⟨m, hm, hoffered⟩ := (nearestWithin_eq_filter Count.limit "cat" ["cut", "cat", "dog", "cat"] (by decide)
    (by decide)).2 ⟨"cat", by decide, 0, Nat.zero_le _, hexact⟩
  obtain rfl : m = 0 := Nat.le_zero.1 (hm.2 ⟨Nat.zero_le _, "cat", by decide, hexact⟩)
  exact ⟨hm, hoffered.trans (by decide)⟩

/-! ## The distance as a metric -/

/-- `d` tells any two points apart, in either order by the same count, and no detour is shorter. -/
structure IsMetric {α : Type} (d : α → α → Nat) : Prop where
  eq_zero_iff : ∀ a b, d a b = 0 ↔ a = b
  comm : ∀ a b, d a b = d b a
  triangle : ∀ a b c, d a c ≤ d a b + d b c

/-- Distances that are cut off at a positive count still make a metric. -/
theorem IsMetric.min {α : Type} {d : α → α → Nat} (h : IsMetric d) {n : Nat} (hn : n ≠ 0) :
    IsMetric fun a b => min (d a b) n where
  eq_zero_iff a b := by
    rw [← h.eq_zero_iff a b]
    omega
  comm a b := by rw [h.comm]
  triangle a b c := by
    have hdetour := h.triangle a b c
    omega

/-! ### Edits undone -/

theorem Edit.symm {s t : List Char} (h : Edit s t) : Edit t s := by
  cases h with
  | insert before after c => exact .delete before after c
  | delete before after c => exact .insert before after c
  | replace before after hcd => exact .replace before after hcd.symm

theorem Edits.symm {n : Nat} {s t : List Char} (h : Edits n s t) : Edits n t s := by
  induction h with
  | none s => exact .none s
  | more h _ ih => exact ih.trans (.more h.symm (.none _))

theorem edits_zero_iff {s t : List Char} : Edits 0 s t ↔ s = t := by
  constructor
  · rintro ⟨⟩
    rfl
  · rintro rfl
    exact .none s

/-! ### The distance -/

theorem distance_zero_eq_zero_iff : distance source target 0 = 0 ↔ source = target := by
  rw [← String.toList_inj, ← edits_zero_iff]
  constructor
  · intro h
    exact h ▸ edits_distance source target
  · intro h
    exact Nat.le_zero.1 (distance_le_of_edits h)

theorem distance_zero_le_symm (source target : String) : distance source target 0 ≤ distance target source 0 :=
  distance_le_of_edits (edits_distance target source).symm

theorem isMetric_distance_zero : IsMetric fun source target => distance source target 0 where
  eq_zero_iff _ _ := distance_zero_eq_zero_iff
  comm source target := Nat.le_antisymm (distance_zero_le_symm source target) (distance_zero_le_symm target source)
  triangle source middle target :=
    distance_le_of_edits ((edits_distance source middle).trans (edits_distance middle target))

/-- Under a bound that is a count, the distance is cut off at the count after the bound. -/
theorem distance_eq_min {bound : Nat} (h : bound ≠ 0) (hbound : bound ≤ Count.limit) (source target : String) :
    distance source target bound = min (distance source target 0) (Count.next bound) := by
  rw [distance_of_ne_zero source target h, Count.next]
  split <;> omega

/-- **The distance is a metric under every bound.**  For each bound that is a count, zero for none included, the distance
is zero between equal texts only, does not depend on their order, and is no greater than by way of a third text. -/
theorem isMetric_distance (bound : Nat) (hbound : bound ≤ Count.limit) :
    IsMetric fun source target => distance source target bound := by
  by_cases h : bound = 0
  · subst h
    exact isMetric_distance_zero
  · have hnext : Count.next bound ≠ 0 := by
      have hlimit : Count.limit ≠ 0 := by decide
      rw [Count.next]
      omega
    simp only [distance_eq_min h hbound]
    exact isMetric_distance_zero.min hnext

/-- Under a bound of one only the first of two orders stops before its last row, and a detour that stays within the bound
is as long as a way that exceeds it. -/
theorem isMetric_distance_of_early_stop :
    1 ≤ Count.limit ∧ (Row.start []).advance? [] 1 "abc".toList = none ∧
      distance "abc" "" 1 = distance "" "abc" 1 ∧
      distance "abc" "b" 1 = 2 ∧ distance "abc" "b" 1 ≤ distance "abc" "ab" 1 + distance "ab" "b" 1 := by
  have hbound : 1 ≤ Count.limit := by decide
  have hmetric := isMetric_distance 1 hbound
  exact ⟨hbound, by decide, hmetric.comm "abc" "", by decide, hmetric.triangle "abc" "ab" "b"⟩

end Spelling

end Diagnostics
