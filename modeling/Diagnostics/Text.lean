/-! # Texts

What the program reads and writes are texts: sequences of characters, written in UTF-8.

* **Counts** are natural numbers up to a fixed limit.  The successor of a count stays at the limit instead of leaving
  the range.
* **Blanks and words.**  A blank is a character with the Unicode property White_Space; the words of a text are its
  maximal runs of other characters.
* **Cuts.**  A text that is read field by field is cut at the first or at the last occurrence of a separating character.
  A cut loses nothing but that character, and the part on the side from which the search started does not hold it; these
  two facts determine the cut (`cutFirst?_eq_some_iff`, `cutLast?_eq_some_iff`).
* **Numerals.**  A numeral is a non-empty run of ASCII digits, leading zeros allowed, behind at most one `+`.  Reading is
  bounded: a numeral above the limit is refused, and so is every text with a sign `-`, a blank or any other
  character. -/

namespace Diagnostics

/-! ### Counts -/

namespace Count

/-- The largest count. -/
def limit : Nat := Nat.pow 2 64 - 1

/-- The count after `n`, or the limit. -/
def next (n : Nat) : Nat := min (n + 1) limit

theorem next_of_lt {n : Nat} (h : n < limit) : next n = n + 1 := Nat.min_eq_left h

end Count

/-! ### Blanks and words -/

namespace Text

/-- The code points with the property White_Space, as ranges with both ends included. -/
def blankRanges : List (Nat × Nat) :=
  [(0x0009, 0x000D), (0x0020, 0x0020), (0x0085, 0x0085), (0x00A0, 0x00A0), (0x1680, 0x1680), (0x2000, 0x200A),
    (0x2028, 0x2029), (0x202F, 0x202F), (0x205F, 0x205F), (0x3000, 0x3000)]

/-- Whether a character is a blank. -/
def isBlank (c : Char) : Bool := blankRanges.any fun (first, last) => decide (first ≤ c.toNat ∧ c.toNat ≤ last)

/-- A word is written with its characters in order. -/
abbrev Word := List Char

/-- The words of a text, in order. -/
def words (s : List Char) : List Word := (s.splitOnP isBlank).filter (· ≠ [])

/-! ### Cutting a text at a separator -/

/-- The parts of a text before and after the first `c`. -/
def cutFirst? (c : Char) : List Char → Option (List Char × List Char)
  | [] => none
  | d :: s => if d = c then some ([], s) else (cutFirst? c s).map fun (before, after) => (d :: before, after)

/-- The parts of a text before and after the last `c`. -/
def cutLast? (c : Char) (s : List Char) : Option (List Char × List Char) :=
  (cutFirst? c s.reverse).map fun (after, before) => (before.reverse, after.reverse)

theorem cutFirst?_append {c : Char} {before : List Char} (h : c ∉ before) (after : List Char) :
    cutFirst? c (before ++ c :: after) = some (before, after) := by
  induction before with
  | nil => simp [cutFirst?]
  | cons d before ih =>
    have hd : d ≠ c := fun e => h (by simp [e])
    simp [cutFirst?, hd, ih fun m => h (List.mem_cons_of_mem d m)]

theorem cutFirst?_eq_some_iff {c : Char} {s before after : List Char} :
    cutFirst? c s = some (before, after) ↔ s = before ++ c :: after ∧ c ∉ before := by
  refine ⟨fun h => ?_, fun ⟨h, hc⟩ => h ▸ cutFirst?_append hc after⟩
  induction s generalizing before with
  | nil => simp [cutFirst?] at h
  | cons d s ih =>
    by_cases hd : d = c
    · simp [cutFirst?, hd] at h
      simp [h.1, h.2, hd]
    · simp only [cutFirst?, hd, if_false, Option.map_eq_some_iff, Prod.mk.injEq, Prod.exists] at h
      obtain ⟨u, v, huv, rfl, rfl⟩ := h
      obtain ⟨rfl, hu⟩ := ih huv
      simp [hu, Ne.symm hd]

theorem cutFirst?_eq_none_iff {c : Char} {s : List Char} : cutFirst? c s = none ↔ c ∉ s := by
  induction s with
  | nil => simp [cutFirst?]
  | cons d s ih =>
    by_cases hd : d = c
    · simp [cutFirst?, hd]
    · simp [cutFirst?, hd, ih, Ne.symm hd]

theorem cutLast?_eq_some_iff {c : Char} {s before after : List Char} :
    cutLast? c s = some (before, after) ↔ s = before ++ c :: after ∧ c ∉ after := by
  simp only [cutLast?, Option.map_eq_some_iff, Prod.mk.injEq, Prod.exists]
  constructor
  · rintro ⟨u, v, huv, rfl, rfl⟩
    obtain ⟨h, hu⟩ := cutFirst?_eq_some_iff.1 huv
    refine ⟨?_, by simpa using hu⟩
    rw [← List.reverse_reverse s, h]
    simp
  · rintro ⟨rfl, ha⟩
    exact ⟨after.reverse, before.reverse, cutFirst?_eq_some_iff.2 ⟨by simp, by simpa using ha⟩, by simp, by simp⟩

theorem cutLast?_eq_none_iff {c : Char} {s : List Char} : cutLast? c s = none ↔ c ∉ s := by
  simp [cutLast?, cutFirst?_eq_none_iff]

/-- A text is cut at its last `c` in one way. -/
theorem append_cons_inj_of_not_mem {c : Char} {s t s' t' : List Char} (ht : c ∉ t) (ht' : c ∉ t')
    (h : s ++ c :: t = s' ++ c :: t') : s = s' ∧ t = t' := by
  have h1 : cutLast? c (s ++ c :: t) = some (s, t) := cutLast?_eq_some_iff.2 ⟨rfl, ht⟩
  have h2 : cutLast? c (s ++ c :: t) = some (s', t') := cutLast?_eq_some_iff.2 ⟨h, ht'⟩
  rw [h1] at h2
  exact Prod.mk.inj (Option.some.inj h2)

end Text

/-! ### Texts as bytes -/

/-- A sequence of bytes, first byte first. -/
abbrev Bytes := List UInt8

namespace Bytes

/-- The UTF-8 encoding of a text. -/
def ofString (s : String) : Bytes := s.toList.flatMap String.utf8EncodeChar

/-- The byte that ends a line. -/
def newline : UInt8 := 10

/-- The byte of a space. -/
def space : UInt8 := 32

/-- The byte of a caret. -/
def caret : UInt8 := 94

theorem toByteArray_ofString (s : String) : (ofString s).toByteArray = s.toByteArray :=
  congrArg String.toByteArray s.ofList_toList

/-- The bytes of a text tell it. -/
theorem ofString_inj {s t : String} (h : ofString s = ofString t) : s = t := by
  rw [← String.toByteArray_inj, ← toByteArray_ofString, ← toByteArray_ofString, h]

theorem ofString_eq_nil_iff {s : String} : ofString s = [] ↔ s = "" := by
  constructor
  · intro h
    exact ofString_inj h
  · rintro rfl
    rfl

end Bytes

/-! ### Decimal numerals -/

namespace Numeral

/-- The digits of a numeral: what is left without one leading `+`. -/
def unsigned : List Char → List Char
  | '+' :: s => s
  | s => s

/-- The value of a numeral of at most `limit`. -/
def read? (limit : Nat) (s : List Char) : Option Nat :=
  let digits := unsigned s
  let value := Nat.ofDigitChars 10 digits 0
  if digits ≠ [] ∧ digits.all Char.isDigit ∧ value ≤ limit then some value else none

/-- The value of a numeral for a count. -/
def count? (s : List Char) : Option Nat := read? Count.limit s

/-- The value of a numeral for a line or a column. -/
def coordinate? (s : List Char) : Option UInt32 := (read? (UInt32.size - 1) s).map UInt32.ofNat

/-- The shortest numeral of a value. -/
def write (n : Nat) : List Char := Nat.toDigits 10 n

theorem isDigit_of_mem_write {n : Nat} {c : Char} (h : c ∈ write n) : c.isDigit = true :=
  Nat.isDigit_of_mem_toDigits (by decide) (by decide) h

theorem unsigned_write (n : Nat) : unsigned (write n) = write n := by
  unfold unsigned
  split
  · next h => exact absurd (isDigit_of_mem_write (h ▸ List.mem_cons_self : '+' ∈ write n)) (by decide)
  · rfl

theorem read?_write {limit n : Nat} (h : n ≤ limit) : read? limit (write n) = some n := by
  have hv : Nat.ofDigitChars 10 (write n) 0 = n := Nat.ofDigitChars_toDigits (by decide) (by decide)
  have hn : write n ≠ [] := Nat.toDigits_ne_nil
  have hd : ∀ c ∈ write n, c.isDigit = true := fun _ hc => isDigit_of_mem_write hc
  simp [read?, unsigned_write, hv, hn, h]
  exact hd

theorem coordinate?_write (n : UInt32) : coordinate? (write n.toNat) = some n := by
  simp [coordinate?, read?_write (Nat.le_sub_one_of_lt n.toNat_lt)]

end Numeral

end Diagnostics
