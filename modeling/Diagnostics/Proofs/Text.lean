import Diagnostics.Text

/-! # Words and numerals

What is said of texts that are put together and read again.

* **Words.**  A blank separates the words before it from the words after it (`words_append_cons`), and a text without
  blanks is one word.  With these two facts the words of a text that is put together from words and blanks are read off
  its parts.  Taken together the words are the text without its blanks (`flatten_words`).
* **Numerals.**  `Numeral.Spells s n` says that `s` is a numeral of value `n`: digits, one at least, behind at most one
  `+`.  A bounded reader accepts exactly the numerals of a value within its bound (`read?_eq_some_iff`), and what it is
  given otherwise it refuses.  Numerals hold none of the characters that separate them (`Spells.not_mem`). -/

namespace Diagnostics

/-! ### Words of texts put together -/

namespace Text

/-- Whether some characters are a word: there are any, and no blank is among them. -/
def IsWord (w : Word) : Prop := w ≠ [] ∧ ∀ c ∈ w, isBlank c = false

theorem isBlank_space : isBlank ' ' = true := by decide

theorem isBlank_newline : isBlank '\n' = true := by decide

/-- The words of a text hold its characters other than blanks, in order. -/
theorem flatten_words (s : List Char) : (words s).flatten = s.filter fun c => !isBlank c := by
  rw [words, List.flatten_filter_ne_nil]
  induction s with
  | nil => rfl
  | cons d s ih =>
      obtain ⟨first, others, hs⟩ := List.exists_cons_of_ne_nil (List.splitOnP_ne_nil isBlank s)
      rw [List.splitOnP_cons_eq_if_modifyHead, List.filter_cons, ← ih, hs]
      cases isBlank d <;> simp

theorem mem_of_mem_words {s : List Char} {w : Word} (h : w ∈ words s) {c : Char} (hc : c ∈ w) :
    c ∈ s ∧ isBlank c = false := by
  have hmem : c ∈ (words s).flatten := List.mem_flatten.2 ⟨w, h, hc⟩
  rwa [flatten_words, List.mem_filter, Bool.not_eq_true'] at hmem

theorem isWord_of_mem_words {s : List Char} {w : Word} (h : w ∈ words s) : IsWord w :=
  ⟨of_decide_eq_true (List.mem_filter.1 h).2, fun _ hc => (mem_of_mem_words h hc).2⟩

theorem words_append_cons (s t : List Char) {c : Char} (hc : isBlank c = true) :
    words (s ++ c :: t) = words s ++ words t := by
  rw [words, List.splitOnP_append_cons s t hc, List.filter_append, words, words]

theorem words_nil : words [] = [] := rfl

theorem words_cons (t : List Char) {c : Char} (hc : isBlank c = true) : words (c :: t) = words t :=
  words_append_cons [] t hc

theorem words_replicate_append (n : Nat) (t : List Char) {c : Char} (hc : isBlank c = true) :
    words (List.replicate n c ++ t) = words t := by
  induction n with
  | zero => rfl
  | succ n ih => rw [List.replicate_succ, List.cons_append, words_cons _ hc, ih]

theorem words_of_isWord {w : Word} (h : IsWord w) : words w = [w] := by
  rw [words, List.splitOnP_eq_singleton h.2]
  simp [h.1]

/-- A character that is no blank starts a word, and another one before it joins that word. -/
theorem exists_words_cons {d : Char} (hd : isBlank d = false) (s : List Char) :
    ∃ word later, words (d :: s) = (d :: word) :: later ∧
      ∀ c, isBlank c = false → words (c :: d :: s) = (c :: d :: word) :: later := by
  obtain ⟨first, others, hs⟩ := List.exists_cons_of_ne_nil (List.splitOnP_ne_nil isBlank s)
  refine ⟨first, others.filter (· ≠ []), ?_, fun c hc => ?_⟩
  · simp [words, List.splitOnP_cons_eq_if_modifyHead, hd, hs]
  · simp [words, List.splitOnP_cons_eq_if_modifyHead, hc, hd, hs]

end Text

/-! ### The grammar of numerals -/

namespace Numeral

/-- `s` is a numeral of value `n`. -/
def Spells (s : List Char) (n : Nat) : Prop :=
  ∃ digits, (s = digits ∨ s = '+' :: digits) ∧ digits ≠ [] ∧ (∀ c ∈ digits, c.isDigit = true) ∧
    Nat.ofDigitChars 10 digits 0 = n

theorem eq_unsigned_or (s : List Char) : s = unsigned s ∨ s = '+' :: unsigned s := by
  unfold unsigned
  split
  · exact .inr rfl
  · exact .inl rfl

theorem unsigned_of_isDigit {digits : List Char} (h : ∀ c ∈ digits, c.isDigit = true) :
    unsigned digits = digits := by
  unfold unsigned
  split
  · next s =>
    have hplus : '+'.isDigit = true := h '+' List.mem_cons_self
    exact absurd hplus (by decide)
  · rfl

theorem read?_eq_some_iff {limit n : Nat} {s : List Char} :
    read? limit s = some n ↔ Spells s n ∧ n ≤ limit := by
  simp only [read?, Option.ite_none_right_eq_some, List.all_eq_true, Option.some.injEq]
  constructor
  · intro h
    obtain ⟨⟨hne, hd, hle⟩, rfl⟩ := h
    exact ⟨⟨unsigned s, eq_unsigned_or s, hne, hd, rfl⟩, hle⟩
  · intro h
    obtain ⟨⟨digits, hs, hne, hd, rfl⟩, hle⟩ := h
    have hu : unsigned s = digits := by
      rcases hs with rfl | rfl
      · exact unsigned_of_isDigit hd
      · rfl
    rw [hu]
    exact ⟨⟨hne, hd, hle⟩, rfl⟩

theorem count?_eq_some_iff {s : List Char} {n : Nat} : count? s = some n ↔ Spells s n ∧ n ≤ Count.limit :=
  read?_eq_some_iff

theorem count?_eq_none_iff {s : List Char} : count? s = none ↔ ∀ n ≤ Count.limit, ¬ Spells s n := by
  rw [Option.eq_none_iff_forall_ne_some]
  exact forall_congr' fun n => by rw [Ne, count?_eq_some_iff, and_comm, not_and]

theorem coordinate?_eq_some_iff {s : List Char} {n : UInt32} :
    coordinate? s = some n ↔ Spells s n.toNat := by
  simp only [coordinate?, Option.map_eq_some_iff, read?_eq_some_iff]
  constructor
  · intro h
    obtain ⟨k, ⟨hs, hk⟩, rfl⟩ := h
    have hlt : k < UInt32.size := Nat.lt_of_le_sub_one (by decide) hk
    rwa [UInt32.toNat_ofNat_of_lt' hlt]
  · intro hs
    exact ⟨n.toNat, ⟨hs, Nat.le_sub_one_of_lt n.toNat_lt⟩, UInt32.ofNat_toNat⟩

theorem spells_write (n : Nat) : Spells (write n) n :=
  (read?_eq_some_iff.1 (read?_write (Nat.le_refl n))).1

theorem Spells.not_mem {s : List Char} {n : Nat} (h : Spells s n) {c : Char} (hc : c.isDigit = false)
    (hplus : c ≠ '+') : c ∉ s := by
  obtain ⟨digits, hs, -, hd, -⟩ := h
  have hdigits : c ∉ digits := by
    intro hm
    rw [hd c hm] at hc
    exact absurd hc (by decide)
  rcases hs with rfl | rfl
  · exact hdigits
  · intro hm
    rcases List.mem_cons.1 hm with hm | hm
    · exact hplus hm
    · exact hdigits hm

theorem write_toNat_inj {m n : UInt32} (h : write m.toNat = write n.toNat) : m = n := by
  have hm := coordinate?_write m
  rw [h, coordinate?_write] at hm
  exact (Option.some.inj hm).symm

end Numeral

end Diagnostics
