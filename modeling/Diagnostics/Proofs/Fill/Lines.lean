import Mathlib.Data.List.Chain
import Mathlib.Order.Bounds.Defs
import Diagnostics.Report
import Diagnostics.Proofs.Text

/-! # The lines of a filled message

A filled message is a list of lines, each of them written from some column on, and no cut of its words has fewer lines.

* **Placed lines** (`Placed`, `placed`).  The first line starts at column zero and the later ones start at the indent.
  The column that a line reaches is the length of what is written.
* **Cuts** (`Cut`).  A cut of a list of words is any way of laying them out in which no line is empty and each word fits
  its line (`Placed.Fits`): the line had not reached the indent before it, or it ends within the width.
* **Forced breaks** (`Placed.Forces`).  Between two lines of the greedy filling the first word of the second one would
  not have fitted the first.
* **Counted breaks** (`breaks`).  Counted from a column on, the greedy filling breaks no more often from a smaller column,
  and a break makes up for any column: after it the line starts at the indent, and a line that has reached the indent is
  not ahead of that one.  Each of the two facts needs the other (`breaks_le`).

While a line is filled, all that matters about it is the column that it has reached, so what is said of whole lines is
proved from what is said of words that follow at some column (`Follows`).  `lines_of_wrap` says what is written of any
message.  A break where the greedy filling has none saves at most what it costs (`breaks_cons_le`), so any cut can be
followed line by line (`breaks_append_le`), and `fewest_lines_of_wrap` says that the greedy filling takes the fewest
lines. -/

namespace Diagnostics

/-! ## Lines that are filled greedily -/

namespace Fill

/-! ### Placed lines -/

/-- A line and the column from which it is written. -/
structure Placed where
  start : Nat
  line : Line

namespace Placed

/-- What is written of a line, without the newline that ends it. -/
def text (p : Placed) : List Char := List.replicate p.start ' ' ++ lineText p.line

/-- The column that a line reaches. -/
def reach (p : Placed) : Nat := p.text.length

/-- Whether each word but the first was put on a line that had not reached the indent, or ends within the width. -/
def Fits (indent width : Nat) (p : Placed) : Prop :=
  ∀ before word after, p.line = before ++ word :: after → before ≠ [] →
    reach ⟨p.start, before⟩ < indent ∨ reach ⟨p.start, before ++ [word]⟩ ≤ width

/-- Whether a line has reached the indent and would exceed the width with a space and the first word of the next one. -/
def Forces (indent width : Nat) (p next : Placed) : Prop :=
  indent ≤ p.reach ∧ ∀ word ∈ next.line.head?, width < p.reach + 1 + word.length

end Placed

/-- Lines with their columns: the first one starts at column zero, the later ones start at the indent. -/
def placed (indent : Nat) : List Line → List Placed
  | [] => []
  | line :: later => ⟨0, line⟩ :: later.map (Placed.mk indent)

/-- A way of laying out words on lines that are not empty, so that every word fits. -/
structure Cut (indent width : Nat) (words : List Text.Word) (lines : List Line) : Prop where
  flatten_eq : lines.flatten = words
  ne_nil : ∀ line ∈ lines, line ≠ []
  fits : ∀ p ∈ placed indent lines, p.Fits indent width

theorem map_line_placed (indent : Nat) (lines : List Line) : (placed indent lines).map Placed.line = lines := by
  cases lines with
  | nil => rfl
  | cons line later => simp [placed, Function.comp_def]

theorem line_mem_of_mem_placed {indent : Nat} {lines : List Line} {p : Placed} (h : p ∈ placed indent lines) :
    p.line ∈ lines := by
  rw [← map_line_placed indent lines]
  exact List.mem_map_of_mem h

theorem text_eq_flatMap (indent : Nat) (lines : List Line) :
    text indent lines = (placed indent lines).flatMap fun p => p.text ++ ['\n'] := by
  cases lines with
  | nil => rfl
  | cons line later => simp [text, placed, Placed.text, List.flatMap_map]

/-! ### What is written of a line -/

theorem lineText_cons_cons (word next : Text.Word) (line : Line) :
    lineText (word :: next :: line) = word ++ ' ' :: lineText (next :: line) := by
  simp [lineText, List.intercalate_cons_cons]

theorem lineText_concat {line : Line} (h : line ≠ []) (word : Text.Word) :
    lineText (line ++ [word]) = lineText line ++ ' ' :: word := by
  induction line with
  | nil => exact absurd rfl h
  | cons first line ih =>
      cases line with
      | nil => simp [lineText]
      | cons next line =>
          rw [List.cons_append, List.cons_append, lineText_cons_cons, lineText_cons_cons, ← List.cons_append,
            ih (List.cons_ne_nil next line)]
          simp

theorem mem_lineText {line : Line} {c : Char} (h : c ∈ lineText line) : c = ' ' ∨ ∃ word ∈ line, c ∈ word := by
  induction line with
  | nil => exact absurd h (by simp [lineText])
  | cons word line ih =>
      cases line with
      | nil => exact .inr ⟨word, List.mem_cons_self, by simpa [lineText] using h⟩
      | cons next line =>
          rw [lineText_cons_cons, List.mem_append, List.mem_cons] at h
          rcases h with h | rfl | h
          · exact .inr ⟨word, List.mem_cons_self, h⟩
          · exact .inl rfl
          · exact (ih h).imp_right fun ⟨w, hw, hc⟩ => ⟨w, List.mem_cons_of_mem _ hw, hc⟩

section words
variable {line : Line} (hline : ∀ word ∈ line, Text.IsWord word)
include hline

theorem words_lineText : Text.words (lineText line) = line := by
  induction line with
  | nil => rfl
  | cons word line ih =>
      obtain ⟨hword, hrest⟩ := List.forall_mem_cons.1 hline
      cases line with
      | nil => simpa [lineText] using Text.words_of_isWord hword
      | cons next line =>
          rw [lineText_cons_cons, Text.words_append_cons _ _ Text.isBlank_space, Text.words_of_isWord hword, ih hrest,
            List.singleton_append]

/-- A line ends as its last word does. -/
theorem isBlank_of_mem_getLast?_lineText {c : Char} (h : c ∈ (lineText line).getLast?) : Text.isBlank c = false := by
  cases hlast : line.getLast? with
  | none =>
      rw [List.getLast?_eq_none_iff.1 hlast] at h
      simp [lineText] at h
  | some word =>
      obtain ⟨before, rfl⟩ := List.getLast?_eq_some_iff.1 hlast
      obtain ⟨hne, hblank⟩ := hline word (by simp)
      have hword : (lineText (before ++ [word])).getLast? = word.getLast? := by
        cases before with
        | nil => simp [lineText]
        | cons first before =>
            obtain ⟨d, s, rfl⟩ := List.exists_cons_of_ne_nil hne
            rw [lineText_concat (List.cons_ne_nil first before)]
            simp [List.getLast?_append, List.getLast?_cons]
      rw [hword] at h
      exact hblank c (List.mem_of_getLast? h)

end words

namespace Placed

theorem reach_singleton (start : Nat) (word : Text.Word) : reach ⟨start, [word]⟩ = start + word.length := by
  simp [reach, text, lineText]

theorem reach_concat (start : Nat) {line : Line} (h : line ≠ []) (word : Text.Word) :
    reach ⟨start, line ++ [word]⟩ = reach ⟨start, line⟩ + 1 + word.length := by
  simp only [reach, text, lineText_concat h, List.length_append, List.length_cons]
  omega

variable {p : Placed} (hp : ∀ word ∈ p.line, Text.IsWord word)
include hp

theorem words_text : Text.words p.text = p.line := by
  rw [text, Text.words_replicate_append _ _ Text.isBlank_space, words_lineText hp]

theorem newline_not_mem_text : '\n' ∉ p.text := by
  intro h
  rcases List.mem_append.1 h with h | h
  · exact absurd (List.eq_of_mem_replicate h) (by decide)
  · rcases mem_lineText h with h | ⟨word, hword, h⟩
    · exact absurd h (by decide)
    · exact absurd ((hp word hword).2 _ h) (by simp [Text.isBlank_newline])

theorem getLast?_text_ne (hstart : p.line = [] → p.start = 0) : p.text.getLast? ≠ some ' ' := by
  rw [text, List.getLast?_append]
  cases hlast : (lineText p.line).getLast? with
  | none =>
      have hnil : p.line = [] := by rw [← words_lineText hp, List.getLast?_eq_none_iff.1 hlast, Text.words_nil]
      simp [hstart hnil]
  | some c =>
      have hblank := isBlank_of_mem_getLast?_lineText hp hlast
      rintro ⟨⟩
      exact absurd hblank (by simp [Text.isBlank_space])

end Placed

/-- The words of lines that are written one after another are those of the lines. -/
theorem words_flatMap_text {ps : List Placed} (h : ∀ p ∈ ps, ∀ word ∈ p.line, Text.IsWord word) :
    Text.words (ps.flatMap fun p => p.text ++ ['\n']) = (ps.map Placed.line).flatten := by
  induction ps with
  | nil => rfl
  | cons p ps ih =>
      obtain ⟨hp, hps⟩ := List.forall_mem_cons.1 h
      rw [List.flatMap_cons, List.append_assoc, List.singleton_append, Text.words_append_cons _ _ Text.isBlank_newline,
        Placed.words_text hp, ih hps, List.map_cons, List.flatten_cons]

/-! ### Words that follow on a line -/

/-- Whether words can follow on a line that has reached `column`. -/
def Follows (indent width : Nat) : (column : Nat) → List Text.Word → Prop
  | _, [] => True
  | column, word :: words => ¬ Breaks indent width column word ∧ Follows indent width (column + 1 + word.length) words

section columns
variable {indent width start : Nat}

instance decidableFollows : (column : Nat) → (words : List Text.Word) → Decidable (Follows indent width column words)
  | _, [] => .isTrue trivial
  | column, word :: words =>
    have := decidableFollows (column + 1 + word.length) words
    inferInstanceAs (Decidable (_ ∧ _))

theorem follows_reach_iff {before : Line} (h : before ≠ []) (words : List Text.Word) :
    Follows indent width (Placed.reach ⟨start, before⟩) words ↔
      ∀ between word after, words = between ++ word :: after →
        ¬ Breaks indent width (Placed.reach ⟨start, before ++ between⟩) word := by
  induction words generalizing before with
  | nil => simp [Follows]
  | cons word words ih =>
      rw [Follows, ← Placed.reach_concat start h word, ih (List.append_ne_nil_of_left_ne_nil h [word])]
      constructor
      · rintro ⟨hword, hwords⟩ between v after e
        cases between with
        | nil =>
            obtain ⟨rfl, rfl⟩ := List.cons.inj e
            rwa [List.append_nil]
        | cons u between =>
            obtain ⟨rfl, hrest⟩ := List.cons.inj e
            rw [List.append_cons]
            exact hwords between v after hrest
      · intro hall
        refine ⟨by simpa using hall [] word words rfl, fun between v after e => ?_⟩
        rw [← List.append_cons]
        exact hall (word :: between) v after (by rw [e, List.cons_append])

/-- A word may follow on a line exactly if the line has not reached the indent or the word ends within the width. -/
theorem not_breaks_reach_iff {before : Line} (h : before ≠ []) (word : Text.Word) :
    ¬ Breaks indent width (Placed.reach ⟨start, before⟩) word ↔
      Placed.reach ⟨start, before⟩ < indent ∨ Placed.reach ⟨start, before ++ [word]⟩ ≤ width := by
  rw [Placed.reach_concat start h, Breaks]
  omega

theorem fits_cons_iff (word : Text.Word) (words : List Text.Word) :
    Placed.Fits indent width ⟨start, word :: words⟩ ↔ Follows indent width (start + word.length) words := by
  rw [← Placed.reach_singleton, follows_reach_iff (List.cons_ne_nil word [])]
  constructor
  · intro hfits between v after e
    exact (not_breaks_reach_iff (by simp) v).2 (hfits ([word] ++ between) v after (by simp [e]) (by simp))
  · intro hall before v after e hne
    obtain ⟨u, between, rfl⟩ := List.exists_cons_of_ne_nil hne
    obtain ⟨rfl, hrest⟩ := List.cons.inj e
    exact (not_breaks_reach_iff hne v).1 (hall between v after hrest)

instance (p : Placed) : Decidable (p.Fits indent width) :=
  match p with
  | ⟨_, []⟩ => .isTrue fun _ _ _ h => absurd h (by simp)
  | ⟨_, word :: words⟩ => decidable_of_iff _ (fits_cons_iff word words).symm

instance (words : List Text.Word) (lines : List Line) : Decidable (Cut indent width words lines) :=
  decidable_of_iff
    (lines.flatten = words ∧ (∀ line ∈ lines, line ≠ []) ∧ ∀ p ∈ placed indent lines, p.Fits indent width)
    ⟨fun ⟨hflatten, hne, hfits⟩ => ⟨hflatten, hne, hfits⟩, fun ⟨hflatten, hne, hfits⟩ => ⟨hflatten, hne, hfits⟩⟩

/-! ### The greedy lines -/

variable (indent width)

theorem follows_fill (column : Nat) (words : List Text.Word) :
    Follows indent width column (fill indent width column words).1 := by
  fun_induction fill indent width column words with
  | case1 => trivial
  | case2 => trivial
  | case3 column word words h line later e ih =>
      rw [e] at ih
      exact ⟨h, ih⟩

/-- Every later line starts with the word that did not fit the line before it. -/
theorem exists_follows_of_mem_fill {column : Nat} {words : List Text.Word} {line : Line}
    (h : line ∈ (fill indent width column words).2) :
    ∃ word rest, line = word :: rest ∧ Follows indent width (indent + word.length) rest := by
  fun_induction fill indent width column words with
  | case1 => simp at h
  | case2 column word words hbreaks rest later e ih =>
      rw [e] at ih
      rcases List.mem_cons.1 h with rfl | h
      · have hrest := follows_fill indent width (indent + word.length) words
        rw [e] at hrest
        exact ⟨word, rest, rfl, hrest⟩
      · exact ih h
  | case3 column word words hbreaks rest later e ih =>
      rw [e] at ih
      exact ih h

theorem isChain_forces_fill {start column : Nat} {before : Line} (hne : before ≠ [])
    (hcolumn : Placed.reach ⟨start, before⟩ = column) (words : List Text.Word) :
    List.IsChain (Placed.Forces indent width)
      (⟨start, before ++ (fill indent width column words).1⟩ ::
        (fill indent width column words).2.map (Placed.mk indent)) := by
  fun_induction fill indent width column words generalizing start before with
  | case1 => exact List.isChain_singleton _
  | case2 column word words h rest later e ih =>
      have hnext := ih (List.cons_ne_nil word []) (Placed.reach_singleton indent word)
      rw [e] at hnext
      rw [List.append_nil, List.map_cons]
      refine List.isChain_cons_cons.2 ⟨⟨hcolumn ▸ h.1, ?_⟩, hnext⟩
      intro v hv
      obtain rfl : word = v := by simpa using hv
      exact hcolumn ▸ h.2
  | case3 column word words h rest later e ih =>
      have hline := ih (List.append_ne_nil_of_left_ne_nil hne [word]) (by rw [Placed.reach_concat start hne, hcolumn])
      rw [e, ← List.append_cons] at hline
      exact hline

theorem cut_lines {words : List Text.Word} (h : words ≠ []) : Cut indent width words (lines indent width words) where
  flatten_eq := flatten_lines indent width words
  ne_nil line hline := by
    obtain ⟨word, words, rfl⟩ := List.exists_cons_of_ne_nil h
    rcases List.mem_cons.1 hline with rfl | hline
    · exact List.cons_ne_nil _ _
    · obtain ⟨v, rest, rfl, -⟩ := exists_follows_of_mem_fill indent width hline
      exact List.cons_ne_nil v rest
  fits p hp := by
    obtain ⟨word, words, rfl⟩ := List.exists_cons_of_ne_nil h
    rcases List.mem_cons.1 hp with rfl | hp
    · rw [fits_cons_iff, Nat.zero_add]
      exact follows_fill indent width word.length words
    · obtain ⟨line, hline, rfl⟩ := List.mem_map.1 hp
      obtain ⟨v, rest, rfl, hrest⟩ := exists_follows_of_mem_fill indent width hline
      exact (fits_cons_iff v rest).2 hrest

/-- Only the one line of a message without words is empty. -/
theorem start_eq_zero_of_mem_placed_lines {words : List Text.Word} {p : Placed}
    (hp : p ∈ placed indent (lines indent width words)) (hline : p.line = []) : p.start = 0 := by
  by_cases h : words = []
  · subst h
    rw [List.mem_singleton.1 hp]
  · exact absurd hline ((cut_lines indent width h).ne_nil _ (line_mem_of_mem_placed hp))

theorem isChain_forces_lines (words : List Text.Word) :
    (placed indent (lines indent width words)).IsChain (Placed.Forces indent width) := by
  cases words with
  | nil => exact List.isChain_singleton _
  | cons word words =>
      have hreach : Placed.reach ⟨0, [word]⟩ = word.length := by rw [Placed.reach_singleton, Nat.zero_add]
      exact isChain_forces_fill indent width (List.cons_ne_nil word []) hreach words

end columns

/-! ### The written message -/

theorem toList_wrap (message : String) (columns : Nat) :
    let lines := lines (indent message.toList) (width columns) (Text.words message.toList)
    (wrap message columns).toList = (placed (indent message.toList) lines).flatMap fun p => p.text ++ ['\n'] := by
  rw [wrap, String.toList_ofList, text_eq_flatMap]

theorem isWord_of_mem_placed_lines {indent width : Nat} {s : List Char} {p : Placed}
    (hp : p ∈ placed indent (lines indent width (Text.words s))) : ∀ word ∈ p.line, Text.IsWord word := by
  intro word hword
  have hmem : word ∈ (lines indent width (Text.words s)).flatten :=
    List.mem_flatten.2 ⟨p.line, line_mem_of_mem_placed hp, hword⟩
  rw [flatten_lines] at hmem
  exact Text.isWord_of_mem_words hmem

theorem idxOf_append_colon {lead : List Char} (h : ':' ∉ lead) (body : List Char) :
    (lead ++ ':' :: body).idxOf ':' = lead.length := by
  simp [List.idxOf_append, h]

theorem indent_eq (s : List Char) : indent s = if ':' ∈ s then s.idxOf ':' + 2 else 0 := by
  unfold indent
  cases hcut : Text.cutFirst? ':' s with
  | none => rw [if_neg (Text.cutFirst?_eq_none_iff.1 hcut)]
  | some parts =>
      obtain ⟨rfl, hlead⟩ := Text.cutFirst?_eq_some_iff.1 hcut
      rw [if_pos (List.mem_append_right _ List.mem_cons_self), idxOf_append_colon hlead]

/-- **What is written of a message.**  It is a sequence of lines that end in a newline, do not end in a space, and hold
the words of the message in order, one space apart.  The first line starts with the first word, and the later ones start
with the indent and a word; a message without words gives one empty line.  Every word fits its line, and every break was
forced. -/
theorem lines_of_wrap (message : String) (columns : Nat) :
    let s := message.toList
    let written := (wrap message columns).toList
    let indent := if ':' ∈ s then s.idxOf ':' + 2 else 0
    let width := max 40 (columns - 2)
    ∃ lines : List Line,
      written = (placed indent lines).flatMap (fun p => p.text ++ ['\n']) ∧
        (∀ p ∈ placed indent lines, '\n' ∉ p.text ∧ p.text.getLast? ≠ some ' ' ∧ Text.words p.text = p.line) ∧
        lines.flatten = Text.words s ∧ Text.words written = Text.words s ∧
        (Text.words s = [] → lines = [[]]) ∧ (Text.words s ≠ [] → Cut indent width (Text.words s) lines) ∧
        (placed indent lines).IsChain (Placed.Forces indent width) := by
  intro s written indent width
  have hwritten : written = (placed indent (lines indent width (Text.words s))).flatMap fun p => p.text ++ ['\n'] := by
    have hindent : Fill.indent s = indent := indent_eq s
    rw [← hindent]
    exact toList_wrap message columns
  have hflatten : (lines indent width (Text.words s)).flatten = Text.words s := flatten_lines indent width _
  have hwords : ∀ p ∈ placed indent (lines indent width (Text.words s)), ∀ word ∈ p.line, Text.IsWord word :=
    fun _ hp => isWord_of_mem_placed_lines hp
  refine ⟨lines indent width (Text.words s), hwritten, fun p hp => ⟨?_, ?_, ?_⟩, hflatten, ?_, fun hnil => ?_,
    cut_lines indent width, isChain_forces_lines indent width _⟩
  · exact Placed.newline_not_mem_text (hwords p hp)
  · exact Placed.getLast?_text_ne (hwords p hp) (start_eq_zero_of_mem_placed_lines indent width hp)
  · exact Placed.words_text (hwords p hp)
  · rw [hwritten, words_flatMap_text hwords, map_line_placed, hflatten]
  · rw [hnil, lines]

/-! ## Greedy filling takes the fewest lines -/

/-- The number of breaks in the greedy filling of words that follow on a line that has reached `column`. -/
def breaks (indent width column : Nat) (words : List Text.Word) : Nat := (fill indent width column words).2.length

section greedy
variable {indent width column : Nat}

theorem breaks_nil : breaks indent width column [] = 0 := rfl

theorem breaks_cons_of_breaks {word : Text.Word} (h : Breaks indent width column word) (words : List Text.Word) :
    breaks indent width column (word :: words) = breaks indent width (indent + word.length) words + 1 := by
  rw [breaks, fill, if_pos h]
  rfl

theorem breaks_cons_of_not_breaks {word : Text.Word} (h : ¬ Breaks indent width column word) (words : List Text.Word) :
    breaks indent width column (word :: words) = breaks indent width (column + 1 + word.length) words := by
  rw [breaks, fill, if_neg h]
  rfl

/-- What breaks a line breaks every line that has reached further. -/
theorem Breaks.mono {column' : Nat} {word : Text.Word} (hle : column ≤ column') (h : Breaks indent width column word) :
    Breaks indent width column' word :=
  ⟨h.1.trans hle, h.2.trans_le (by omega)⟩

/-- A line that has reached less is broken no more often, and one break more makes up for any column. -/
theorem breaks_le (words : List Text.Word) :
    (∀ column column', column ≤ column' → breaks indent width column words ≤ breaks indent width column' words) ∧
      ∀ column column', indent ≤ column' →
        breaks indent width column words ≤ breaks indent width column' words + 1 := by
  induction words with
  | nil => simp [breaks_nil]
  | cons word words ih =>
      obtain ⟨hmono, hmore⟩ := ih
      refine ⟨fun column column' hle => ?_, fun column column' hle => ?_⟩
      · by_cases h : Breaks indent width column word
        · rw [breaks_cons_of_breaks h, breaks_cons_of_breaks (h.mono hle)]
        · rw [breaks_cons_of_not_breaks h]
          by_cases h' : Breaks indent width column' word
          · rw [breaks_cons_of_breaks h']
            exact hmore _ _ (Nat.le_add_right indent word.length)
          · rw [breaks_cons_of_not_breaks h']
            exact hmono _ _ (by omega)
      · -- Wherever the word goes, the line of the right side has reached the indent.
        by_cases h : Breaks indent width column word
        · rw [breaks_cons_of_breaks h]
          by_cases h' : Breaks indent width column' word
          · rw [breaks_cons_of_breaks h']
            exact Nat.le_succ _
          · rw [breaks_cons_of_not_breaks h']
            exact Nat.succ_le_succ (hmono _ _ (by omega))
        · rw [breaks_cons_of_not_breaks h]
          by_cases h' : Breaks indent width column' word
          · rw [breaks_cons_of_breaks h']
            exact (hmore _ _ (Nat.le_add_right indent word.length)).trans (Nat.le_succ _)
          · rw [breaks_cons_of_not_breaks h']
            exact hmore _ _ (by omega)

/-- Putting a word on the next line saves at most that break. -/
theorem breaks_cons_le (word : Text.Word) (words : List Text.Word) :
    breaks indent width column (word :: words) ≤ breaks indent width (indent + word.length) words + 1 := by
  by_cases h : Breaks indent width column word
  · exact Nat.le_of_eq (breaks_cons_of_breaks h words)
  · rw [breaks_cons_of_not_breaks h]
    exact (breaks_le words).2 _ _ (Nat.le_add_right indent word.length)

/-! ### Following a cut -/

/-- The greedy filling goes along with words that follow on a line. -/
theorem exists_breaks_append_eq {line : Line} (h : Follows indent width column line) :
    ∃ column', ∀ words, breaks indent width column (line ++ words) = breaks indent width column' words := by
  induction line generalizing column with
  | nil => exact ⟨column, fun words => rfl⟩
  | cons word line ih =>
      obtain ⟨column', heq⟩ := ih h.2
      exact ⟨column', fun words => (breaks_cons_of_not_breaks h.1 (line ++ words)).trans (heq words)⟩

theorem breaks_append_le {line : Line} {later : List Line} (hline : Follows indent width column line)
    (hlater : ∀ next ∈ later, next ≠ [] ∧ Placed.Fits indent width ⟨indent, next⟩) :
    breaks indent width column (line ++ later.flatten) ≤ later.length := by
  induction later generalizing column line with
  | nil =>
      obtain ⟨column', heq⟩ := exists_breaks_append_eq hline
      rw [List.flatten_nil, heq, breaks_nil]
      exact Nat.le_refl 0
  | cons next later ih =>
      obtain ⟨⟨hne, hfits⟩, hrest⟩ := List.forall_mem_cons.1 hlater
      obtain ⟨word, next, rfl⟩ := List.exists_cons_of_ne_nil hne
      obtain ⟨column', heq⟩ := exists_breaks_append_eq hline
      rw [List.flatten_cons, heq, List.cons_append]
      calc breaks indent width column' (word :: (next ++ later.flatten))
          ≤ breaks indent width (indent + word.length) (next ++ later.flatten) + 1 := breaks_cons_le word _
        _ ≤ later.length + 1 := Nat.succ_le_succ (ih ((fits_cons_iff word next).1 hfits) hrest)

variable (indent width)

theorem length_lines_cons (word : Text.Word) (words : List Text.Word) :
    (lines indent width (word :: words)).length = breaks indent width word.length words + 1 := rfl

theorem length_lines_le_of_cut {words : List Text.Word} (hwords : words ≠ []) {cut : List Line}
    (h : Cut indent width words cut) : (lines indent width words).length ≤ cut.length := by
  obtain ⟨hflatten, hne, hfits⟩ := h
  cases cut with
  | nil => exact absurd hflatten.symm hwords
  | cons line later =>
      obtain ⟨hline, hlater⟩ := List.forall_mem_cons.1 hne
      obtain ⟨hfitsLine, hfitsLater⟩ := List.forall_mem_cons.1 hfits
      obtain ⟨word, line, rfl⟩ := List.exists_cons_of_ne_nil hline
      rw [fits_cons_iff, Nat.zero_add] at hfitsLine
      rw [← hflatten, List.flatten_cons, List.cons_append, length_lines_cons, List.length_cons]
      refine Nat.succ_le_succ (breaks_append_le hfitsLine fun next hnext => ⟨hlater next hnext, ?_⟩)
      exact hfitsLater ⟨indent, next⟩ (List.mem_map_of_mem hnext)

/-- The words of a cut need not be taken greedily, but a line must not go past the width. -/
example :
    Cut 0 40 (Text.words "aaaaaaaaaaaaaaaaaaaa bbbbbbbbbbbbbbb cc ddd".toList)
        [["aaaaaaaaaaaaaaaaaaaa".toList], ["bbbbbbbbbbbbbbb".toList, "cc".toList, "ddd".toList]] ∧
      ¬ Cut 0 40 (Text.words "aaaaaaaaaaaaaaaaaaaa bbbbbbbbbbbbbbb cc ddd".toList)
        [["aaaaaaaaaaaaaaaaaaaa".toList, "bbbbbbbbbbbbbbb".toList, "cc".toList, "ddd".toList]] := by
  decide

end greedy

/-! ### Counting the written lines -/

theorem count_newline_flatMap {ps : List Placed} (h : ∀ p ∈ ps, '\n' ∉ p.text) :
    (ps.flatMap fun p => p.text ++ ['\n']).count '\n' = ps.length := by
  induction ps with
  | nil => rfl
  | cons p ps ih =>
      obtain ⟨hp, hps⟩ := List.forall_mem_cons.1 h
      rw [List.flatMap_cons, List.count_append, List.count_append, List.count_eq_zero_of_not_mem hp, ih hps]
      simp [Nat.add_comm]

theorem count_newline_wrap (message : String) (columns : Nat) :
    (wrap message columns).toList.count '\n' =
      (lines (indent message.toList) (width columns) (Text.words message.toList)).length := by
  rw [toList_wrap, count_newline_flatMap fun p hp => Placed.newline_not_mem_text (isWord_of_mem_placed_lines hp),
    ← List.length_map Placed.line, map_line_placed]

/-- **Greedy filling is optimal.**  The number of lines that are written of a message with a word in it is the least one of
a cut of its words. -/
theorem fewest_lines_of_wrap (message : String) (columns : Nat) (h : Text.words message.toList ≠ []) :
    IsLeast {n | ∃ cut, Cut (indent message.toList) (width columns) (Text.words message.toList) cut ∧ cut.length = n}
      ((wrap message columns).toList.count '\n') := by
  rw [count_newline_wrap]
  refine ⟨⟨_, cut_lines _ _ h, rfl⟩, ?_⟩
  rintro n ⟨cut, hcut, rfl⟩
  exact length_lines_le_of_cut _ _ h hcut

/-- Here the colon is past the width.  The word after it still goes on the first line, and each of the others takes a line
of its own. -/
theorem fewest_lines_of_far_colon :
    let message := "aaaaaaaaaaaaaaaaaaaa bbbbbbbbbbbbbbbbbbbb cccc: dd ee ff"
    indent message.toList = 48 ∧
      IsLeast {n | ∃ cut, Cut 48 (width 42) (Text.words message.toList) cut ∧ cut.length = n} 3 := by
  intro message
  have hindent : indent message.toList = 48 := by decide
  have hcount : (wrap message 42).toList.count '\n' = 3 := by
    rw [count_newline_wrap, hindent]
    decide
  have hleast := fewest_lines_of_wrap message 42 (by decide)
  rw [hindent, hcount] at hleast
  exact ⟨hindent, hleast⟩

end Fill

end Diagnostics
