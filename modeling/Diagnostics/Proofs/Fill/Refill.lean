import Diagnostics.Proofs.Fill.Lines

/-! # Filled messages: filling again, and alignment

Filling a message for one screen and then for another one gives what filling it for the second one alone gives, and the
later lines start two columns past the first colon, counted in the message as it is given.

What is written of a message depends on its words and its indent only (`wrap_congr`).  The words are kept by filling
(`words_wrap`).  The indent is kept as well if the blanks in front of the first colon stand one by one behind other
characters (`TidyLead`), by two facts.

* **Collapsing** the blanks leaves of the text in front of the colon what `kept` says (`exists_collapsed_append`), and
  that is as long as the text exactly if the text is tidy (`length_kept_eq_iff`).
* **No break** comes before the colon, since the indent lies behind it and a line that has not reached the indent is never
  broken (`exists_text_eq`).

In what is written the colon may stand further to the left than in what is given, for filling drops blanks in front of it
as it does everywhere.

* **Starts** (`StartsAt`).  A line starts at one column at most (`StartsAt.unique`), and every later line starts at the
  indent (`startsAt_indent`).
* **The written colon.**  It stands on the first line, behind what `kept` says of the text in front of it
  (`exists_toList_wrap_eq`).  So the later lines line up with the written text if and only if that text is tidy, or if
  there are none (`starts_of_later_lines`). -/

namespace Diagnostics

/-! ## Filling a filled message again -/

namespace Fill

/-! ### Texts with collapsed blanks -/

/-- The words of a text, one space apart. -/
def collapsed (s : List Char) : List Char := lineText (Text.words s)

/-- Whether the blanks of a text stand one by one behind other characters. -/
def Tidy (s : List Char) : Prop :=
  (∀ c ∈ s.head?, Text.isBlank c = false) ∧ s.IsChain fun c d => Text.isBlank c = false ∨ Text.isBlank d = false

instance : DecidablePred Tidy := fun s =>
  have : Decidable (∀ c ∈ s.head?, Text.isBlank c = false) := Option.decidableForallMem s.head?
  inferInstanceAs (Decidable (_ ∧ _))

/-- Whether the text in front of the first colon of a message is tidy, if there is a colon. -/
def TidyLead (message : List Char) : Prop := ':' ∈ message → Tidy (message.takeWhile (· ≠ ':'))

instance : DecidablePred TidyLead := fun _ => inferInstanceAs (Decidable (_ → _))

/-- A character, with a space for any blank. -/
def spaced (c : Char) : Char := if Text.isBlank c then ' ' else c

/-- What collapsing keeps of the text in front of a word: a space for each blank that stands right behind another
character, and every character that is no blank.  The flag says whether such a character stands in front of the text. -/
def kept : (behind : Bool) → List Char → List Char
  | _, [] => []
  | behind, c :: s => if Text.isBlank c && !behind then kept false s else spaced c :: kept (!Text.isBlank c) s

theorem lineText_cons_cons_word (c : Char) (word : Text.Word) (line : Line) :
    lineText ((c :: word) :: line) = c :: lineText (word :: line) := by
  cases line with
  | nil => simp [lineText]
  | cons next line => rw [lineText_cons_cons, lineText_cons_cons, List.cons_append]

section collapsed
variable {c d : Char} (hc : Text.isBlank c = false) (hd : Text.isBlank d = false)

include hd in
theorem exists_collapsed_cons (s : List Char) : ∃ rest, collapsed (d :: s) = d :: rest := by
  obtain ⟨word, later, hwords, -⟩ := Text.exists_words_cons hd s
  exact ⟨lineText (word :: later), by rw [collapsed, hwords, lineText_cons_cons_word]⟩

include hc

theorem collapsed_cons_blank_cons {b : Char} (hb : Text.isBlank b = true) {s : List Char} (hs : collapsed s ≠ []) :
    collapsed (c :: b :: s) = c :: ' ' :: collapsed s := by
  have hword : Text.IsWord [c] := ⟨List.cons_ne_nil c [], by simpa using hc⟩
  have hsplit : Text.words (c :: b :: s) = [c] :: Text.words s := by
    rw [← List.singleton_append, Text.words_append_cons [c] _ hb, Text.words_of_isWord hword, List.singleton_append]
  obtain ⟨word, later, hwords⟩ : ∃ word later, Text.words s = word :: later :=
    List.exists_cons_of_ne_nil fun hnil => hs (by rw [collapsed, hnil, lineText, List.intercalate_nil])
  rw [collapsed, collapsed, hsplit, hwords, lineText_cons_cons, List.singleton_append]

include hd

theorem collapsed_cons_cons (s : List Char) : collapsed (c :: d :: s) = c :: collapsed (d :: s) := by
  obtain ⟨word, later, hwords, hjoin⟩ := Text.exists_words_cons hd s
  rw [collapsed, collapsed, hwords, hjoin c hc, lineText_cons_cons_word]

end collapsed

/-! ### What stands in front of a word -/

section kept
variable {c : Char} (s : List Char)

theorem kept_cons_of_not_blank (hc : Text.isBlank c = false) (behind : Bool) :
    kept behind (c :: s) = c :: kept true s := by
  simp [kept, spaced, hc]

theorem kept_true_cons_of_blank (hc : Text.isBlank c = true) : kept true (c :: s) = ' ' :: kept false s := by
  simp [kept, spaced, hc]

theorem kept_false_cons_of_blank (hc : Text.isBlank c = true) : kept false (c :: s) = kept false s := by
  simp [kept, hc]

end kept

theorem mem_kept {c : Char} {behind : Bool} {s : List Char} (h : c ∈ kept behind s) :
    c = ' ' ∨ Text.isBlank c = false ∧ c ∈ s := by
  induction s generalizing behind with
  | nil => exact absurd h List.not_mem_nil
  | cons d s ih =>
      cases hd : Text.isBlank d with
      | false =>
          rw [kept_cons_of_not_blank s hd] at h
          rcases List.mem_cons.1 h with rfl | h
          · exact .inr ⟨hd, List.mem_cons_self⟩
          · exact (ih h).imp_right fun ⟨hc, hmem⟩ => ⟨hc, List.mem_cons_of_mem d hmem⟩
      | true =>
          have hlater : c = ' ' ∨ c ∈ kept false s := by
            cases behind with
            | false => exact .inr (by rwa [kept_false_cons_of_blank s hd] at h)
            | true => exact List.mem_cons.1 (by rwa [kept_true_cons_of_blank s hd] at h)
          rcases hlater with rfl | hlater
          · exact .inl rfl
          · exact (ih hlater).imp_right fun ⟨hc, hmem⟩ => ⟨hc, List.mem_cons_of_mem d hmem⟩

theorem colon_not_mem_kept {behind : Bool} {s : List Char} (h : ':' ∉ s) : ':' ∉ kept behind s := by
  intro hmem
  rcases mem_kept hmem with hspace | ⟨-, hmem⟩
  · exact absurd hspace (by decide)
  · exact h hmem

theorem length_kept_le (behind : Bool) (s : List Char) : (kept behind s).length ≤ s.length := by
  fun_induction kept behind s with
  | case1 => exact Nat.le_refl 0
  | case2 behind c s hc ih => exact Nat.le_succ_of_le ih
  | case3 behind c s hc ih => exact Nat.succ_le_succ ih

/-- Nothing is dropped exactly from a tidy text, or from one that is tidy behind a character that is no blank. -/
theorem length_kept_eq_iff (s : List Char) :
    ((kept false s).length = s.length ↔ Tidy s) ∧
      ((kept true s).length = s.length ↔ s.IsChain fun c d => Text.isBlank c = false ∨ Text.isBlank d = false) := by
  induction s with
  | nil => simp [kept, Tidy]
  | cons c s ih =>
      obtain ⟨hfalse, htrue⟩ := ih
      cases hc : Text.isBlank c with
      | false =>
          have hchain : (c :: s).IsChain (fun c d => Text.isBlank c = false ∨ Text.isBlank d = false) ↔
              s.IsChain fun c d => Text.isBlank c = false ∨ Text.isBlank d = false := by
            simp [List.isChain_cons, hc]
          rw [kept_cons_of_not_blank s hc, kept_cons_of_not_blank s hc, Tidy, hchain]
          simp [htrue, hc]
      | true =>
          have hle := length_kept_le false s
          have hshort : (kept false s).length ≠ (c :: s).length := by
            rw [List.length_cons]
            omega
          have hnot : ¬ Tidy (c :: s) := fun h => absurd (h.1 c rfl) (by simp [hc])
          rw [kept_true_cons_of_blank s hc, kept_false_cons_of_blank s hc, List.isChain_cons]
          exact ⟨iff_of_false hshort hnot, by simp [hfalse, Tidy, hc]⟩

section lead
variable {d : Char} (hd : Text.isBlank d = false) (body : List Char)
include hd

/-- In front of a character that is no blank, collapsing keeps what `kept` says, whether or not another such character
stands in front of the text. -/
theorem exists_collapsed_append (lead : List Char) :
    (∃ rest, collapsed (lead ++ d :: body) = kept false lead ++ d :: rest) ∧
      ∀ c, Text.isBlank c = false →
        ∃ rest, collapsed (c :: (lead ++ d :: body)) = c :: (kept true lead ++ d :: rest) := by
  induction lead with
  | nil =>
      obtain ⟨rest, hrest⟩ := exists_collapsed_cons hd body
      exact ⟨⟨rest, hrest⟩, fun c hc => ⟨rest, by rw [List.nil_append, collapsed_cons_cons hc hd, hrest]; rfl⟩⟩
  | cons e lead ih =>
      obtain ⟨⟨rest, hrest⟩, hbehind⟩ := ih
      rw [List.cons_append]
      cases he : Text.isBlank e with
      | true =>
          have hne : collapsed (lead ++ d :: body) ≠ [] := by simp [hrest]
          refine ⟨⟨rest, ?_⟩, fun c hc => ⟨rest, ?_⟩⟩
          · rw [kept_false_cons_of_blank lead he, ← hrest, collapsed, Text.words_cons _ he, collapsed]
          · rw [kept_true_cons_of_blank lead he, collapsed_cons_blank_cons hc he hne, hrest, List.cons_append]
      | false =>
          obtain ⟨rest, hrest⟩ := hbehind e he
          refine ⟨⟨rest, ?_⟩, fun c hc => ⟨rest, ?_⟩⟩
          · rw [kept_cons_of_not_blank lead he, hrest, List.cons_append]
          · rw [kept_cons_of_not_blank lead he, collapsed_cons_cons hc he, hrest, List.cons_append]

end lead

/-! ### The first line -/

theorem lineText_isPrefix_append (line rest : Line) : lineText line <+: lineText (line ++ rest) := by
  induction line with
  | nil => exact List.nil_prefix
  | cons word line ih =>
      cases line with
      | nil =>
          cases rest with
          | nil => exact List.prefix_refl _
          | cons next rest =>
              rw [List.singleton_append, lineText_cons_cons]
              simp [lineText]
      | cons next line =>
          rw [List.cons_append, List.cons_append, lineText_cons_cons, lineText_cons_cons]
          exact (List.prefix_append_right_inj word).2 (List.cons_prefix_cons.2 ⟨rfl, ih⟩)

/-- The first line holds all words or has reached the indent. -/
theorem exists_lines_eq_cons (indent width : Nat) (words : List Text.Word) :
    ∃ line later, lines indent width words = line :: later ∧ lineText line <+: lineText words ∧
      (line = words ∨ indent ≤ (lineText line).length) := by
  have hflatten := flatten_lines indent width words
  have hforces := isChain_forces_lines indent width words
  cases hlines : lines indent width words with
  | nil => cases words <;> simp [lines] at hlines
  | cons line later =>
      rw [hlines] at hflatten hforces
      refine ⟨line, later, rfl, ?_, ?_⟩
      · rw [← hflatten]
        exact lineText_isPrefix_append line later.flatten
      · cases later with
        | nil => exact .inl (by simpa using hflatten)
        | cons next later =>
            right
            obtain ⟨⟨hreach, -⟩, -⟩ := List.isChain_cons_cons.1 hforces
            simpa [Placed.reach, Placed.text] using hreach

/-- No break comes in front of a character that stands to the left of the indent. -/
theorem exists_text_eq {indent : Nat} (width : Nat) {words : List Text.Word} {lead rest : List Char} {c : Char}
    (h : lineText words = lead ++ c :: rest) (hindent : lead.length < indent) :
    ∃ rest', text indent (lines indent width words) = lead ++ c :: rest' := by
  obtain ⟨line, later, hlines, hprefix, hall⟩ := exists_lines_eq_cons indent width words
  have hlead : lead ++ [c] <+: lineText line := by
    refine List.prefix_of_prefix_length_le ⟨rest, ?_⟩ hprefix ?_
    · rw [h, List.append_assoc, List.singleton_append]
    · rcases hall with rfl | hall
      · simp [h]
      · rw [List.length_append, List.length_singleton]
        omega
  obtain ⟨after, hafter⟩ := hlead
  rw [hlines, text, ← hafter, List.append_assoc, List.append_assoc, List.singleton_append]
  exact ⟨_, rfl⟩

/-! ### Filling again -/

theorem indent_append {lead : List Char} (h : ':' ∉ lead) (body : List Char) :
    indent (lead ++ ':' :: body) = lead.length + 2 := by
  rw [indent, Text.cutFirst?_append h]

theorem words_wrap (message : String) (columns : Nat) :
    Text.words (wrap message columns).toList = Text.words message.toList := by
  rw [toList_wrap, words_flatMap_text fun _ hp => isWord_of_mem_placed_lines hp, map_line_placed, flatten_lines]

/-- Filling writes spaces and newlines besides the characters of a message. -/
theorem mem_of_mem_wrap {message : String} {columns : Nat} {c : Char} (h : c ∈ (wrap message columns).toList)
    (hc : Text.isBlank c = false) : c ∈ message.toList := by
  have hwords : c ∈ (Text.words (wrap message columns).toList).flatten := by
    rw [Text.flatten_words, List.mem_filter, hc]
    exact ⟨h, rfl⟩
  rw [words_wrap, Text.flatten_words] at hwords
  exact List.mem_of_mem_filter hwords

theorem wrap_congr {message message' : String} (hindent : indent message.toList = indent message'.toList)
    (hwords : Text.words message.toList = Text.words message'.toList) (columns : Nat) :
    wrap message columns = wrap message' columns := by
  simp only [wrap, hindent, hwords]

theorem exists_lead_of_mem {s : List Char} (h : ':' ∈ s) :
    ∃ lead body, s = lead ++ ':' :: body ∧ ':' ∉ lead ∧ s.takeWhile (· ≠ ':') = lead := by
  obtain ⟨lead, body, rfl, hlead⟩ := List.eq_append_cons_of_mem h
  refine ⟨lead, body, rfl, hlead, ?_⟩
  rw [List.takeWhile_append_of_pos fun c hc => decide_eq_true (ne_of_mem_of_not_mem hc hlead)]
  simp

/-- Filling drops blanks in front of the first colon and breaks no line there. -/
theorem exists_toList_wrap_eq {message : String} {lead body : List Char} (h : message.toList = lead ++ ':' :: body)
    (hlead : ':' ∉ lead) (columns : Nat) :
    ∃ rest, (wrap message columns).toList = kept false lead ++ ':' :: rest := by
  obtain ⟨⟨rest, hcollapsed⟩, -⟩ := exists_collapsed_append (d := ':') (by decide) body lead
  rw [← h] at hcollapsed
  have hlength : (kept false lead).length < indent message.toList := by
    have hle := length_kept_le false lead
    rw [h, indent_append hlead]
    omega
  rw [wrap, String.toList_ofList]
  exact exists_text_eq (width columns) hcollapsed hlength

theorem indent_wrap {message : String} (h : TidyLead message.toList) (columns : Nat) :
    indent (wrap message columns).toList = indent message.toList := by
  by_cases hcolon : ':' ∈ message.toList
  · have htidy := h hcolon
    obtain ⟨lead, body, hs, hlead, htake⟩ := exists_lead_of_mem hcolon
    obtain ⟨rest, hwrap⟩ := exists_toList_wrap_eq hs hlead columns
    rw [htake] at htidy
    rw [hwrap, hs, indent_append (colon_not_mem_kept hlead), indent_append hlead, (length_kept_eq_iff lead).1.2 htidy]
  · have hcolon' : ':' ∉ (wrap message columns).toList := fun hmem => hcolon (mem_of_mem_wrap hmem (by decide))
    rw [indent_eq, indent_eq, if_neg hcolon, if_neg hcolon']

/-- **Filling again loses nothing.**  If the blanks in front of the first colon of a message stand one by one behind other
characters, then filling it for two screens one after the other is filling it for the second one.  In particular filling
such a message twice for one screen is filling it once. -/
theorem wrap_wrap (message : String) (h : TidyLead message.toList) (columns columns' : Nat) :
    wrap (wrap message columns) columns' = wrap message columns' :=
  wrap_congr (indent_wrap h columns) (words_wrap message columns) columns'

/-- A tab stands in front of the colon, and on the first screen the message takes two lines. -/
theorem wrap_wrap_of_two_lines :
    let message := "a\tb.ispc:3:1: Error:  one two three four five"
    TidyLead message.toList ∧ wrap message 40 = "a b.ispc:3:1: Error: one two three four\n          five\n" ∧
      wrap (wrap message 40) 80 = wrap message 80 := by
  intro message
  have htidy : TidyLead message.toList := by decide
  exact ⟨htidy, by decide, wrap_wrap message htidy 40 80⟩

/-- Two blanks in a row in front of the colon collapse, and the indent with them. -/
example : indent "a  b: c".toList = 6 ∧ indent (wrap "a  b: c" 80).toList = 5 := by decide

/-! ## Where the later lines of a message start -/

/-! ### Lines of a text -/

/-- The lines of a text, without the newlines that end them. -/
def endedLines (s : List Char) : List (List Char) := (s.splitOn '\n').dropLast

/-- Whether a line starts with exactly `column` spaces and goes on with another character. -/
def StartsAt (column : Nat) (line : List Char) : Prop :=
  ∃ c rest, line = List.replicate column ' ' ++ c :: rest ∧ c ≠ ' '

theorem StartsAt.length_takeWhile {column : Nat} {line : List Char} (h : StartsAt column line) :
    (line.takeWhile (· = ' ')).length = column := by
  obtain ⟨c, rest, rfl, hc⟩ := h
  rw [List.takeWhile_append_of_pos fun d hd => decide_eq_true (List.eq_of_mem_replicate hd)]
  simp [hc]

theorem StartsAt.unique {column column' : Nat} {line : List Char} (h : StartsAt column line)
    (h' : StartsAt column' line) : column = column' := by
  rw [← h.length_takeWhile, h'.length_takeWhile]

theorem endedLines_flatMap {texts : List (List Char)} (h : ∀ t ∈ texts, '\n' ∉ t) :
    endedLines (texts.flatMap fun t => t ++ ['\n']) = texts := by
  have hsplit : (texts.flatMap fun t => t ++ ['\n']).splitOn '\n' = texts ++ [[]] := by
    induction texts with
    | nil => rw [List.flatMap_nil, List.splitOn_nil, List.nil_append]
    | cons t texts ih =>
        obtain ⟨ht, htexts⟩ := List.forall_mem_cons.1 h
        rw [List.flatMap_cons, List.append_assoc, List.singleton_append, List.splitOn_append_cons_self, ih htexts,
          List.splitOn_eq_singleton ht, List.singleton_append, List.cons_append]
  rw [endedLines, hsplit, List.dropLast_concat]

/-! ### Later lines -/

theorem Placed.startsAt_text {p : Placed} (hp : ∀ word ∈ p.line, Text.IsWord word) (hline : p.line ≠ []) :
    StartsAt p.start p.text := by
  obtain ⟨word, later, hword⟩ := List.exists_cons_of_ne_nil hline
  obtain ⟨hne, hblank⟩ := hp word (by rw [hword]; exact List.mem_cons_self)
  obtain ⟨c, rest, rfl⟩ := List.exists_cons_of_ne_nil hne
  refine ⟨c, lineText (rest :: later), ?_, ?_⟩
  · rw [Placed.text, hword, lineText_cons_cons_word]
  · rintro rfl
    exact absurd (hblank ' ' List.mem_cons_self) (by simp [Text.isBlank_space])

theorem endedLines_wrap (message : String) (columns : Nat) :
    let lines := lines (indent message.toList) (width columns) (Text.words message.toList)
    endedLines (wrap message columns).toList = (placed (indent message.toList) lines).map Placed.text := by
  intro lines
  rw [toList_wrap, ← List.flatMap_map Placed.text fun t => t ++ ['\n'], endedLines_flatMap]
  intro t ht
  obtain ⟨p, hp, rfl⟩ := List.mem_map.1 ht
  exact Placed.newline_not_mem_text (isWord_of_mem_placed_lines hp)

/-- Every line after the first starts at the indent and has a word. -/
theorem start_eq_of_mem_tail {indent width : Nat} {words : List Text.Word} {p : Placed}
    (hp : p ∈ (placed indent (lines indent width words)).tail) : p.start = indent ∧ p.line ≠ [] := by
  cases words with
  | nil => exact absurd hp List.not_mem_nil
  | cons word words =>
      have hcut := cut_lines indent width (List.cons_ne_nil word words)
      refine ⟨?_, hcut.ne_nil _ (line_mem_of_mem_placed (List.mem_of_mem_tail hp))⟩
      obtain ⟨line, -, rfl⟩ := List.mem_map.1 hp
      rfl

theorem startsAt_indent {message : String} {columns : Nat} {line : List Char}
    (h : line ∈ (endedLines (wrap message columns).toList).tail) : StartsAt (indent message.toList) line := by
  rw [endedLines_wrap, ← List.map_tail] at h
  obtain ⟨p, hp, rfl⟩ := List.mem_map.1 h
  obtain ⟨hstart, hline⟩ := start_eq_of_mem_tail hp
  rw [← hstart]
  exact Placed.startsAt_text (isWord_of_mem_placed_lines (List.mem_of_mem_tail hp)) hline

/-! ### The written colon -/

theorem newline_not_mem_kept {behind : Bool} {s : List Char} : '\n' ∉ kept behind s := by
  intro hmem
  rcases mem_kept hmem with hspace | ⟨hblank, -⟩
  · exact absurd hspace (by decide)
  · exact absurd hblank (by simp [Text.isBlank_newline])

/-- The columns of the first colon in a message and in what is written of it. -/
theorem columns_of_colon {message : String} (h : ':' ∈ message.toList) (columns : Nat) :
    let lead := message.toList.takeWhile (· ≠ ':')
    message.toList.idxOf ':' = lead.length ∧
      ∃ rest, (wrap message columns).toList = kept false lead ++ ':' :: rest ∧
        (wrap message columns).toList.idxOf ':' = (kept false lead).length := by
  obtain ⟨lead, body, hs, hlead, htake⟩ := exists_lead_of_mem h
  obtain ⟨rest, hwritten⟩ := exists_toList_wrap_eq hs hlead columns
  rw [htake]
  refine ⟨?_, rest, hwritten, ?_⟩
  · rw [hs, idxOf_append_colon hlead]
  · rw [hwritten, idxOf_append_colon (colon_not_mem_kept hlead)]

/-- **Where the later lines start.**  In what is written of a message with a colon, the first colon stands on the first
line, behind the text in front of it with the dropped blanks left out.  Each later line starts two columns past the column
that this colon has in the message.  That is two columns past the written colon exactly if no blank is dropped in front of
it, that is, if the blanks there stand one by one behind other characters. -/
theorem starts_of_later_lines (message : String) (hcolon : ':' ∈ message.toList) (columns : Nat) :
    let s := message.toList
    let written := (wrap message columns).toList
    let later := (endedLines written).tail
    let lead := s.takeWhile (· ≠ ':')
    let given := s.idxOf ':'
    let column := written.idxOf ':'
    (':' ∈ written ∧ written.take column = kept false lead ∧ '\n' ∉ written.take column) ∧
      (∀ line ∈ later, StartsAt (given + 2) line) ∧ column ≤ given ∧ (column = given ↔ Tidy lead) ∧
      ((∀ line ∈ later, StartsAt (column + 2) line) ↔ Tidy lead ∨ later = []) := by
  intro s written later lead given column
  obtain ⟨hgiven, rest, hwritten, hcolumn⟩ :
      given = lead.length ∧ ∃ rest, written = kept false lead ++ ':' :: rest ∧ column = (kept false lead).length :=
    columns_of_colon hcolon columns
  have htake : written.take column = kept false lead := by
    rw [hcolumn, hwritten, List.take_left]
  have hstarts : ∀ line ∈ later, StartsAt (given + 2) line := by
    intro line hline
    have hindent : indent s = given + 2 := by rw [indent_eq, if_pos hcolon]
    rw [← hindent]
    exact startsAt_indent hline
  have htidy : column = given ↔ Tidy lead := by
    rw [hcolumn, hgiven]
    exact (length_kept_eq_iff lead).1
  refine ⟨⟨?_, htake, htake ▸ newline_not_mem_kept⟩, hstarts, ?_, htidy, ?_⟩
  · rw [hwritten]
    exact List.mem_append_right _ List.mem_cons_self
  · rw [hcolumn, hgiven]
    exact length_kept_le false lead
  · constructor
    · intro hall
      refine or_iff_not_imp_right.2 fun hne => ?_
      obtain ⟨line, hline⟩ := List.exists_mem_of_ne_nil later hne
      have heq := (hall line hline).unique (hstarts line hline)
      exact htidy.1 (Nat.add_right_cancel heq)
    · rintro (h | hnil)
      · rw [htidy.2 h]
        exact hstarts
      · simp [hnil]

/-- Two blanks in front of the message are dropped, so the later line stands two columns too far to the right. -/
theorem starts_of_leading_blanks :
    let message := "  Error: one two three four five six seven eight nine"
    ':' ∈ message.toList ∧ wrap message 40 = "Error: one two three four five six seven\n         eight nine\n" ∧
      (message.toList.idxOf ':' = 7 ∧ (wrap message 40).toList.idxOf ':' = 5) ∧
      ∀ line ∈ (endedLines (wrap message 40).toList).tail, StartsAt 9 line := by
  intro message
  have hcolon : ':' ∈ message.toList := by decide
  have hgiven : message.toList.idxOf ':' = 7 := by decide
  have hwrap : wrap message 40 = "Error: one two three four five six seven\n         eight nine\n" := by decide
  obtain ⟨-, hstarts, -⟩ := starts_of_later_lines message hcolon 40
  rw [hgiven] at hstarts
  refine ⟨hcolon, hwrap, ⟨hgiven, ?_⟩, hstarts⟩
  rw [hwrap]
  decide

/-- The name of a file has two blanks in a row, and the later line does not line up with the written message. -/
theorem starts_of_two_blanks :
    let message := "my  shader.ispc:3:1: Error: one two three four five six seven"
    let written := (wrap message 40).toList
    ':' ∈ message.toList ∧
      wrap message 40 = "my shader.ispc:3:1: Error: one two three\n                 four five six seven\n" ∧
      ¬ ∀ line ∈ (endedLines written).tail, StartsAt (written.idxOf ':' + 2) line := by
  intro message written
  have hwrap : wrap message 40 = "my shader.ispc:3:1: Error: one two three\n                 four five six seven\n" := by
    decide
  refine ⟨by decide, hwrap, ?_⟩
  have hlater : (endedLines written).tail = ["                 four five six seven".toList] := by
    rw [show written = _ from congrArg String.toList hwrap]
    decide
  have hcolumn : written.idxOf ':' = 14 := by
    rw [show written = _ from congrArg String.toList hwrap]
    decide
  have hstart : StartsAt 17 "                 four five six seven".toList :=
    ⟨'f', "our five six seven".toList, by decide, by decide⟩
  rw [hlater, hcolumn, List.forall_mem_singleton]
  intro hline
  exact absurd (hline.unique hstart) (by decide)

end Fill

end Diagnostics
