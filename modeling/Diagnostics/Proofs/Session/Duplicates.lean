import Mathlib.Data.List.Chain
import Diagnostics.Proofs.Session.Accounts
import Diagnostics.Proofs.Text

/-! # Duplicates

A session compares reports by their texts alone.  The text of a report is one flat string, `file:line:column: Label:
message` or `Label: message`, in which nothing is quoted.  It still tells kind, start and message, provided that the name
of the file holds no colon with a space behind it.

* **The first mark.**  A *mark* is a colon with a space behind it.  What stands before the first mark of a text is
  determined by the text (`append_mark_inj`).
* **No early mark.**  A label holds no mark, and neither does `file:line:column` unless the name of the file does: a
  digit follows each of its last two colons (`not_mark_startText`).
* **Which form.**  A start holds a colon and a label none, so the part before the first mark also tells whether the
  position is known.

The message may hold marks, since nothing is read behind it.  So texts tell reports apart (`text_eq_text_iff`), and no
other report is taken for a duplicate (`duplicate_iff_same`). -/

namespace Diagnostics

/-! ## What the text of a report tells -/

namespace Text

/-! ### Marks -/

theorem not_mark_iff {s : List Char} :
    ¬ [':', ' '] <:+: s ↔ s.IsChain fun c d => ¬ (c = ':' ∧ d = ' ') := by
  rw [List.isChain_iff_forall_rel_of_append_cons_cons]
  constructor
  · rintro h c d u v rfl ⟨rfl, rfl⟩
    exact h ⟨u, v, by simp⟩
  · rintro h ⟨u, v, hs⟩
    exact @h ':' ' ' u v (by simpa using hs.symm) ⟨rfl, rfl⟩

theorem not_mark_of_not_mem {s : List Char} (h : ':' ∉ s) : ¬ [':', ' '] <:+: s :=
  fun hs => h (hs.subset List.mem_cons_self)

/-- If a mark stands both behind `u` and behind `u ++ w`, and `u ++ w` holds none, then they are one. -/
theorem eq_nil_of_mark_append {u w s t : List Char} (hu : ¬ [':', ' '] <:+: u ++ w)
    (h : ':' :: ' ' :: s = w ++ ':' :: ' ' :: t) : w = [] := by
  match w, h with
  | [], _ => rfl
  | [c], h =>
      have : ' ' = ':' := (List.cons.inj (List.cons.inj h).2).1
      exact absurd this (by decide)
  | c :: d :: w, h =>
      have hc : ':' = c := (List.cons.inj h).1
      have hd : ' ' = d := (List.cons.inj (List.cons.inj h).2).1
      exact absurd ⟨u, w, by simp [← hc, ← hd]⟩ hu

theorem append_mark_inj {u v s t : List Char} (hu : ¬ [':', ' '] <:+: u) (hv : ¬ [':', ' '] <:+: v)
    (h : u ++ ':' :: ' ' :: s = v ++ ':' :: ' ' :: t) : u = v ∧ s = t := by
  rcases List.append_eq_append_iff.1 h with ⟨w, rfl, hw⟩ | ⟨w, rfl, hw⟩
  · obtain rfl := eq_nil_of_mark_append hv hw
    simpa using hw
  · obtain rfl := eq_nil_of_mark_append hu hw
    simpa using hw.symm

end Text

/-! ### Starts and labels -/

namespace Position

theorem toList_startText (p : Position) :
    p.startText.toList =
      (p.file.toList ++ ':' :: Numeral.write p.start.line.toNat) ++ ':' :: Numeral.write p.start.column.toNat := by
  simp [startText, Place.chars]

theorem startText_inj {p q : Position} (h : p.startText = q.startText) : p.file = q.file ∧ p.start = q.start := by
  have hl (n : Nat) : ':' ∉ Numeral.write n := (Numeral.spells_write n).not_mem (by decide) (by decide)
  have hs := congrArg String.toList h
  rw [toList_startText, toList_startText] at hs
  obtain ⟨hlead, hcolumn⟩ := Text.append_cons_inj_of_not_mem (hl _) (hl _) hs
  obtain ⟨hfile, hline⟩ := Text.append_cons_inj_of_not_mem (hl _) (hl _) hlead
  refine ⟨String.toList_inj.1 hfile, ?_⟩
  have h1 := Numeral.write_toNat_inj hline
  have h2 := Numeral.write_toNat_inj hcolumn
  cases hp : p.start
  cases hq : q.start
  simp_all

/-- A start holds a mark only inside the name of its file: digits follow its other colons. -/
theorem not_mark_startText {p : Position} (h : ¬ [':', ' '] <:+: p.file.toList) :
    ¬ [':', ' '] <:+: p.startText.toList := by
  have hw (n : Nat) : (Numeral.write n).IsChain fun c d => ¬ (c = ':' ∧ d = ' ') :=
    Text.not_mark_iff.1 (Text.not_mark_of_not_mem ((Numeral.spells_write n).not_mem (by decide) (by decide)))
  have hcons (n : Nat) : (':' :: Numeral.write n).IsChain fun c d => ¬ (c = ':' ∧ d = ' ') := by
    refine List.isChain_cons.2 ⟨?_, hw n⟩
    rintro d hd ⟨-, rfl⟩
    exact (Numeral.spells_write n).not_mem (by decide) (by decide) (List.mem_of_mem_head? hd)
  rw [toList_startText, Text.not_mark_iff, List.isChain_append, List.isChain_append]
  refine ⟨⟨Text.not_mark_iff.1 h, hcons _, ?_⟩, hcons _, ?_⟩
  · rintro c - d hd ⟨-, rfl⟩
    simp at hd
  · rintro c - d hd ⟨-, rfl⟩
    simp at hd

end Position

theorem Kind.not_mem_label (kind : Kind) : ':' ∉ kind.label.toList := by cases kind <;> decide

theorem Kind.label_inj {k l : Kind} (h : k.label = l.label) : k = l := by
  cases k <;> cases l <;> first | rfl | exact absurd h (by decide)

/-! ### Whole texts -/

namespace Position

/-- Whether a position, if known, is in a file whose name holds no mark. -/
def NoMark (p : Position) : Prop := p.Known → ¬ [':', ' '] <:+: p.file.toList

instance : DecidablePred NoMark := fun p => inferInstanceAs (Decidable (p.Known → _))

/-- Whether two positions are unknown or start at the same place of the same file. -/
def SameStart (p q : Position) : Prop :=
  ¬ p.Known ∧ ¬ q.Known ∨ p.Known ∧ q.Known ∧ p.file = q.file ∧ p.start = q.start

instance (p q : Position) : Decidable (p.SameStart q) := inferInstanceAs (Decidable (_ ∨ _))

end Position

namespace Report

/-- Whether two reports say the same thing, of one kind, about the same start. -/
def Same (r s : Report) : Prop := r.kind = s.kind ∧ r.message = s.message ∧ r.position.SameStart s.position

instance (r s : Report) : Decidable (r.Same s) := inferInstanceAs (Decidable (_ ∧ _))

theorem toList_body (r : Report) : r.body.toList = r.kind.label.toList ++ ':' :: ' ' :: r.message.toList := by
  simp [body]

theorem body_inj {r s : Report} (h : r.body = s.body) : r.kind = s.kind ∧ r.message = s.message := by
  have hb := congrArg String.toList h
  rw [toList_body, toList_body] at hb
  obtain ⟨hk, hm⟩ := Text.append_mark_inj (Text.not_mark_of_not_mem r.kind.not_mem_label)
    (Text.not_mark_of_not_mem s.kind.not_mem_label) hb
  exact ⟨Kind.label_inj (String.toList_inj.1 hk), String.toList_inj.1 hm⟩

theorem text_of_known {r : Report} (h : r.position.Known) :
    r.text.toList = r.position.startText.toList ++ ':' :: ' ' :: r.body.toList := by
  simp [text, Position.text, h]

theorem text_of_not_known {r : Report} (h : ¬ r.position.Known) : r.text = r.body := by simp [text, h]

/-- A report with a position and one without have different texts: only a start holds a colon before the first mark. -/
theorem text_ne_text {r s : Report} (hr : r.position.Known) (hs : ¬ s.position.Known) (hm : r.position.NoMark) :
    r.text ≠ s.text := by
  intro h
  have ht := congrArg String.toList h
  rw [text_of_known hr, text_of_not_known hs, s.toList_body] at ht
  obtain ⟨hl, -⟩ := Text.append_mark_inj (Position.not_mark_startText (hm hr))
    (Text.not_mark_of_not_mem s.kind.not_mem_label) ht
  apply s.kind.not_mem_label
  rw [← hl, Position.toList_startText]
  simp

/-- **The text of a report tells kind, message and start**, unless the name of a file holds a mark. -/
theorem text_eq_text_iff {r s : Report} (hr : r.position.NoMark) (hs : s.position.NoMark) :
    r.text = s.text ↔ r.Same s := by
  by_cases kr : r.position.Known <;> by_cases ks : s.position.Known
  · constructor
    · intro h
      have ht := congrArg String.toList h
      rw [text_of_known kr, text_of_known ks] at ht
      obtain ⟨hp, hb⟩ := Text.append_mark_inj (Position.not_mark_startText (hr kr))
        (Position.not_mark_startText (hs ks)) ht
      obtain ⟨hk, hm⟩ := body_inj (String.toList_inj.1 hb)
      exact ⟨hk, hm, .inr ⟨kr, ks, Position.startText_inj (String.toList_inj.1 hp)⟩⟩
    · rintro ⟨hk, hm, ⟨h, -⟩ | ⟨-, -, hfile, hstart⟩⟩
      · exact absurd kr h
      · simp [text, kr, ks, Position.text, Position.startText, body, hk, hm, hfile, hstart]
  · constructor
    · intro h
      exact absurd h (text_ne_text kr ks hr)
    · rintro ⟨-, -, ⟨h, -⟩ | ⟨-, h, -⟩⟩
      · exact absurd kr h
      · exact absurd h ks
  · constructor
    · intro h
      exact absurd h.symm (text_ne_text ks kr hs)
    · rintro ⟨-, -, ⟨-, h⟩ | ⟨h, -⟩⟩
      · exact absurd ks h
      · exact absurd h kr
  · rw [text_of_not_known kr, text_of_not_known ks]
    constructor
    · intro h
      obtain ⟨hk, hm⟩ := body_inj h
      exact ⟨hk, hm, .inl ⟨kr, ks⟩⟩
    · intro h
      obtain ⟨hk, hm, -⟩ := h
      simp [body, hk, hm]

/-- With a mark in the name of the file a message can imitate the rest of the text. -/
example :
    text ⟨.error, .point "Error: a" ⟨1, 1⟩, "m"⟩ = text ⟨.error, .unknown, "a:1:1: Error: m"⟩ := by
  decide

end Report

/-! ## Reports taken for duplicates -/

namespace Run

/-- **A duplicate repeats an earlier report.**  Texts of reports agree exactly if their kinds, messages and starts do,
unless a known position is in a file whose name holds a mark.  So in a run without such a position a report of an
allowed kind is a duplicate exactly if an earlier report said the same. -/
theorem duplicate_iff_same :
    (∀ r s : Report, r.position.NoMark → s.position.NoMark → (r.text = s.text ↔ r.Same s)) ∧
      ∀ (config : Config) (screen : Screen) (files : Files) (steps : List Step) (r : Report),
        (∀ s ∈ r :: Step.reports steps, s.position.NoMark) → config.allows r.kind = true →
          (((start config screen files).steps steps).outcome r = .duplicate ↔
            ∃ s ∈ Step.reports steps, s.Same r) := by
  refine ⟨fun r s hr hs => Report.text_eq_text_iff hr hs, fun config screen files steps r hm hr => ?_⟩
  have hc : ((start config screen files).steps steps).session.config = config := by simp
  have hrm : r.position.NoMark := hm r List.mem_cons_self
  have hsm : ∀ s ∈ Step.reports steps, s.position.NoMark := fun s hs => hm s (List.mem_cons_of_mem r hs)
  rw [outcome_eq_duplicate_iff, hc, mem_texts_steps, Config.mem_shownTexts]
  constructor
  · intro h
    obtain ⟨-, s, hs, -, h⟩ := h
    exact ⟨s, hs, (Report.text_eq_text_iff (hsm s hs) hrm).1 h⟩
  · intro h
    obtain ⟨s, hs, h⟩ := h
    have hk : config.allows s.kind = true := by rw [h.1, hr]
    exact ⟨hr, s, hs, hk, (Report.text_eq_text_iff (hsm s hs) hrm).2 h⟩

/-- The third report repeats the second one up to its stop; the message of the first one holds their whole text. -/
theorem duplicate_with_other_stop :
    let steps : List Step :=
      [.emit ⟨.warning, .unknown, "a:1 b:2:3: Warning: x: y"⟩, .emit ⟨.warning, .point "a:1 b" ⟨2, 3⟩, "x: y"⟩]
    let r : Report := ⟨.warning, ⟨"a:1 b", ⟨2, 3⟩, ⟨9, 1⟩⟩, "x: y"⟩
    (∀ s ∈ r :: Step.reports steps, s.position.NoMark) ∧
      ((start {} (.terminal none) fun _ => none).steps steps).outcome r = .duplicate := by
  intro steps r
  have hm : ∀ s ∈ r :: Step.reports steps, s.position.NoMark := by decide
  refine ⟨hm, (duplicate_iff_same.2 _ _ _ steps r hm rfl).2 ?_⟩
  exact ⟨⟨.warning, .point "a:1 b" ⟨2, 3⟩, "x: y"⟩, by simp [steps, Step.reports, Step.report?], by decide⟩

end Run

end Diagnostics
