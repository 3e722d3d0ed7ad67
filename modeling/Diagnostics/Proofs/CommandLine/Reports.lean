import Mathlib.Logic.ExistsUnique
import Diagnostics.Proofs.CommandLine.Options

/-! # Groups of arguments as reports

Arguments are cut at every `--`, and each piece that is not empty has to be a report.

* **One cut** (`cutInto_iff`).  Some arguments are cut into pieces in one way.
* **One group.**  A group is a report (`Group.Denotes`) or there is one thing wrong with it (`Group.Offends`), whose sort
  is looked for in a fixed order.
* **All groups.**  They are read in order, so all of them are reports or the first that offends says why they are not
  (`readReports_eq_ok_iff`, `readReports_eq_error_iff`). -/

namespace Diagnostics

/-- A name of a kind on the command line. -/
inductive Kind.Named : String → Kind → Prop
  | error : Named "error" error
  | warning : Named "warning" warning
  | debug : Named "debug" debug
  | perf : Named "perf" performance
  | performanceWarning : Named "performance-warning" performance

theorem Kind.ofName?_eq_some_iff {name : String} {kind : Kind} : ofName? name = some kind ↔ Named name kind := by
  constructor
  · intro h
    unfold ofName? at h
    split at h
    · exact Option.some.inj h ▸ .error
    · exact Option.some.inj h ▸ .warning
    · exact Option.some.inj h ▸ .debug
    · exact Option.some.inj h ▸ .perf
    · exact Option.some.inj h ▸ .performanceWarning
    · exact absurd h (by simp)
  · intro h
    cases h <;> rfl

namespace CommandLine

theorem readKind_of_named {name : String} {kind : Kind} (h : Kind.Named name kind) : readKind name = .ok kind := by
  rw [readKind, Kind.ofName?_eq_some_iff.2 h]

theorem readKind_of_forall_not {name : String} (h : ∀ kind, ¬ Kind.Named name kind) :
    readKind name = .error (.unknownKind name) := by
  have hnone : Kind.ofName? name = none :=
    Option.eq_none_iff_forall_ne_some.2 fun kind hkind => h kind (Kind.ofName?_eq_some_iff.1 hkind)
  rw [readKind, hnone]

theorem readPosition_of_forall_ne {spec : String} (h : ∀ position, readPosition spec ≠ .ok position) :
    readPosition spec = .error (.badPosition spec) := by
  unfold readPosition at h ⊢
  cases hread : Position.read? spec with
  | none => rfl
  | some position => exact absurd (by rw [hread]) (h position)

/-! ### One group -/

namespace Group

/-- A group of arguments is a report: the name of a kind, a position, and at least one word of its message. -/
inductive Denotes : (group : List String) → Report → Prop
  | report {name spec : String} {words : List String} {kind : Kind} {position : Position} :
      words ≠ [] → Kind.Named name kind → readPosition spec = .ok position →
      Denotes (name :: spec :: words) ⟨kind, position, " ".intercalate words⟩

/-- A group of arguments is no report, and why.  The number of arguments counts before what they say, and the kind before
the position. -/
inductive Offends : (group : List String) → Misuse → Prop
  | noPosition (name : String) : Offends [name] (.missing .position)
  | noMessage (name spec : String) : Offends [name, spec] (.missing .message)
  | unknownKind {name spec : String} {words : List String} :
      words ≠ [] → (∀ kind, ¬ Kind.Named name kind) → Offends (name :: spec :: words) (.unknownKind name)
  | badPosition {name spec : String} {words : List String} {kind : Kind} :
      words ≠ [] → Kind.Named name kind → (∀ position, readPosition spec ≠ .ok position) →
      Offends (name :: spec :: words) (.badPosition spec)

variable {group : List String} {report : Report} {misuse : Misuse}

theorem readReport_of_ne_nil (name spec : String) {words : List String} (h : words ≠ []) :
    readReport (name :: spec :: words) = do
      let kind ← readKind name
      let position ← readPosition spec
      return ⟨kind, position, " ".intercalate words⟩ := by
  obtain ⟨word, more, rfl⟩ := List.exists_cons_of_ne_nil h
  rfl

theorem Denotes.eq (h : Denotes group report) : readReport group = .ok report := by
  cases h with
  | report hwords hkind hposition =>
      rw [readReport_of_ne_nil _ _ hwords, readKind_of_named hkind, hposition]
      rfl

theorem Offends.eq (h : Offends group misuse) : readReport group = .error misuse := by
  cases h with
  | noPosition name => rfl
  | noMessage name spec => rfl
  | unknownKind hwords hkind =>
      rw [readReport_of_ne_nil _ _ hwords, readKind_of_forall_not hkind]
      rfl
  | badPosition hwords hkind hposition =>
      rw [readReport_of_ne_nil _ _ hwords, readKind_of_named hkind, readPosition_of_forall_ne hposition]
      rfl

theorem denotes_or_offends (h : group ≠ []) : (∃ report, Denotes group report) ∨ ∃ misuse, Offends group misuse := by
  match group, h with
  | [name], _ => exact .inr ⟨_, .noPosition name⟩
  | [name, spec], _ => exact .inr ⟨_, .noMessage name spec⟩
  | name :: spec :: word :: words, _ =>
      have hwords : word :: words ≠ [] := List.cons_ne_nil word words
      by_cases hkind : ∃ kind, Kind.Named name kind
      · obtain ⟨kind, hkind⟩ := hkind
        by_cases hposition : ∃ position, readPosition spec = .ok position
        · obtain ⟨position, hposition⟩ := hposition
          exact .inl ⟨_, .report hwords hkind hposition⟩
        · exact .inr ⟨_, .badPosition hwords hkind fun position e => hposition ⟨position, e⟩⟩
      · exact .inr ⟨_, .unknownKind hwords fun kind hk => hkind ⟨kind, hk⟩⟩

theorem readReport_eq_ok_iff : readReport group = .ok report ↔ Denotes group report := by
  refine ⟨fun hread => ?_, Denotes.eq⟩
  by_cases h : group = []
  · rw [h] at hread
    exact absurd hread (by simp [readReport])
  rcases denotes_or_offends h with ⟨report', hdenotes⟩ | ⟨misuse, hoffends⟩
  · obtain rfl := Except.ok.inj (hread.symm.trans hdenotes.eq)
    exact hdenotes
  · exact absurd (hread.symm.trans hoffends.eq) (by simp)

theorem readReport_eq_error_iff (h : group ≠ []) : readReport group = .error misuse ↔ Offends group misuse := by
  refine ⟨fun hread => ?_, Offends.eq⟩
  rcases denotes_or_offends h with ⟨report, hdenotes⟩ | ⟨misuse', hoffends⟩
  · exact absurd (hread.symm.trans hdenotes.eq) (by simp)
  · obtain rfl := Except.error.inj (hread.symm.trans hoffends.eq)
    exact hoffends

end Group

/-! ### The cut -/

/-- Some arguments are pieces without a separator that are put together with one separator between every two. -/
structure CutInto (arguments : List String) (pieces : List (List String)) : Prop where
  ne_nil : pieces ≠ []
  intercalate : ["--"].intercalate pieces = arguments
  not_mem : ∀ piece ∈ pieces, "--" ∉ piece

theorem not_mem_of_mem_splitOn {a : String} {l piece : List String} (h : piece ∈ l.splitOn a) : a ∉ piece := by
  induction l generalizing piece with
  | nil =>
      rw [List.splitOn_nil, List.mem_singleton] at h
      exact h ▸ List.not_mem_nil
  | cons b l ih =>
      obtain ⟨first, others, hl⟩ := List.exists_cons_of_ne_nil (List.splitOn_ne_nil a l)
      rw [hl] at ih
      rw [List.splitOn_cons_eq_if_modifyHead, hl] at h
      by_cases hb : b = a
      · rw [if_pos (beq_iff_eq.2 hb)] at h
        rcases List.mem_cons.1 h with rfl | h
        · exact List.not_mem_nil
        · exact ih h
      · rw [if_neg (mt beq_iff_eq.1 hb), List.modifyHead_cons] at h
        rcases List.mem_cons.1 h with rfl | h
        · rw [List.mem_cons, not_or]
          exact ⟨Ne.symm hb, ih List.mem_cons_self⟩
        · exact ih (List.mem_cons_of_mem first h)

variable {arguments : List String} {pieces : List (List String)}

theorem cutInto_iff : CutInto arguments pieces ↔ arguments.splitOn "--" = pieces := by
  constructor
  · rintro ⟨hne, rfl, hmem⟩
    exact List.splitOn_intercalate "--" hmem hne
  · rintro rfl
    exact ⟨List.splitOn_ne_nil "--" arguments, List.intercalate_splitOn "--", fun _ h => not_mem_of_mem_splitOn h⟩

theorem existsUnique_cutInto (arguments : List String) : ∃! pieces, CutInto arguments pieces :=
  ⟨arguments.splitOn "--", cutInto_iff.2 rfl, fun _ h => (cutInto_iff.1 h).symm⟩

theorem CutInto.groups_eq (h : CutInto arguments pieces) : groups arguments = pieces.filter (· ≠ []) := by
  rw [groups, cutInto_iff.1 h]

/-! ### All groups -/

theorem ne_nil_of_mem_groups {group : List String} (h : group ∈ groups arguments) : group ≠ [] :=
  of_decide_eq_true (List.mem_filter.1 h).2

theorem readReports_of_groups_eq_nil (h : groups arguments = []) : readReports arguments = .error (.missing .kind) := by
  rw [readReports, h]

theorem readReports_of_groups_ne_nil (h : groups arguments ≠ []) :
    readReports arguments = (groups arguments).mapM readReport := by
  obtain ⟨first, others, hgroups⟩ := List.exists_cons_of_ne_nil h
  rw [readReports, hgroups]

theorem readReports_eq_ok_iff {reports : List Report} :
    readReports arguments = .ok reports ↔
      groups arguments ≠ [] ∧ List.Forall₂ Group.Denotes (groups arguments) reports := by
  by_cases h : groups arguments = []
  · simp [readReports_of_groups_eq_nil h, h]
  · rw [readReports_of_groups_ne_nil h, mapM_eq_ok_iff, and_iff_right h]
    simp only [Group.readReport_eq_ok_iff]

theorem readReports_eq_error_iff {misuse : Misuse} :
    readReports arguments = .error misuse ↔
      groups arguments = [] ∧ misuse = .missing .kind ∨
        ∃ before group after, groups arguments = before ++ group :: after ∧
          (∀ g ∈ before, ∃ report, Group.Denotes g report) ∧ Group.Offends group misuse := by
  by_cases h : groups arguments = []
  · simp [readReports_of_groups_eq_nil h, h, eq_comm]
  · rw [readReports_of_groups_ne_nil h, mapM_eq_error_iff]
    simp only [h, false_and, false_or, Group.readReport_eq_ok_iff]
    constructor
    · rintro ⟨before, group, after, hgroups, hread, hbefore⟩
      have hmem : group ∈ groups arguments := by simp [hgroups]
      have hoffends := (Group.readReport_eq_error_iff (ne_nil_of_mem_groups hmem)).1 hread
      exact ⟨before, group, after, hgroups, hbefore, hoffends⟩
    · rintro ⟨before, group, after, hgroups, hbefore, hoffends⟩
      exact ⟨before, group, after, hgroups, hoffends.eq, hbefore⟩

/-- **Reports are read group by group.**  Arguments are cut at `--` in one way, and the pieces that are not empty are the
groups.  The arguments are read exactly if there is a group and each is a report, and then as these reports in order.
Otherwise what is said of them is what is wrong with the first group that is no report, or that there is no kind if there
is no group. -/
theorem reports_of_groups (arguments : List String) :
    (∃! pieces, CutInto arguments pieces) ∧
      ∀ pieces, CutInto arguments pieces →
        let kept := pieces.filter (· ≠ [])
        (∀ reports, readReports arguments = .ok reports ↔ kept ≠ [] ∧ List.Forall₂ Group.Denotes kept reports) ∧
        ∀ misuse, readReports arguments = .error misuse ↔
          kept = [] ∧ misuse = .missing .kind ∨
            ∃ before group after, kept = before ++ group :: after ∧
              (∀ g ∈ before, ∃ report, Group.Denotes g report) ∧ Group.Offends group misuse := by
  refine ⟨existsUnique_cutInto arguments, fun pieces h => ?_⟩
  intro kept
  have hkept : groups arguments = kept := h.groups_eq
  rw [← hkept]
  exact ⟨fun reports => readReports_eq_ok_iff, fun misuse => readReports_eq_error_iff⟩

/-- The first of two groups that offend decides, also with nothing before a separator or between two of them. -/
theorem reports_of_late_group :
    let arguments := ["--", "perf", "-", "slow", "loop", "--", "--", "fatal", "nowhere", "boom", "--", "error"]
    CutInto arguments [[], ["perf", "-", "slow", "loop"], [], ["fatal", "nowhere", "boom"], ["error"]] ∧
      readReports arguments = .error (.unknownKind "fatal") := by
  intro arguments
  have hcut : CutInto arguments [[], ["perf", "-", "slow", "loop"], [], ["fatal", "nowhere", "boom"], ["error"]] :=
    cutInto_iff.2 (by decide)
  have hfirst : Group.Denotes ["perf", "-", "slow", "loop"] ⟨.performance, .unknown, "slow loop"⟩ :=
    .report (List.cons_ne_nil _ _) .perf rfl
  have hsecond : Group.Offends ["fatal", "nowhere", "boom"] (.unknownKind "fatal") :=
    .unknownKind (List.cons_ne_nil _ _) fun kind h => absurd (Kind.ofName?_eq_some_iff.2 h) (by simp [Kind.ofName?])
  refine ⟨hcut, (((reports_of_groups arguments).2 _ hcut).2 _).2 (.inr ⟨[_], _, [["error"]], rfl, ?_, hsecond⟩)⟩
  intro g hg
  exact ⟨_, List.mem_singleton.1 hg ▸ hfirst⟩

end CommandLine

end Diagnostics
