import VerilogInterface.Proofs.Rendering
import VerilogInterface.Proofs.Splits

/-! No section label is lost or shown twice. The sections of a module keep for each count of
declarations the last marker with so many declarations in front of it, and the text of the module
shows each of them once, whether or not so many ports are left to stand below it. -/

namespace VerilogInterface

namespace Sections

variable {sections : Sections} {markers : List (Nat × String)} {count : Nat} {label : String}

theorem label?_cons (entry : Nat × String) (sections : Sections) (count : Nat) :
    Sections.label? (entry :: sections) count =
      if entry.1 = count then some entry.2 else sections.label? count := by
  by_cases same : entry.1 = count <;> simp [label?, same]

theorem labelsFrom_cons (entry : Nat × String) (sections : Sections) (count : Nat) :
    Sections.labelsFrom (entry :: sections) count =
      if count ≤ entry.1 then entry.2 :: sections.labelsFrom count
      else sections.labelsFrom count := by
  by_cases within : count ≤ entry.1 <;> simp [labelsFrom, within]

def Ascending (sections : Sections) : Prop := sections.Pairwise (·.1 < ·.1)

theorem mem_put {entry : Nat × String} (member : entry ∈ sections.put count label) :
    entry = (count, label) ∨ entry ∈ sections := by
  induction sections with
  | nil => exact .inl (List.mem_singleton.1 member)
  | cons first rest ih =>
    rw [put] at member
    split at member
    · exact List.mem_cons.1 member
    · split at member
      · exact (List.mem_cons.1 member).imp_right (.tail _)
      · rcases List.mem_cons.1 member with rfl | later
        · exact .inr List.mem_cons_self
        · exact (ih later).imp_right (.tail _)

theorem Ascending.put (ascending : sections.Ascending) (count : Nat) (label : String) :
    (sections.put count label).Ascending := by
  induction sections with
  | nil => exact List.pairwise_singleton _ _
  | cons first rest ih =>
    obtain ⟨above, behind⟩ := List.pairwise_cons.1 ascending
    rw [Sections.put]
    split
    · next below =>
      refine List.pairwise_cons.2 ⟨fun entry member => ?_, ascending⟩
      rcases List.mem_cons.1 member with rfl | later
      · exact below
      · exact Nat.lt_trans below (above entry later)
    · split
      · next same =>
        refine List.pairwise_cons.2 ⟨fun entry later => ?_, behind⟩
        rw [same]
        exact above entry later
      · next notBelow different =>
        refine List.pairwise_cons.2 ⟨fun entry member => ?_, ih behind⟩
        rcases mem_put member with rfl | later
        · exact Nat.lt_of_le_of_ne (Nat.le_of_not_lt notBelow) fun same => different same.symm
        · exact above entry later

theorem ascending_ofMarkers (markers : List (Nat × String)) : (ofMarkers markers).Ascending := by
  induction markers using List.reverseRecOn with
  | nil => exact .nil
  | append_singleton markers marker ih =>
    rw [ofMarkers_concat]
    exact ih.put marker.1 marker.2

/-- In ascending order an entry is what its count leads to. -/
theorem Ascending.mem_iff (ascending : sections.Ascending) :
    (count, label) ∈ sections ↔ sections.label? count = some label := by
  induction sections with
  | nil => simp [label?]
  | cons first rest ih =>
    obtain ⟨above, behind⟩ := List.pairwise_cons.1 ascending
    rw [label?_cons, List.mem_cons]
    split
    · next same =>
      have absent : (count, label) ∉ rest := by
        intro later
        have beyond : first.1 < count := above _ later
        exact Nat.ne_of_lt beyond same
      rw [or_iff_left absent, Prod.ext_iff, Option.some.injEq]
      exact (and_iff_right same.symm).trans eq_comm
    · next different =>
      rw [← ih behind]
      exact or_iff_right fun equal => different (congrArg Prod.fst equal).symm

/-- The label at a count is that of the last marker with this count. -/
theorem label?_ofMarkers :
    (ofMarkers markers).label? count = some label ↔
      ∃ before after, markers = before ++ (count, label) :: after ∧
        ∀ marker ∈ after, marker.1 ≠ count := by
  induction markers using List.reverseRecOn with
  | nil => simp [ofMarkers, label?]
  | append_singleton markers last ih =>
    rw [ofMarkers_concat, label?_put, exists_last_concat]
    split
    · next same =>
      subst same
      simp [Prod.ext_iff]
    · next different =>
      rw [ih, or_iff_right fun same => different (congrArg Prod.fst same), and_iff_right different]

/-- The labels from a count on begin with the one at the count, if there is one. -/
theorem Ascending.labelsFrom_eq (ascending : sections.Ascending) (count : Nat) :
    sections.labelsFrom count =
      (sections.label? count).toList ++ sections.labelsFrom (count + 1) := by
  induction sections with
  | nil => rfl
  | cons first rest ih =>
    obtain ⟨above, behind⟩ := List.pairwise_cons.1 ascending
    have later := ih behind
    rw [labelsFrom_cons, labelsFrom_cons, label?_cons]
    by_cases below : first.1 < count
    · rw [if_neg (by omega), if_neg (by omega), if_neg (by omega), later]
    · have none : Sections.label? rest count = none := by
        apply Option.eq_none_iff_forall_ne_some.2
        intro label found
        have beyond := above _ ((Ascending.mem_iff behind).2 found)
        exact below beyond
      rw [none] at later
      rw [if_pos (Nat.le_of_not_lt below), later]
      by_cases same : first.1 = count
      · rw [if_pos same, if_neg (by omega)]
        rfl
      · rw [if_neg same, if_pos (by omega), none]
        rfl

end Sections

/-- The markers behind a front part count on from the ports declared in it. -/
theorem markersFrom_append (count : Nat) (front back : List Token) :
    markersFrom count (front ++ back) = markersFrom count front ++
      markersFrom (count + (front.filterMap Token.declares?).length) back := by
  induction front generalizing count with
  | nil => rfl
  | cons token front ih =>
    rw [List.cons_append, markersFrom, markersFrom, List.filterMap_cons]
    by_cases marks : token.action = .sectionLabel
    · simp [marks, not_declares_of_sectionLabel marks, ih]
    · cases token.declares? <;> simp [marks, ih, Nat.add_assoc, Nat.add_comm 1]

theorem markersFrom_of_action {token : Token} (marks : token.action = .sectionLabel) (count : Nat)
    (rest : List Token) :
    markersFrom count (token :: rest) =
      (count, Text.trim (token.group 0)) :: markersFrom count rest := by
  rw [markersFrom, if_pos marks]

/-- Every marker is that of a token. -/
theorem exists_of_markersFrom {tokens : List Token} {count : Nat} {marker : Nat × String}
    {before after : List (Nat × String)}
    (split : markersFrom count tokens = before ++ marker :: after) :
    ∃ earlier token later, tokens = earlier ++ token :: later ∧ token.action = .sectionLabel ∧
      marker = (count + (earlier.filterMap Token.declares?).length, Text.trim (token.group 0)) ∧
      after = markersFrom marker.1 later := by
  induction tokens generalizing count before with
  | nil => simp [markersFrom] at split
  | cons token rest ih =>
    by_cases marks : token.action = .sectionLabel
    · rw [markersFrom_of_action marks] at split
      cases before with
      | nil =>
        obtain ⟨rfl, rfl⟩ := List.cons.inj split
        exact ⟨[], token, rest, rfl, marks, rfl, rfl⟩
      | cons first before =>
        obtain ⟨earlier, other, later, rfl, action, here, further⟩ := ih (List.cons.inj split).2
        refine ⟨token :: earlier, other, later, rfl, action, ?_, further⟩
        rw [here, List.filterMap_cons_none (not_declares_of_sectionLabel marks)]
    · rw [markersFrom, if_neg marks] at split
      obtain ⟨earlier, other, later, rfl, action, here, further⟩ := ih split
      refine ⟨token :: earlier, other, later, rfl, action, ?_, further⟩
      rw [here, List.filterMap_cons]
      cases token.declares? <;> simp [Nat.add_assoc, Nat.add_comm 1]

/-- The label of the last section marker that has exactly so many port declarations in front. -/
def MarksLast (tokens : List Token) (count : Nat) (label : String) : Prop :=
  ∃ earlier token later, tokens = earlier ++ token :: later ∧ token.action = .sectionLabel ∧
    (earlier.filterMap Token.declares?).length = count ∧ label = Text.trim (token.group 0) ∧
    ∀ between other rest, later = between ++ other :: rest → other.action = .sectionLabel →
      between.filterMap Token.declares? ≠ []

theorem label?_markersFrom {tokens : List Token} {count : Nat} {label : String} :
    (Sections.ofMarkers (markersFrom 0 tokens)).label? count = some label ↔
      MarksLast tokens count label := by
  rw [Sections.label?_ofMarkers]
  constructor
  · rintro ⟨before, after, split, others⟩
    obtain ⟨earlier, token, later, whole, marks, here, rfl⟩ := exists_of_markersFrom split
    rw [Nat.zero_add, Prod.mk.injEq] at here
    refine ⟨earlier, token, later, whole, marks, here.1.symm, here.2, ?_⟩
    intro between other rest split action none
    -- Without a declaration in between the later marker has the same count.
    apply others (count, Text.trim (other.group 0)) _ rfl
    rw [split, markersFrom_append, none, markersFrom_of_action action]
    exact List.mem_append_right _ List.mem_cons_self
  · rintro ⟨earlier, token, later, rfl, marks, rfl, rfl, last⟩
    refine ⟨markersFrom 0 earlier,
      markersFrom (earlier.filterMap Token.declares?).length later, ?_, ?_⟩
    · rw [markersFrom_append, Nat.zero_add, markersFrom_of_action marks]
    · intro marker member same
      obtain ⟨before, after, split⟩ := List.append_of_mem member
      obtain ⟨between, other, rest, whole, action, here, _⟩ := exists_of_markersFrom split
      have longer := List.length_pos_iff.2 (last between other rest whole action)
      rw [here] at same
      omega

namespace Report

/-- Among the entries of the ports every label from the position on stands once. -/
theorem labels_portEntries {sections : Sections} (ascending : sections.Ascending) (position : Nat)
    (ports : List Parameter) :
    (portEntries sections position ports).filterMap Entry.label? =
      sections.labelsFrom position := by
  induction ports generalizing position with
  | nil =>
    rw [portEntries, List.filterMap_map]
    exact List.filterMap_some
  | cons port ports ih =>
    rw [portEntries, List.filterMap_append, List.filterMap_cons_none rfl, ih (position + 1),
      ascending.labelsFrom_eq position]
    cases sections.label? position <;> rfl

/-- All ports stand among their entries, and all labels. -/
theorem keeps_portEntries {module : Module} (ascending : module.sections.Ascending) :
    (portEntries module.sections 0 module.ports).filterMap Entry.port? = module.ports ∧
      (portEntries module.sections 0 module.ports).filterMap Entry.label? =
        module.sections.map (·.2) := by
  refine ⟨ports_portEntries _ _ _, ?_⟩
  rw [labels_portEntries ascending, Sections.labelsFrom, List.filter_eq_self.2]
  exact fun _ _ => decide_eq_true (Nat.zero_le _)

/-- Below the heading of the ports stand just these entries; without any the heading is missing. -/
def Lists (module : Module) (entries : List Entry) : Prop :=
  moduleLines module = moduleLines { module with ports := [], sections := [] } ++
    if entries.isEmpty then [] else "    ports:" :: entries.map Entry.line

theorem lists_portEntries (module : Module) :
    Lists module (portEntries module.sections 0 module.ports) := by
  by_cases ports : module.ports = []
  · cases sections : module.sections with
    | nil => simp [Lists, moduleLines, ports, sections, portEntries, Sections.labelsFrom]
    | cons first rest =>
      simp [Lists, moduleLines, ports, sections, portEntries, portLines, Sections.labelsFrom,
        Entry.line, labelLine]
  · have some : (portEntries module.sections 0 module.ports).isEmpty = false := by
      have kept := ports_portEntries module.sections 0 module.ports
      cases entries : portEntries module.sections 0 module.ports with
      | nil => exact absurd (entries ▸ kept).symm ports
      | cons entry entries => rfl
    rw [Lists, moduleLines_of_ports ports, some, portLines_eq_map]
    rfl

end Report

/-- The sections of the module are those that the tokens of the span mark, and the text of the
module shows each of its labels and each of its ports once, in order. -/
structure Span.Labels (span : Span) (module : Module) : Prop where
  ascending : module.sections.Ascending
  marked : ∀ count label, (count, label) ∈ module.sections ↔ MarksLast span.body count label
  named : module.ports.Pairwise (·.name < ·.name)
  shown : ∃ entries, Report.Lists module entries ∧
    entries.filterMap Report.Entry.port? = module.ports ∧
    entries.filterMap Report.Entry.label? = module.sections.map (·.2)

section

variable {text : String} {modules : List Module} {index : Nat} {module : Module}

theorem ascending_of_parse (parsed : parse text = .ok modules)
    (found : modules[index]? = some module) : module.sections.Ascending := by
  obtain ⟨span, within, _⟩ := exists_span_of_parse parsed found
  rw [sections_of_parse parsed found within]
  exact Sections.ascending_ofMarkers _

/-- The entries of the sections are the last markers at their counts. -/
theorem mem_sections_iff {span : Span} (parsed : parse text = .ok modules)
    (found : modules[index]? = some module) (within : span.Within (tokens text) index)
    (count : Nat) (label : String) :
    (count, label) ∈ module.sections ↔ MarksLast span.body count label := by
  rw [(ascending_of_parse parsed found).mem_iff, sections_of_parse parsed found within,
    label?_markersFrom]

theorem exists_span_labels (parsed : parse text = .ok modules)
    (found : modules[index]? = some module) :
    ∃ span : Span, span.Within (tokens text) index ∧ span.Labels module := by
  obtain ⟨span, within, makes⟩ := exists_span_of_parse parsed found
  have ascending := ascending_of_parse parsed found
  refine ⟨span, within, ascending, mem_sections_iff parsed found within, ?_,
    ⟨_, Report.lists_portEntries module, Report.keeps_portEntries ascending⟩⟩
  rw [makes.ports]
  exact pairwise_sort_placed _

end

def repeatedText : String :=
  "module m (//# \x7b\x7bA\x7d\x7d\n//# \x7b\x7bB\x7d\x7d\ninput a, a" ++
    "//# \x7b\x7bC\x7d\x7d\n);\nendmodule\n"

private def repeatedPort : Module where
  name := "m"
  ports := [{ name := "a", direction := some .input, dataType := "" }]
  sections := [(0, "B"), (2, "C")]

/-- A label in place of an earlier one, and one behind two declarations of the same port. -/
theorem exists_span_labels_repeated :
    ∃ module, parse repeatedText = .ok [module] ∧ module.ports.length = 1 ∧
      module.sections = [(0, "B"), (2, "C")] ∧
      Report.moduleLines module =
        ["  module m", "    ports:", "      -- B", "      a : input", "      -- C"] ∧
      ∃ span : Span, span.Within (tokens repeatedText) 0 ∧ span.Labels module := by
  have parsed : parse repeatedText = .ok [repeatedPort] := by decide +kernel
  obtain ⟨span, within, labels⟩ := @exists_span_labels _ _ 0 _ parsed rfl
  exact ⟨_, parsed, rfl, rfl, by decide +kernel, span, within, labels⟩

end VerilogInterface
