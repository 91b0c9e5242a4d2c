import VerilogInterface.Proofs.Markers
import VerilogInterface.Report

/-! Ports and section labels in the text of a report. The ports stand in the order of their names,
while the labels are placed by the order of the declarations; a port is shown under the section it
is declared in as far as the two orders agree. -/

namespace VerilogInterface

namespace Report

inductive Entry where
  | label (text : String)
  | port (entry : Parameter)

namespace Entry

def line : Entry → String
  | label text => "      -- " ++ text
  | port entry => "      " ++ parameterLine entry

def label? : Entry → Option String
  | label text => some text
  | port _ => none

def port? : Entry → Option Parameter
  | label _ => none
  | port entry => some entry

end Entry

/-- The entries of ports from a position on, with the labels between and behind them. -/
def portEntries (sections : Sections) (position : Nat) : List Parameter → List Entry
  | [] => (sections.labelsFrom position).map .label
  | port :: ports =>
    ((sections.label? position).map Entry.label).toList ++
      .port port :: portEntries sections (position + 1) ports

variable {sections : Sections} {position : Nat}

theorem portLines_eq_map (sections : Sections) (position : Nat) (ports : List Parameter) :
    portLines sections position ports = (portEntries sections position ports).map Entry.line := by
  induction ports generalizing position with
  | nil =>
    rw [portLines, portEntries, List.map_map]
    rfl
  | cons port ports ih =>
    rw [portLines, portEntries, ih, List.map_append]
    cases sections.label? position <;> rfl

theorem ports_portEntries (sections : Sections) (position : Nat) (ports : List Parameter) :
    (portEntries sections position ports).filterMap Entry.port? = ports := by
  induction ports generalizing position with
  | nil =>
    rw [portEntries, List.filterMap_map]
    exact List.filterMap_eq_nil_iff.2 fun _ _ => rfl
  | cons port ports ih =>
    rw [portEntries, List.filterMap_append]
    cases sections.label? position <;> simp [Entry.port?, ih]

/-- Above a port stand the ports before it and the labels up to its position. -/
theorem portEntries_append (sections : Sections) (position : Nat) (earlier : List Parameter)
    (port : Parameter) (later : List Parameter) :
    ∃ above below,
      portEntries sections position (earlier ++ port :: later) = above ++ .port port :: below ∧
      above.filterMap Entry.port? = earlier ∧
      above.filterMap Entry.label? =
        (List.range' position (earlier.length + 1)).filterMap sections.label? := by
  induction earlier generalizing position with
  | nil =>
    refine ⟨((sections.label? position).map Entry.label).toList, _, rfl, ?_, ?_⟩
    · cases sections.label? position <;> rfl
    · cases found : sections.label? position <;> simp [found, Entry.label?]
  | cons first earlier ih =>
    obtain ⟨above, below, entries, ports, labels⟩ := ih (position + 1)
    refine ⟨((sections.label? position).map Entry.label).toList ++ .port first :: above, below,
      ?_, ?_, ?_⟩
    · rw [List.cons_append, portEntries, entries, List.append_assoc, List.cons_append]
    · rw [List.filterMap_append, List.filterMap_cons, ports]
      cases sections.label? position <;> rfl
    · have positions : List.range' position (first :: earlier).length.succ =
          position :: List.range' (position + 1) (earlier.length + 1) := List.range'_succ
      rw [List.filterMap_append, List.filterMap_cons, labels, ← Nat.succ_eq_add_one, positions,
        List.filterMap_cons]
      cases sections.label? position <;> rfl

theorem moduleLines_of_ports {module : Module} (some : module.ports ≠ []) :
    moduleLines module = moduleLines { module with ports := [], sections := [] } ++
      "    ports:" :: portLines module.sections 0 module.ports := by
  have shown : (module.ports.isEmpty && module.sections.isEmpty) = false := by simp [some]
  simp [moduleLines, shown]

/-- In the text of the module the port stands behind so many others, and the label is the last one
above it. -/
def Shows (module : Module) (position : Nat) (port : Parameter) (label : Option String) : Prop :=
  ∃ above below,
    moduleLines module = moduleLines { module with ports := [], sections := [] } ++
      "    ports:" :: (above ++ .port port :: below).map Entry.line ∧
    (above ++ .port port :: below).filterMap Entry.port? = module.ports ∧
    (above.filterMap Entry.port?).length = position ∧
    (above.filterMap Entry.label?).getLast? = label

theorem shows_upTo {module : Module} {port : Parameter}
    (found : module.ports[position]? = some port) :
    Shows module position port (module.sections.upTo position) := by
  obtain ⟨inside, here⟩ := List.getElem?_eq_some_iff.1 found
  have split : module.ports =
      module.ports.take position ++ port :: module.ports.drop (position + 1) := by
    rw [← here, List.getElem_cons_drop, List.take_append_drop]
  obtain ⟨above, below, entries, ports, labels⟩ :=
    portEntries_append module.sections 0 (module.ports.take position) port
      (module.ports.drop (position + 1))
  rw [← split] at entries
  have count : (module.ports.take position).length = position :=
    List.length_take_of_le (Nat.le_of_lt inside)
  refine ⟨above, below, ?_, ?_, ?_, ?_⟩
  · rw [moduleLines_of_ports (List.ne_nil_of_length_pos (Nat.zero_lt_of_lt inside)),
      portLines_eq_map, entries]
  · rw [← entries, ports_portEntries]
  · rw [ports, count]
  · rw [labels, count, Sections.upTo, List.range_eq_range']

end Report

section
variable {text : String} {modules : List Module} {index position : Nat} {module : Module}
  {span : Span}

theorem Span.shows (parsed : parse text = .ok modules) (found : modules[index]? = some module)
    (within : span.Within (VerilogInterface.tokens text) index) {port : Parameter}
    (placed : module.ports[position]? = some port) :
    Report.Shows module position port (sectionIn (untilDeclared position span.body)) := by
  have shown := Report.shows_upTo placed
  rwa [sections_of_parse parsed found within, upTo_markersFrom] at shown

theorem placed_of_nodup {declared : List Parameter} (unique : (declared.map (·.name)).Nodup) :
    placed declared = declared := by
  induction declared using List.reverseRecOn with
  | nil => rfl
  | append_singleton declared last ih =>
    have earlier : (declared.map (·.name)).Nodup := by
      rw [List.map_append] at unique
      exact (List.nodup_append.1 unique).1
    rw [placed_concat, ih earlier, placePort_of_nodup unique]

theorem Span.names_ports (span : Span) :
    (span.items.filterMap Item.port?).map (·.name) = span.body.filterMap Token.declares? := by
  have named (place : Place) : place.port?.map (·.name) = place.token.declares? := by
    rw [Place.port?, Option.map_map]
    exact Option.map_id'
  rw [ports_items, List.map_filterMap, funext named, ← map_token_placesFrom _ span.body,
    List.filterMap_map]
  rfl

theorem Span.Makes.names_of_ascending (makes : span.Makes module)
    (ascending : (span.body.filterMap Token.declares?).Pairwise (· < ·)) :
    module.ports.map (·.name) = span.body.filterMap Token.declares? := by
  rw [← span.names_ports] at ascending ⊢
  rw [makes.ports, placed_of_nodup (ascending.imp fun {_ _} below => (String.ne_of_lt below)),
    Ordered.sort_of_pairwise]
  refine (List.pairwise_map.1 ascending).imp fun {_ _} below => ?_
  exact decide_eq_true (String.not_lt.1 (String.lt_asymm below))

/-- Where the ports are declared in the order of their names, each stands under the last section
marker in front of its own declaration. -/
theorem Span.shows_declared (parsed : parse text = .ok modules)
    (found : modules[index]? = some module)
    (within : span.Within (VerilogInterface.tokens text) index) (makes : span.Makes module)
    (ascending : (span.body.filterMap Token.declares?).Pairwise (· < ·)) {earlier after : List Token}
    {token : Token} {name : String} (split : span.body = earlier ++ token :: after)
    (declares : token.declares? = some name) :
    ∃ position port, port.name = name ∧
      Report.Shows module position port (sectionIn earlier) := by
  have names := makes.names_of_ascending ascending
  have front : untilDeclared (earlier.filterMap Token.declares?).length span.body = earlier := by
    rw [split, untilDeclared_append declares]
  rw [split, List.filterMap_append, List.filterMap_cons, declares] at names
  have there : (module.ports.map (·.name))[(earlier.filterMap Token.declares?).length]? =
      some name := by
    rw [names, List.getElem?_append_right (Nat.le_refl _), Nat.sub_self]
    rfl
  rw [List.getElem?_map, Option.map_eq_some_iff] at there
  obtain ⟨port, placed, same⟩ := there
  refine ⟨(earlier.filterMap Token.declares?).length, port, same, ?_⟩
  have shown := Span.shows parsed found within placed
  rwa [front] at shown

structure Span.Groups (span : Span) (module : Module) : Prop where
  /-- A port with so many ports before it by name stands under the last marker in front of the
  declaration with so many declarations before it. -/
  positioned : ∀ position port, module.ports[position]? = some port →
    Report.Shows module position port (sectionIn (untilDeclared position span.body))
  /-- If the names are declared in their order, this is the port's own declaration. -/
  declared : (span.body.filterMap Token.declares?).Pairwise (· < ·) →
    ∀ earlier token after name, span.body = earlier ++ token :: after →
      token.declares? = some name →
      ∃ position port, port.name = name ∧ Report.Shows module position port (sectionIn earlier)

theorem exists_span_shows (parsed : parse text = .ok modules)
    (found : modules[index]? = some module) :
    ∃ span : Span, span.Within (tokens text) index ∧ span.Groups module := by
  obtain ⟨span, within, makes⟩ := exists_span_of_parse parsed found
  refine ⟨span, within, ?_, ?_⟩
  · intro position port placed
    exact span.shows parsed found within placed
  · intro ascending earlier token after name split declares
    exact span.shows_declared parsed found within makes ascending split declares

end

def swappedText : String :=
  "module m (input b,\n//# \x7b\x7bData\x7d\x7d\ninput a);\nendmodule\n"

private def swapped : Module where
  name := "m"
  ports := [
    { name := "a", direction := some .input, dataType := "" },
    { name := "b", direction := some .input, dataType := "" }]
  sections := [(1, "Data")]

private theorem parse_swapped : parse swappedText = .ok [swapped] := by decide +kernel

/-- The label is declared behind the second port by name, so it stands below the first one. -/
theorem exists_span_shows_swapped :
    ∃ module port, parse swappedText = .ok [module] ∧
      module.ports[1]? = some port ∧ port.name = "b" ∧
      Report.moduleLines module =
        ["  module m", "    ports:", "      a : input", "      -- Data", "      b : input"] ∧
      ∃ span : Span, span.Within (tokens swappedText) 0 ∧
        Report.Shows module 1 port (sectionIn (untilDeclared 1 span.body)) := by
  obtain ⟨span, within, groups⟩ := @exists_span_shows _ _ 0 _ parse_swapped rfl
  have shown := groups.positioned 1 _ rfl
  exact ⟨_, _, parse_swapped, rfl, rfl, by decide +kernel, span, within, shown⟩

/-- A port with a section marker in front of its declaration that is shown above every label. -/
theorem not_shows_declared :
    ∃ module, parse swappedText = .ok [module] ∧
      ∃ span : Span, span.Within (tokens swappedText) 0 ∧
        span.body.filterMap Token.declares? = ["b", "a"] ∧
        ∃ earlier token port, span.body = earlier ++ [token] ∧
          token.declares? = some port.name ∧ port ∈ module.ports ∧
          sectionIn earlier = some "Data" ∧
          ∀ position, ¬ Report.Shows module position port (sectionIn earlier) := by
  let first : Token := ⟨.portStart, [some "input", some " b"], 10, 17⟩
  let marker : Token := ⟨.sectionLabel, [some "Data"], 19, 32⟩
  let second : Token := ⟨.portStart, [some "input", some " a"], 32, 39⟩
  let port : Parameter := { name := "a", direction := some .input, dataType := "" }
  have label : sectionIn [first, marker] = some "Data" := by decide +kernel
  refine ⟨swapped, parse_swapped,
    ⟨[], [], ⟨.moduleStart, [some "m"], 0, 9⟩, [first, marker, second], ⟨.moduleEnd, [], 42, 51⟩⟩,
    ⟨⟨[], by decide +kernel⟩, rfl, by simp, by simp, rfl, by decide, rfl⟩, by decide +kernel,
    [first, marker], second, port, rfl, by decide +kernel, by decide, label, ?_⟩
  rintro position ⟨above, below, lines, ports, _, last⟩
  have shown : Report.moduleLines swapped =
      ["  module m", "    ports:", "      a : input", "      -- Data", "      b : input"] := by
    decide +kernel
  have bare : Report.moduleLines { swapped with ports := [], sections := [] } = ["  module m"] := by
    decide +kernel
  rw [shown, bare, List.singleton_append] at lines
  simp only [List.cons.injEq, true_and] at lines
  cases above with
  | nil => cases last.trans label
  | cons entry above =>
    cases entry with
    | label text =>
      have same := congrArg String.toList (List.cons.inj lines).1
      simp [Report.Entry.line] at same
    | port other =>
      have behind : (above ++ .port port :: below).filterMap Report.Entry.port? =
          [swapped.ports[1]] := (List.cons.inj ports).2
      have member : port ∈ [swapped.ports[1]] := by
        rw [← behind, List.filterMap_append]
        exact List.mem_append_right _ List.mem_cons_self
      revert member
      decide

end VerilogInterface
