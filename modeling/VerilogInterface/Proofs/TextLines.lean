import VerilogInterface.Proofs.OneLineTexts

/-! The text of a report line by line. It is made of rows, one for the path and for each part of a
module that is shown, and a row is one line unless it shows a parameter whose range goes over lines.
-/

namespace VerilogInterface

open Text

namespace Text

theorem pieces_lines {texts : List (List Char)} (inLine : ∀ text ∈ texts, '\n' ∉ text) :
    pieces '\n' (texts.flatMap (· ++ ['\n'])) = texts ++ [[]] := by
  induction texts with
  | nil => rfl
  | cons text texts ih =>
    obtain ⟨here, later⟩ := List.forall_mem_cons.1 inLine
    rw [List.flatMap_cons, List.append_assoc, List.singleton_append, pieces_append here, ih later,
      List.cons_append]

theorem not_mem_of_mem_pieces {separator : Char} {characters piece : List Char}
    (member : piece ∈ pieces separator characters) : separator ∉ piece := by
  induction characters generalizing piece with
  | nil =>
    rw [List.mem_singleton.1 member]
    exact List.not_mem_nil
  | cons character rest ih =>
    rw [pieces] at member
    split at member
    · rcases List.mem_cons.1 member with rfl | later
      · exact List.not_mem_nil
      · exact ih later
    · next other =>
      split at member
      · next none => exact absurd none (pieces_ne_nil _ _)
      · next first others split =>
        rw [split] at ih
        rcases List.mem_cons.1 member with rfl | later
        · rw [List.mem_cons, not_or]
          exact ⟨Ne.symm other, ih List.mem_cons_self⟩
        · exact ih (.tail _ later)

theorem InLine.trimEnd {text : String} (inLine : InLine text) : InLine (Text.trimEnd text) := by
  rw [InLine, Text.trimEnd, String.toList_ofList, trimRight]
  intro member
  have dropped := (List.dropWhile_suffix _).subset (List.mem_reverse.1 member)
  exact inLine (List.mem_reverse.1 dropped)

/-- A text at the end keeps its line breaks if no blank stands last. -/
theorem InLine.of_trimEnd {front text : String} (trimmed : Trimmed text.toList)
    (inLine : InLine (Text.trimEnd (front ++ text))) : InLine text := by
  rcases List.eq_nil_or_concat' text.toList with none | ⟨before, last, whole⟩
  · rw [InLine, none]
    exact List.not_mem_nil
  · have plain : isBlank last = false := trimmed.ends last (by rw [whole, List.getLast?_concat]; rfl)
    rw [InLine, Text.trimEnd, String.toList_append, whole, ← List.append_assoc,
      trimRight_append_cons plain, String.toList_ofList] at inLine
    rw [InLine, whole]
    intro member
    apply inLine
    rw [List.append_assoc]
    exact List.mem_append_right _ member

end Text

namespace Report

inductive Row where
  | file (path : Path)
  /-- There is no module in the file. -/
  | vacant
  | heading (module : Module)
  | remark (line : String)
  /-- The heading of the parameters. -/
  | parameters
  | generic (entry : Parameter)
  /-- The heading of the ports. -/
  | ports
  | listed (entry : Entry)

namespace Row

def text : Row → String
  | file path => path.toString ++ ":"
  | vacant => "  (no modules)"
  | heading module => "  module " ++ module.name ++
    match module.guard with
    | some guard => " [" ++ guard ++ "]"
    | none => ""
  | remark line => "    " ++ line
  | parameters => "    parameters:"
  | generic entry => "      " ++ parameterLine entry
  | ports => "    ports:"
  | listed entry => entry.line

/-- The row shows a parameter whose type goes over lines. -/
def Broken : Row → Prop
  | generic entry => ¬ InLine entry.dataType
  | _ => False

end Row

/-- A heading, a row for each line of the description, and the parameters and the ports, each with a
heading of their own if there is something to show. -/
def moduleRows (module : Module) : List Row :=
  .heading module :: (module.description.getD []).map .remark ++
    (if module.generics.isEmpty then [] else .parameters :: module.generics.map .generic) ++
    (if module.ports.isEmpty && module.sections.isEmpty then []
      else .ports :: (portEntries module.sections 0 module.ports).map .listed)

def rows (path : Path) (modules : List Module) : List Row :=
  .file path :: if modules.isEmpty then [.vacant] else modules.flatMap moduleRows

variable {path : Path} {modules : List Module} {module : Module} {row : Row}

theorem moduleLines_eq_map (module : Module) :
    moduleLines module = (moduleRows module).map Row.text := by
  simp only [moduleLines, moduleRows, List.map_append, List.map_cons, List.map_map,
    portLines_eq_map, apply_ite (List.map Row.text), List.map_nil]
  rfl

theorem lines_eq_map (path : Path) (modules : List Module) :
    lines ⟨path, modules.map .module⟩ = (rows path modules).map Row.text := by
  cases modules with
  | nil => rfl
  | cons first others =>
    simp [lines, rows, List.flatMap_map, List.map_flatMap, Row.text, moduleLines_eq_map,
      objectLines]

theorem toList_renderText (path : Path) (modules : List Module) :
    (renderText [⟨path, modules.map .module⟩]).toList =
      ((rows path modules).map (·.text.toList)).flatMap (· ++ ['\n']) := by
  simp [renderText, lines_eq_map, String.toList_join, List.flatMap_map]

theorem inLine_display_iff {entry : Parameter} (oneLine : entry.OneLine)
    (trimmed : Trimmed entry.dataType.toList) : InLine entry.display ↔ InLine entry.dataType := by
  have head {direction : String} (inLine : InLine direction) :
      InLine (trimEnd (entry.name ++ " : " ++ direction ++ entry.dataType)) ↔
        InLine entry.dataType := by
    have front := (oneLine.name.append (by decide : InLine " : ")).append inLine
    exact ⟨InLine.of_trimEnd trimmed, fun within => (front.append within).trimEnd⟩
  have directed (direction : Direction) : InLine (direction.keyword ++ " ") := by
    cases direction <;> decide
  have valued {text value : String} (given : entry.defaultValue = some value) :
      InLine (text ++ " := " ++ value) ↔ InLine text := by
    rw [InLine.append_iff, and_iff_left (oneLine.value value given), InLine.append_iff,
      and_iff_left (by decide)]
  unfold Parameter.display
  cases entry.direction with
  | none =>
    cases given : entry.defaultValue with
    | none => exact head (by decide)
    | some value => exact (valued given).trans (head (by decide))
  | some direction =>
    cases given : entry.defaultValue with
    | none => exact head (directed direction)
    | some value => exact (valued given).trans (head (directed direction))

/-- Of all that the line of a declaration shows only the type can break it. -/
theorem inLine_parameterLine_iff {entry : Parameter} (oneLine : entry.OneLine)
    (trimmed : Trimmed entry.dataType.toList) :
    InLine (parameterLine entry) ↔ InLine entry.dataType := by
  rw [parameterLine, InLine.append_iff, InLine.append_iff, inLine_display_iff oneLine trimmed,
    and_assoc]
  apply and_iff_left
  constructor
  · split
    · next guard found =>
      exact (InLine.append (by decide) (oneLine.guard guard found)).append (by decide)
    · decide
  · split
    · next lines found =>
      exact InLine.append (by decide) (InLine.intercalate (oneLine.description lines found))
    · decide

/-- Neither a label nor a port breaks its line. -/
theorem inLine_entries (oneLine : module.OneLine) (ascending : module.sections.Ascending)
    (trimmed : ∀ port ∈ module.ports, Trimmed port.dataType.toList) :
    ∀ entry ∈ portEntries module.sections 0 module.ports, InLine entry.line := by
  obtain ⟨ports, labels⟩ := keeps_portEntries ascending
  intro entry member
  cases entry with
  | label text =>
    have kept : text ∈ module.sections.map (·.2) :=
      labels ▸ List.mem_filterMap.2 ⟨_, member, rfl⟩
    obtain ⟨entry, listed, rfl⟩ := List.mem_map.1 kept
    exact InLine.append (by decide) (oneLine.labels entry listed)
  | port port =>
    have kept : port ∈ module.ports := ports ▸ List.mem_filterMap.2 ⟨_, member, rfl⟩
    obtain ⟨others, dataType⟩ := oneLine.ports port kept
    have line := (inLine_parameterLine_iff others (trimmed port kept)).2 dataType
    exact InLine.append (by decide) line

def Row.Judged (row : Row) : Prop := InLine row.text ↔ ¬ row.Broken

theorem judged_moduleRows (oneLine : module.OneLine) (ascending : module.sections.Ascending)
    (ports : ∀ port ∈ module.ports, Trimmed port.dataType.toList)
    (generics : ∀ generic ∈ module.generics, Trimmed generic.dataType.toList) :
    ∀ row ∈ moduleRows module, row.Judged := by
  have none : ∀ row ∈ ([] : List Row), row.Judged := by simp
  simp only [moduleRows, List.forall_mem_append, List.forall_mem_cons]
  refine ⟨⟨⟨iff_of_true ?_ id, ?_⟩, ?_⟩, ?_⟩
  · refine InLine.append (InLine.append (by decide) oneLine.name) ?_
    split
    · next guard found =>
      exact (InLine.append (by decide) (oneLine.guard guard found)).append (by decide)
    · decide
  · refine List.forall_mem_map.2 fun line member => iff_of_true (InLine.append (by decide) ?_) id
    cases found : module.description with
    | none => simp [found] at member
    | some lines => exact oneLine.description lines found line (by simpa [found] using member)
  · split
    · exact none
    · refine List.forall_mem_cons.2 ⟨iff_of_true (by decide) id, ?_⟩
      refine List.forall_mem_map.2 fun generic member => ?_
      have line := inLine_parameterLine_iff (oneLine.generics generic member)
        (generics generic member)
      rw [Row.Judged, Row.text, InLine.append_iff, and_iff_right (by decide), line]
      exact not_not.symm
  · split
    · exact none
    · refine List.forall_mem_cons.2 ⟨iff_of_true (by decide) id, ?_⟩
      exact List.forall_mem_map.2 fun entry member =>
        iff_of_true (inLine_entries oneLine ascending ports entry member) id

theorem judged_rows (inLine : InLine path.toString)
    (each : ∀ module ∈ modules, ∀ row ∈ moduleRows module, row.Judged) :
    ∀ row ∈ rows path modules, row.Judged := by
  refine List.forall_mem_cons.2 ⟨iff_of_true (inLine.append (by decide)) id, ?_⟩
  split
  · exact List.forall_mem_singleton.2 (iff_of_true (by decide) id)
  · intro row member
    obtain ⟨module, listed, inside⟩ := List.mem_flatMap.1 member
    exact each module listed row inside

theorem generic_mem_moduleRows {entry : Parameter} :
    .generic entry ∈ moduleRows module ↔ entry ∈ module.generics := by
  cases generics : module.generics with
  | nil => simp [moduleRows, generics]
  | cons first others => simp [moduleRows, generics]

theorem generic_mem_rows {entry : Parameter} :
    .generic entry ∈ rows path modules ↔ ∃ module ∈ modules, entry ∈ module.generics := by
  cases modules with
  | nil => simp [rows]
  | cons first others => simp [rows, generic_mem_moduleRows]

/-- The lines of the text are its rows if and only if no row is broken. -/
theorem lines_renderText_iff (judged : ∀ row ∈ rows path modules, row.Judged) :
    pieces '\n' (renderText [⟨path, modules.map .module⟩]).toList =
        (rows path modules).map (·.text.toList) ++ [[]] ↔
      ∀ module ∈ modules, ∀ generic ∈ module.generics, InLine generic.dataType := by
  rw [toList_renderText]
  constructor
  · intro same module member generic listed
    have row : .generic generic ∈ rows path modules :=
      generic_mem_rows.2 ⟨module, member, listed⟩
    have piece : (Row.generic generic).text.toList ∈
        (rows path modules).map (·.text.toList) ++ [[]] :=
      List.mem_append_left _ (List.mem_map_of_mem row)
    rw [← same] at piece
    exact not_not.1 ((judged _ row).1 (not_mem_of_mem_pieces piece))
  · intro inLine
    refine pieces_lines (List.forall_mem_map.2 fun row member => (judged row member).2 ?_)
    cases row with
    | generic entry =>
      obtain ⟨module, listed, inside⟩ := generic_mem_rows.1 member
      exact not_not.2 (inLine module listed entry inside)
    | _ => exact id

/-- The text of a report has a row for its path and for each part of its modules and no others, with
each port and each label once. A row is one line unless it shows a parameter whose type goes over
lines, and without such parameters the lines are just the rows. -/
structure Outlined (path : Path) (modules : List Module) : Prop where
  text : renderText [⟨path, modules.map .module⟩] =
    String.join ((rows path modules).map (·.text ++ "\n"))
  entries : ∀ module ∈ modules,
    (portEntries module.sections 0 module.ports).filterMap Entry.port? = module.ports ∧
      (portEntries module.sections 0 module.ports).filterMap Entry.label? =
        module.sections.map (·.2)
  judged : ∀ row ∈ rows path modules, row.Judged
  lines : pieces '\n' (renderText [⟨path, modules.map .module⟩]).toList =
      (rows path modules).map (·.text.toList) ++ [[]] ↔
    ∀ module ∈ modules, ∀ generic ∈ module.generics, InLine generic.dataType

end Report

section

variable {text : String} {modules : List Module} {path : Path}

theorem outlined_of_parse (parsed : parse text = .ok modules) (inLine : InLine path.toString) :
    Report.Outlined path modules := by
  have ascending : ∀ module ∈ modules, module.sections.Ascending := by
    intro module member
    obtain ⟨index, found⟩ := List.getElem?_of_mem member
    exact ascending_of_parse parsed found
  have judged : ∀ row ∈ Report.rows path modules, row.Judged := by
    refine Report.judged_rows inLine fun module member => ?_
    obtain ⟨ports, generics⟩ := formed_declarations parsed member
    exact Report.judged_moduleRows (oneLine_of_parse parsed module member) (ascending module member)
      (fun port listed => (ports port listed).dataType)
      fun generic listed => (generics generic listed).dataType
  refine ⟨?_, fun module member => Report.keeps_portEntries (ascending module member), judged,
    Report.lines_renderText_iff judged⟩
  rw [Report.renderText, List.flatMap_singleton, Report.lines_eq_map, List.map_map]
  rfl

def labelledText : String :=
  "//# A register\nmodule m #(parameter W = 3) (\n" ++
    "//# \x7b\x7bData\x7d\x7d\ninput [W-1:0] a //# first\n);\nendmodule\n"

private def labelled : Module where
  name := "m"
  ports := [
    { name := "a", direction := some .input, dataType := "[W-1:0]", description := some ["first"] }]
  generics := [{ name := "W", direction := some .into, dataType := "", defaultValue := some "3" }]
  sections := [(0, "Data")]
  description := some ["A register"]

/-- A module with a description, a parameter, a label and a port. -/
theorem outlined_of_parse_labelled :
    ∃ module, parse labelledText = .ok [module] ∧
      InLine (Path.toString ⟨["top.v"]⟩) ∧ Report.Outlined ⟨["top.v"]⟩ [module] ∧
      (Report.rows ⟨["top.v"]⟩ [module]).map Report.Row.text =
        ["top.v:", "  module m", "    A register", "    parameters:", "      W : in := 3",
          "    ports:", "      -- Data", "      a : input [W-1:0]  # first"] := by
  have parsed : parse labelledText = .ok [labelled] := by decide +kernel
  have inLine : InLine (Path.toString ⟨["top.v"]⟩) := by decide +kernel
  exact ⟨_, parsed, inLine, outlined_of_parse parsed inLine, by decide +kernel⟩

private def ranged : Module where
  name := "m"
  ports := []
  generics := [
    { name := "W", direction := some .into, dataType := "[\n7:0]", defaultValue := some "3" }]

/-- All between the brackets of a parameter is shown, and four rows are five lines. -/
theorem not_lines_range :
    ∃ module,
      parse "module m #(parameter [\n7:0] W = 3) ();\nendmodule\n" = .ok [module] ∧
      InLine (Path.toString ⟨["top.v"]⟩) ∧ (Report.rows ⟨["top.v"]⟩ [module]).length = 4 ∧
      pieces '\n' (Report.renderText [⟨⟨["top.v"]⟩, [.module module]⟩]).toList =
        ["top.v:".toList, "  module m".toList, "    parameters:".toList,
          "      W : in [".toList, "7:0] := 3".toList, []] := by
  refine ⟨ranged, ?_, ?_, ?_, ?_⟩ <;> decide +kernel

end

end VerilogInterface
