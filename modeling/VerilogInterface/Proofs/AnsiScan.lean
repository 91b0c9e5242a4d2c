import VerilogInterface.Proofs.AnsiPatterns
import VerilogInterface.Proofs.Scanning

/-! The tokens of an interface. Each list is scanned item by item; an item leaves the scan in front
of the comma or the parenthesis behind it, or has taken the comma with it. -/

namespace VerilogInterface.Ansi

open Pattern Verilog Text

def Assignment.meaning (assignment : Assignment) : Meaning :=
  (.parameterItem, [some assignment.name.text, some assignment.value.text])

def Parameters.start (parameters : Parameters) : Meaning :=
  (.parameterStart,
    [parameters.qualifier.map (·.keyword), parameters.range.map (bracketed ·.text)])

def Parameters.meanings (parameters : Parameters) : List Meaning :=
  parameters.start :: (parameters.first :: parameters.others).map Assignment.meaning

def Ports.start (ports : Ports) : Meaning :=
  (.portStart, [some ports.direction.keyword, some (" " ++ ports.head)])

def nameMeaning (name : Identifier) : Meaning := (.portName, [some name.text])

def Ports.meanings (ports : Ports) : List Meaning := ports.start :: ports.others.map nameMeaning

def Interface.meanings (interface : Interface) : List Meaning :=
  (.moduleStart, [some interface.name.text]) ::
    (interface.parameters.flatMap Parameters.meanings ++
      interface.ports.flatMap Ports.meanings ++ [(.moduleEnd, [])])

variable {previous : Option Char} {rest closing : List Char} {mark : Char}

theorem scans_punctuation {sign : Char} (listed : sign ∈ ['#', '(', ')', ';']) (rest : List Char) :
    Scans (sign :: rest) [.module] [] rest [.module] := by
  -- No rule in front of the last one begins with any of these signs.
  have facts : (∀ rule ∈ moduleRules.take 12,
      rule.pattern.nullable = false ∧ rule.pattern.begins sign = false) ∧
      word.begins sign = false ∧ (Pattern.run isBlank).begins sign = false := by
    simp only [List.mem_cons, List.not_mem_nil, or_false] at listed
    rcases listed with rfl | rfl | rfl | rfl <;> decide
  obtain ⟨others, noWord, noBlank⟩ := facts
  have takes : anything.Prefers none [sign] rest [] :=
    .latter (.of_begins rfl noWord) (.latter (.of_begins rfl noBlank) (.one rfl))
  exact .of_rule 12 rfl (bars_of_begins others rest) takes nofun rfl rfl rfl

theorem scans_blank {blank : Char} (listed : blank ∈ [' ', '\n']) (ends : Ends isBlank rest) :
    Scans (blank :: rest) [.module] [] rest [.module] := by
  have facts : (∀ rule ∈ moduleRules.take 12,
      rule.pattern.nullable = false ∧ rule.pattern.begins blank = false) ∧
      word.begins blank = false ∧ isBlank blank = true := by
    simp only [List.mem_cons, List.not_mem_nil, or_false] at listed
    rcases listed with rfl | rfl <;> decide
  obtain ⟨others, noWord, accepted⟩ := facts
  have takes : anything.Prefers none [blank] rest [] :=
    .latter (.of_begins rfl noWord) (.former (.run nofun (by simpa using accepted) ends))
  exact .of_rule 12 rfl (bars_of_begins others rest) takes nofun rfl rfl rfl

def insideParameters : List State := [.parameters, .module]

def insidePorts : List State := [.modulePort, .module]

def furtherItems (items : List String) : List Char :=
  items.flatMap fun item => ',' :: ' ' :: item.toList

theorem furtherItems_cons (item : String) (items : List String) (rest : List Char) :
    furtherItems (item :: items) ++ rest =
      ',' :: ' ' :: item.toList ++ (furtherItems items ++ rest) := by
  simp [furtherItems]

theorem furtherItems_append (first second : List String) (rest : List Char) :
    furtherItems (first ++ second) ++ rest =
      furtherItems first ++ (furtherItems second ++ rest) := by
  simp [furtherItems]

theorem toList_intercalate (item : String) (items : List String) :
    (", ".intercalate (item :: items)).toList = item.toList ++ furtherItems items := by
  induction items generalizing item with
  | nil => simp [furtherItems]
  | cons next items ih =>
    rw [String.intercalate_cons_cons, String.toList_append, String.toList_append, ih]
    simp [furtherItems]

theorem furtherItems_mark (items : List String) (marks : Marks mark) (rest : List Char) :
    ∃ next behind, furtherItems items ++ mark :: rest = next :: behind ∧ Marks next := by
  cases items with
  | nil => exact ⟨mark, rest, rfl, marks⟩
  | cons item items => exact ⟨',', _, furtherItems_cons item items _, .inl rfl⟩

theorem guards_bar {first : Char} (other : first ≠ '`') (rest : List Char) :
    ∀ rule ∈ guards, rule.pattern.Bars (first :: rest) := by
  apply bars_of_begins
  intro rule member
  simp only [guards, List.mem_cons, List.not_mem_nil, or_false] at member
  rcases member with rfl | rfl
  all_goals refine ⟨rfl, ?_⟩
  · simp [guardEnter, Pattern.sequence, oneOf, exactly, Pattern.begins, Pattern.nullable, other.symm]
  · simp [guardExit, Pattern.sequence, exactly, Pattern.begins, Pattern.nullable, other.symm]

/-- Neither a guard nor a list begins with a name, be it with a space in front or without. -/
theorem name_bars {gap : List Char} {head : Pattern} (space : gap = [] ∨ gap = [' '])
    (name : Identifier) (some : head.nullable = false)
    (solid : ∀ blank, isBlank blank = true → head.begins blank = false)
    (bars : head.Bars (name.text.toList ++ rest)) (action : Action) :
    ∀ rule ∈ guards ++ [⟨.andThen blanks head, action, none⟩],
      rule.pattern.Bars (gap ++ (name.text.toList ++ rest)) := by
  obtain ⟨first, others, same, net⟩ := name.exists_cons
  have guarded : ∀ rule ∈ guards, rule.pattern.Bars (gap ++ (name.text.toList ++ rest)) := by
    rcases space with rfl | rfl
    · rw [same]
      refine guards_bar ?_ _
      have letter := @Identifier.alphanumeric name first (by simp [same])
      rintro rfl
      exact absurd letter (by decide)
    · exact guards_bar (by decide) _
  have listed : (Pattern.andThen blanks head).Bars (gap ++ (name.text.toList ++ rest)) := by
    have blank : ∀ character ∈ gap, isBlank character = true := by
      rcases space with rfl | rfl
      · exact nofun
      · exact List.all_eq_true.1 (by decide)
    exact .blanks blank (endsBlanks_identifier name rest) some solid bars
  intro rule member
  rcases List.mem_append.1 member with guard | head
  · exact guarded rule guard
  · cases List.mem_singleton.1 head
    exact listed

theorem scans_assignment {gap : List Char} (space : gap = [] ∨ gap = [' '])
    (assignment : Assignment) (marks : Marks mark) (rest : List Char) :
    Scans (gap ++ (assignment.text.toList ++ mark :: rest)) insideParameters [assignment.meaning]
      (mark :: rest) insideParameters := by
  have name : assignment.text.toList ++ mark :: rest = assignment.name.text.toList ++
      ' ' :: '=' :: ' ' :: (assignment.value.text.toList ++ mark :: rest) := by
    simp [Assignment.text]
  have some : gap ++ assignment.text.toList ≠ [] := by
    simp [Assignment.text, assignment.name.nonempty]
  refine .of_rule 3 rfl ?_ (parameterItem_prefers space assignment marks rest) some
    (by simp) rfl rfl
  rw [name]
  have solid : ∀ blank, isBlank blank = true → parameterHead.begins blank = false := by
    intro blank accepted
    have other : 'p' ≠ blank := by
      rintro rfl
      exact absurd accepted (by decide)
    simp [parameterHead, Pattern.sequence, exactly, Pattern.begins, Pattern.nullable, other]
  exact name_bars space assignment.name rfl solid
    (parameterHead_bars assignment.name (.cons (by decide) _)) .parameterStart

/-- In both kinds of lists a comma goes on with the list. -/
theorem scans_comma {inside : List State} (listed : inside ∈ [insideParameters, insidePorts])
    (rest : List Char) : Scans (',' :: rest) inside [] rest inside := by
  have takes : separator.Prefers none [','] rest [] :=
    .chain (prefers_no_blank (endsBlanks_mark (.inl rfl) rest)) .literal rfl
  simp only [List.mem_cons, List.not_mem_nil, or_false] at listed
  rcases listed with rfl | rfl
  · exact .of_rule 4 rfl (bars_of_begins (by decide) rest) takes nofun rfl rfl rfl
  · exact .of_rule 4 rfl (bars_of_begins (by decide) rest) takes nofun rfl rfl rfl

/-- In both kinds of lists a parenthesis returns to the module. -/
theorem scans_end {inside : List State} (listed : inside ∈ [insideParameters, insidePorts])
    (rest : List Char) : Scans (')' :: rest) inside [] rest [.module] := by
  have takes : listEnd.Prefers none [')'] rest [] :=
    .chain (prefers_no_blank (endsBlanks_mark (.inr rfl) rest)) (.one rfl) rfl
  simp only [List.mem_cons, List.not_mem_nil, or_false] at listed
  rcases listed with rfl | rfl
  · exact .of_rule 5 rfl (bars_of_begins (by decide) rest) takes nofun rfl rfl rfl
  · exact .of_rule 5 rfl (bars_of_begins (by decide) rest) takes nofun rfl rfl rfl

theorem scans_assignments (assignments : List Assignment) (marks : Marks mark) (rest : List Char) :
    Scans (furtherItems (assignments.map (·.text)) ++ mark :: rest) insideParameters
      (assignments.map Assignment.meaning) (mark :: rest) insideParameters := by
  induction assignments with
  | nil => exact .refl _ _
  | cons assignment assignments ih =>
    obtain ⟨next, behind, same, later⟩ :=
      furtherItems_mark (assignments.map (·.text)) marks rest
    have here := scans_assignment (.inr rfl) assignment later behind
    rw [← same] at here
    rw [List.map_cons, furtherItems_cons]
    exact (scans_comma (by simp) _).trans (here.trans ih)

theorem scans_parameters (parameters : Parameters) (marks : Marks mark) (rest : List Char) :
    Scans (parameters.gap ++ (parameters.first.text.toList ++
        (furtherItems (parameters.others.map (·.text)) ++ mark :: rest))) insideParameters
      ((parameters.first :: parameters.others).map Assignment.meaning) (mark :: rest)
      insideParameters := by
  have space : parameters.gap = [] ∨ parameters.gap = [' '] := by
    unfold Parameters.gap
    split
    · exact .inr rfl
    · exact .inl rfl
  obtain ⟨next, behind, same, later⟩ :=
    furtherItems_mark (parameters.others.map (·.text)) marks rest
  have first := scans_assignment space parameters.first later behind
  rw [← same] at first
  exact first.trans (scans_assignments parameters.others marks rest)

theorem opening_begins (parameters : Parameters) :
    ∃ others, parameters.opening = 'p' :: others := ⟨_, rfl⟩

theorem parameterStart_prefers (parameters : Parameters) (rest : List Char) :
    parameterHead.Prefers previous parameters.opening
      (parameters.gap ++ (parameters.first.text.toList ++ rest)) parameters.writes := by
  have head := @parameterHead_prefers previous parameters
    ('=' :: ' ' :: (parameters.first.value.text.toList ++ rest))
  simpa [Assignment.text] using head

theorem writes_apply (parameters : Parameters) :
    parameters.writes.apply [none, none] = parameters.start.2 := by
  unfold Parameters.writes Parameters.qualifierWrites Parameters.rangeWrites Parameters.start
  cases parameters.qualifier <;> cases parameters.range <;> rfl

theorem scans_opening (parameters : Parameters) (rest : List Char) :
    Scans (parameters.opening ++ (parameters.gap ++ (parameters.first.text.toList ++ rest)))
      [.module] [parameters.start]
      (parameters.gap ++ (parameters.first.text.toList ++ rest)) insideParameters := by
  obtain ⟨others, begins⟩ := opening_begins parameters
  refine .of_rule 5 rfl ?_ (parameterStart_prefers parameters rest) (by simp [begins]) rfl rfl ?_
  · rw [begins]
    exact bars_of_begins (by decide) _
  · exact congrArg (fun groups => [(Action.parameterStart, groups)]) (writes_apply parameters)

theorem scans_heading (parameters : Parameters) (rest : List Char) :
    Scans (' ' :: parameters.opening ++ (parameters.gap ++ (parameters.first.text.toList ++ rest)))
      insideParameters [parameters.start]
      (parameters.gap ++ (parameters.first.text.toList ++ rest)) insideParameters := by
  obtain ⟨others, begins⟩ := opening_begins parameters
  have solid (rest : List Char) : Ends isBlank (parameters.opening ++ rest) := by
    rw [begins]
    exact .cons (by decide) _
  refine .of_rule 2 rfl (bars_of_begins (by decide) _)
    (.chain (prefers_space (solid _)) (parameterStart_prefers parameters rest) rfl) nofun rfl rfl ?_
  exact congrArg (fun groups => [(Action.parameterStart, groups)]) (writes_apply parameters)

theorem scans_headings (groups : List Parameters) (rest : List Char) :
    Scans (furtherItems (groups.flatMap Parameters.items) ++ ')' :: rest) insideParameters
      (groups.flatMap Parameters.meanings) (')' :: rest) insideParameters := by
  induction groups with
  | nil => exact .refl _ _
  | cons parameters groups ih =>
    obtain ⟨next, behind, same, later⟩ :=
      furtherItems_mark (groups.flatMap Parameters.items) (.inr rfl) rest
    have here := (scans_heading parameters _).trans (scans_parameters parameters later behind)
    rw [← same] at here
    have text : furtherItems ((parameters :: groups).flatMap Parameters.items) ++ ')' :: rest =
        ',' :: (' ' :: parameters.opening ++ (parameters.gap ++ (parameters.first.text.toList ++
          (furtherItems (parameters.others.map (·.text)) ++
            (furtherItems (groups.flatMap Parameters.items) ++ ')' :: rest))))) := by
      rw [List.flatMap_cons, furtherItems_append, Parameters.items, furtherItems_cons]
      simp [Parameters.toList_head]
    rw [text]
    exact (scans_comma (by simp) _).trans (here.trans ih)

/-- The item has this meaning behind the space that sets it off from the item before it. -/
def Reads (item : String) (meaning : Meaning) : Prop :=
  ∀ closing rest, Closes closing rest →
    Scans (' ' :: item.toList ++ closing ++ rest) insidePorts [meaning] rest insidePorts

theorem reads_name (name : Identifier) : Reads name.text (nameMeaning name) := by
  intro closing rest closes
  have edge : Ends isWord (closing ++ rest) := closes.ends (by decide) (by decide)
  have solid : ∀ blank, isBlank blank = true →
      (Pattern.sequence [portHead, blanks, optional (symbol ',')]).begins blank = false := by
    intro blank accepted
    have other : 'i' ≠ blank ∧ 'o' ≠ blank := by
      constructor <;> rintro rfl <;> exact absurd accepted (by decide)
    simp [portHead, Pattern.sequence, oneOf, exactly, Pattern.begins, Pattern.nullable, other]
  have bars := name_bars (.inr rfl) name rfl solid (.of_first (portHead_bars name edge)) .portStart
  have text : ' ' :: name.text.toList ++ closing ++ rest =
      [' '] ++ (name.text.toList ++ (closing ++ rest)) := by simp
  exact .of_rule 3 rfl (text ▸ bars) (portName_prefers name closes)
    (List.cons_ne_nil _ _) rfl rfl rfl

theorem reads_start (ports : Ports) :
    Reads (ports.direction.keyword ++ " " ++ ports.head) ports.start := by
  intro closing rest closes
  refine .of_rule 2 rfl (bars_of_begins (by decide) _) (portStart_prefers ports closes) nofun
    (by simp) rfl rfl

def Ports.readings (ports : Ports) : List (String × Meaning) :=
  (ports.direction.keyword ++ " " ++ ports.head, ports.start) ::
    ports.others.map fun name => (name.text, nameMeaning name)

theorem items_readings (groups : List Ports) :
    groups.flatMap Ports.items = (groups.flatMap Ports.readings).map (·.1) := by
  induction groups with
  | nil => rfl
  | cons ports groups ih => simp [ih, Ports.items, Ports.readings, Function.comp_def]

theorem meanings_readings (groups : List Ports) :
    groups.flatMap Ports.meanings = (groups.flatMap Ports.readings).map (·.2) := by
  induction groups with
  | nil => rfl
  | cons ports groups ih => simp [ih, Ports.meanings, Ports.readings, Function.comp_def]

theorem reads_readings (groups : List Ports) :
    ∀ reading ∈ groups.flatMap Ports.readings, Reads reading.1 reading.2 := by
  intro reading member
  obtain ⟨ports, _, inside⟩ := List.mem_flatMap.1 member
  rcases List.mem_cons.1 inside with rfl | other
  · exact reads_start ports
  · obtain ⟨name, _, rfl⟩ := List.mem_map.1 other
    exact reads_name name

/-- A row of items takes every comma between them. -/
theorem scans_row {readings : List (String × Meaning)}
    (reads : ∀ reading ∈ readings, Reads reading.1 reading.2) (item : String) (meaning : Meaning)
    (first : Reads item meaning) (rest : List Char) :
    Scans (' ' :: item.toList ++ (furtherItems (readings.map (·.1)) ++ ')' :: rest)) insidePorts
      (meaning :: readings.map (·.2)) (')' :: rest) insidePorts := by
  -- Each item takes the comma in front of the next one, only the last has none to take.
  induction readings generalizing item meaning with
  | nil =>
    have last := first [] _ (.last rest)
    rwa [List.append_nil] at last
  | cons reading readings ih =>
    obtain ⟨here, later⟩ := List.forall_mem_cons.1 reads
    have one := first [','] (' ' :: reading.1.toList ++
      (furtherItems (readings.map (·.1)) ++ ')' :: rest)) (.comma _)
    have text : furtherItems ((reading :: readings).map (·.1)) ++ ')' :: rest =
        [','] ++ (' ' :: reading.1.toList ++
          (furtherItems (readings.map (·.1)) ++ ')' :: rest)) := by
      rw [List.map_cons, furtherItems_cons]
      rfl
    rw [text, ← List.append_assoc]
    exact one.trans (ih later reading.1 reading.2 here)

/-- Behind the first item there is one more comma to take. -/
theorem scans_further {readings : List (String × Meaning)}
    (reads : ∀ reading ∈ readings, Reads reading.1 reading.2) (rest : List Char) :
    Scans (furtherItems (readings.map (·.1)) ++ ')' :: rest) insidePorts (readings.map (·.2))
      (')' :: rest) insidePorts := by
  cases readings with
  | nil => exact .refl _ _
  | cons reading readings =>
    obtain ⟨here, later⟩ := List.forall_mem_cons.1 reads
    rw [List.map_cons, furtherItems_cons]
    exact (scans_comma (by simp) _).trans (scans_row later reading.1 reading.2 here rest)

theorem scans_direction (ports : Ports) (marks : Marks mark) (rest : List Char) :
    Scans ((ports.direction.keyword ++ " " ++ ports.head).toList ++ mark :: rest) [.module]
      [ports.start] (mark :: rest) insidePorts := by
  have text : (ports.direction.keyword ++ " " ++ ports.head).toList =
      ports.direction.keyword.toList ++ ' ' :: ports.head.toList := by simp
  have bars : ∀ rule ∈ moduleRules.take 6, rule.pattern.Bars
      (ports.direction.keyword.toList ++ ' ' :: ports.head.toList ++ mark :: rest) := by
    cases ports.direction with
    | into | input | inout => exact bars_of_begins (by decide) _
    | output => exact bars_of_begins (by decide) _
  have head := @portHead_prefers none _ ports (marks.ends (by decide) (by decide) rest)
  rw [text]
  exact .of_rule 6 rfl bars head (by simp) rfl rfl rfl

theorem scans_ports (groups : List Ports) (rest : List Char) :
    Scans ((", ".intercalate (groups.flatMap Ports.items)).toList ++ ')' :: rest) [.module]
      (groups.flatMap Ports.meanings) rest [.module] := by
  have reads := reads_readings groups
  rw [items_readings, meanings_readings]
  cases groups with
  | nil => exact scans_punctuation (by decide) rest
  | cons ports groups =>
    have split : (ports :: groups).flatMap Ports.readings =
        (ports.direction.keyword ++ " " ++ ports.head, ports.start) ::
          ((ports.others.map fun name => (name.text, nameMeaning name)) ++
            groups.flatMap Ports.readings) := rfl
    rw [split] at reads ⊢
    generalize (ports.others.map fun name => (name.text, nameMeaning name)) ++
      groups.flatMap Ports.readings = further at reads ⊢
    obtain ⟨mark, behind, same, marks⟩ := furtherItems_mark (further.map (·.1)) (.inr rfl) rest
    have head := scans_direction ports marks behind
    rw [← same] at head
    have listed := head.trans (scans_further (List.forall_mem_cons.1 reads).2 rest)
    have whole := listed.trans (scans_end (by simp) rest)
    rw [List.append_nil] at whole
    rwa [List.map_cons, toList_intercalate, List.append_assoc]

theorem scans_parameterText (interface : Interface) (rest : List Char) :
    Scans (interface.parameterText.toList ++ '(' :: rest) [.module]
      (interface.parameters.flatMap Parameters.meanings) ('(' :: rest) [.module] := by
  unfold Interface.parameterText
  cases interface.parameters with
  | nil => exact .refl _ _
  | cons parameters groups =>
    obtain ⟨mark, behind, same, marks⟩ := furtherItems_mark (groups.flatMap Parameters.items)
      (.inr rfl) (' ' :: '(' :: rest)
    have first := (scans_opening parameters _).trans (scans_parameters parameters marks behind)
    rw [← same] at first
    have blank : Ends isBlank ('(' :: rest) := .cons (by decide) _
    have listed := (first.trans (scans_headings groups _)).trans (scans_end (by simp) _)
    have behindList := listed.trans (scans_blank (by decide) blank)
    have opened := (@scans_punctuation '(' (by decide) _).trans behindList
    have whole := (@scans_punctuation '#' (by decide) _).trans opened
    have text : ("#(" ++ ", ".intercalate ((parameters :: groups).flatMap Parameters.items) ++
        ") ").toList ++ '(' :: rest = '#' :: '(' :: (parameters.opening ++ (parameters.gap ++
          (parameters.first.text.toList ++ (furtherItems (parameters.others.map (·.text)) ++
            (furtherItems (groups.flatMap Parameters.items) ++ ')' :: ' ' :: '(' :: rest))))) := by
      have items : (parameters :: groups).flatMap Parameters.items =
          (parameters.head ++ parameters.first.text) ::
            (parameters.others.map (·.text) ++ groups.flatMap Parameters.items) := rfl
      rw [items, String.toList_append, String.toList_append, toList_intercalate]
      simp [Parameters.toList_head, furtherItems]
    rw [text]
    simpa [Parameters.meanings] using whole

theorem scans_moduleStart (name : Identifier) (ends : Ends isBlank rest) :
    Scans ("module ".toList ++ name.text.toList ++ [' '] ++ rest) []
      [(.moduleStart, [some name.text])] rest [.module] :=
  .of_rule 2 rfl (bars_of_begins (by decide) _) (moduleStart_prefers name ends) nofun rfl rfl rfl

theorem scans_moduleEnd (rest : List Char) :
    Scans ("endmodule".toList ++ '\n' :: rest) [.module] [(.moduleEnd, [])] ('\n' :: rest) [] :=
  .of_rule 7 rfl (bars_of_begins (by decide) _)
    (moduleEnd_prefers (.cons (by decide) rest)) nofun rfl rfl rfl

theorem scans_lineBreak : Scans ['\n'] [] [] [] [] := by
  have takes : anything.Prefers none ['\n'] [] [] :=
    .latter (.of_begins rfl (by decide)) (.former (.run nofun (List.all_eq_true.1 (by decide)) nofun))
  exact .of_rule 6 rfl (bars_of_begins (by decide) _) takes nofun rfl rfl rfl

theorem parameterText_begins (interface : Interface) (rest : List Char) :
    Ends isBlank (interface.parameterText.toList ++ '(' :: rest) := by
  unfold Interface.parameterText
  cases interface.parameters with
  | nil => exact .cons (by decide) _
  | cons parameters groups =>
    simp only [String.toList_append]
    exact .cons (by decide) _

/-- The scan of an interface finds what is written, and nothing else. -/
theorem tokens_text (interface : Interface) :
    (tokens interface.text).map Token.meaning = interface.meanings ∧
      ending interface.text = .complete := by
  apply Scans.tokens_eq
  have text : interface.text.toList =
      "module ".toList ++ interface.name.text.toList ++ [' '] ++
        (interface.parameterText.toList ++ '(' ::
          ((", ".intercalate (interface.ports.flatMap Ports.items)).toList ++
            ')' :: ';' :: '\n' :: ("endmodule".toList ++ ['\n']))) := by
    simp [Interface.text]
  rw [text]
  have solid : Ends isBlank ("endmodule".toList ++ ['\n']) := .cons (by decide) _
  have ended := (scans_moduleEnd []).trans scans_lineBreak
  have last := (@scans_blank _ '\n' (by decide) solid).trans ended
  have closed := (@scans_punctuation ';' (by decide) _).trans last
  have ports := (scans_ports interface.ports _).trans closed
  have opened := (@scans_punctuation '(' (by decide) _).trans ports
  have parameters := (scans_parameterText interface _).trans opened
  have whole :=
    (scans_moduleStart interface.name (parameterText_begins interface _)).trans parameters
  simpa [Interface.meanings] using whole

end VerilogInterface.Ansi
