import VerilogInterface.Proofs.JsonReading
import VerilogInterface.Proofs.Markers
import VerilogInterface.Proofs.PathComponents
import VerilogInterface.Report

/-! Reports printed as JSON can be read back. Every field of a record is decoded from what it is
encoded as, and the paths and section counts that are written as texts keep what they say. -/

namespace VerilogInterface

namespace Path

theorem intercalate_pieces (characters : List Char) :
    "/".intercalate ((Text.pieces '/' characters).map String.ofList) =
      String.ofList characters := by
  induction characters with
  | nil => rfl
  | cons character rest ih =>
    obtain ⟨piece, others, found⟩ := List.exists_cons_of_ne_nil (Text.pieces_ne_nil '/' rest)
    have parted (behind : List Char) : String.ofList (character :: behind) =
        String.ofList [character] ++ String.ofList behind :=
      @String.ofList_append [character] behind
    rw [found, List.map_cons] at ih
    rw [Text.pieces, parted, ← ih]
    split
    · next same =>
      rw [same, found, List.map_cons, List.map_cons, String.intercalate_cons_cons]
      rfl
    · simp only [found, List.map_cons]
      rw [parted, String.intercalate_cons_append]

/-- A path is spelled as it was written. -/
theorem toString_ofString (spelling : String) : (ofString spelling).toString = spelling := by
  rw [toString, ofString, intercalate_pieces, String.ofList_toList]

end Path

namespace Sections

structure Counted (sections : Sections) : Prop where
  ascending : sections.Pairwise (·.1 < ·.1)
  small : ∀ entry ∈ sections, entry.1 ≤ 18446744073709551615

theorem put_of_lt {sections : Sections} {count : Nat} (behind : ∀ entry ∈ sections, entry.1 < count)
    (label : String) : sections.put count label = sections ++ [(count, label)] := by
  induction sections with
  | nil => rfl
  | cons first rest ih =>
    obtain ⟨before, others⟩ := List.forall_mem_cons.1 behind
    rw [put, if_neg (Nat.lt_asymm before), if_neg (Nat.ne_of_gt before), ih others,
      List.cons_append]

theorem ofMarkers_of_ascending {sections : Sections} (ascending : sections.Pairwise (·.1 < ·.1)) :
    ofMarkers sections = sections := by
  induction sections using List.reverseRecOn with
  | nil => rfl
  | append_singleton sections entry ih =>
    obtain ⟨earlier, _, before⟩ := List.pairwise_append.1 ascending
    rw [ofMarkers_concat, ih earlier, put_of_lt]
    intro other member
    exact before other member entry (List.mem_singleton_self entry)

end Sections

namespace Json

theorem toDigits_zero_cons {number : Nat} {rest : List Char}
    (zero : Nat.toDigits 10 number = '0' :: rest) : rest = [] := by
  rw [Nat.toDigits_eq_if (by decide)] at zero
  split at zero
  · exact (List.cons.inj zero).2.symm
  · next large =>
    obtain ⟨first, others, found⟩ :=
      List.exists_cons_of_ne_nil (@Nat.toDigits_ne_nil (number / 10) 10)
    rw [found, List.cons_append] at zero
    obtain ⟨rfl, _⟩ := List.cons.inj zero
    have single := toDigits_zero_cons found
    rw [single] at found
    have value := @Nat.ofDigitChars_ten_toDigits (number / 10)
    rw [found] at value
    have none : 0 = number / 10 := value
    omega
termination_by number
decreasing_by omega

theorem toCount?_decimal {number : Nat} (small : number ≤ 18446744073709551615) :
    toCount? (decimal number) = some number := by
  have digits : ∀ character ∈ Nat.toDigits 10 number, character.isDigit = true :=
    fun character member => Nat.isDigit_of_mem_toDigits (by decide) (by decide) member
  have value := @Nat.ofDigitChars_ten_toDigits number
  rw [Nat.ofDigitChars_eq_foldl] at value
  rw [toCount?, decimal, String.toList_ofList]
  split
  · next none => exact absurd none Nat.toDigits_ne_nil
  · next zero => cases toDigits_zero_cons zero
  · rw [if_pos (List.all_eq_true.2 digits), value]
    exact if_pos small

theorem mapM_encoded {encode : α → β} {decode : β → Option α} {items : List α}
    (decoded : ∀ item ∈ items, decode (encode item) = some item) :
    (items.map encode).mapM decode = some items := by
  induction items with
  | nil => rfl
  | cons item items ih =>
    obtain ⟨first, others⟩ := List.forall_mem_cons.1 decoded
    rw [List.map_cons, List.mapM_cons, first, ih others]
    rfl

theorem member?_of_mem {members : List (String × Json)} {entry : String × Json}
    (distinct : (members.map Prod.fst).Nodup) (member : entry ∈ members) :
    member? entry.1 members = some entry.2 := by
  induction members with
  | nil => cases member
  | cons first rest ih =>
    obtain ⟨apart, distinct⟩ := List.nodup_cons.1 distinct
    rw [member?]
    rcases List.mem_cons.1 member with rfl | later
    · exact if_pos rfl
    · have other : first.1 ≠ entry.1 := fun same => apart (same ▸ List.mem_map_of_mem later)
      rw [if_neg other]
      exact ih distinct later

/-- Members with different names are the fields of a record with these names. -/
theorem fields?_object {names : List String} {members : List (String × Json)}
    (listed : members.map Prod.fst = names) (distinct : names.Nodup) :
    fields? names (.object members) = some (members.map fun entry => some entry.2) := by
  subst listed
  rw [fields?, List.map_map]
  exact congrArg some (List.map_congr_left fun _ member => member?_of_mem distinct member)

theorem toOption?_ofOption {encode : α → Json} {decode : Json → Option α}
    (decoded : ∀ value, decode (encode value) = some value) (some : ∀ value, encode value ≠ .null)
    (value : Option α) : toOption? decode (ofOption encode value) = .some value := by
  cases value with
  | none => rfl
  | some value =>
    rw [ofOption, toOption?, decoded]
    · rfl
    · exact some value

theorem toText?_text (content : String) : toText? (.text content) = some content := rfl

theorem toTexts?_ofTexts (texts : List String) : toList? toText? (ofTexts texts) = some texts :=
  mapM_encoded fun _ _ => rfl

theorem toDirection?_keyword (direction : Direction) :
    toDirection? (.text direction.keyword) = some direction := by
  cases direction <;> rfl

theorem toParameter?_ofParameter (parameter : Parameter) :
    toParameter? (ofParameter parameter) = some parameter := by
  have direction := toOption?_ofOption toDirection?_keyword nofun parameter.direction
  have value := toOption?_ofOption toText?_text nofun parameter.defaultValue
  have description := toOption?_ofOption toTexts?_ofTexts nofun parameter.description
  have guard := toOption?_ofOption toText?_text nofun parameter.guard
  have fields : fields? ["name", "mode", "data_type", "default_value", "description", "define"]
      (ofParameter parameter) = some [some (.text parameter.name),
        some (ofOption (fun direction => .text direction.keyword) parameter.direction),
        some (.text parameter.dataType), some (ofOption .text parameter.defaultValue),
        some (ofOption ofTexts parameter.description), some (ofOption .text parameter.guard)] :=
    fields?_object rfl (by decide)
  simp [toParameter?, fields, required, optional, toText?, direction, value, description, guard]

theorem toSections?_ofSections {sections : Sections} (counted : sections.Counted) :
    toSections? (ofSections sections) = some sections := by
  have entries : (sections.map fun entry => (decimal entry.1, Json.text entry.2)).mapM
      (fun entry => do some (← toCount? entry.1, ← toText? entry.2)) = some sections := by
    apply mapM_encoded
    intro entry member
    simp [toCount?_decimal (counted.small entry member), toText?]
  have sorted := Sections.ofMarkers_of_ascending counted.ascending
  exact (congrArg (Option.map Sections.ofMarkers) entries).trans (congrArg some sorted)

theorem toModule?_ofModule {module : Module} (counted : module.sections.Counted) :
    toModule? (ofModule module) = some module := by
  have parameters (entries : List Parameter) :
      toList? toParameter? (.array (entries.map ofParameter)) = some entries :=
    mapM_encoded fun parameter _ => toParameter?_ofParameter parameter
  have description := toOption?_ofOption toTexts?_ofTexts nofun module.description
  have guard := toOption?_ofOption toText?_text nofun module.guard
  have fields : fields? ["name", "ports", "generics", "sections", "description", "define"]
      (ofModule module) = some [some (.text module.name),
        some (.array (module.ports.map ofParameter)),
        some (.array (module.generics.map ofParameter)), some (ofSections module.sections),
        some (ofOption ofTexts module.description), some (ofOption .text module.guard)] :=
    fields?_object rfl (by decide)
  simp [toModule?, fields, required, optional, toText?, parameters, toSections?_ofSections counted,
    description, guard]

end Json

/-- Only modules have sections. -/
def Object.Counted : Object → Prop
  | .module entry => entry.sections.Counted
  | .parameter _ => True

namespace Json

theorem toObject?_ofObject {object : Object} (counted : object.Counted) :
    toObject? (ofObject object) = some object := by
  cases object with
  | module entry => exact congrArg (Option.map _) (toModule?_ofModule counted)
  | parameter entry => exact congrArg (Option.map _) (toParameter?_ofParameter entry)

end Json

/-- A report as programs hold it: its path has a spelling, and its section counts are machine words
in ascending order. -/
structure Report.Held (report : Report) : Prop where
  spelled : ∃ spelling, report.path = Path.ofString spelling
  counted : ∀ object ∈ report.objects, object.Counted

namespace Json

theorem toReport?_ofReport {report : Report} (held : report.Held) :
    toReport? (ofReport report) = some report := by
  obtain ⟨path, objects⟩ := report
  obtain ⟨⟨spelling, rfl⟩, counted⟩ := held
  have decoded : toList? toObject? (.array (objects.map ofObject)) = some objects :=
    mapM_encoded fun object member => toObject?_ofObject (counted object member)
  have fields : fields? ["path", "objects"] (ofReport ⟨.ofString spelling, objects⟩) =
      some [some (.text (Path.ofString spelling).toString),
        some (.array (objects.map ofObject))] :=
    fields?_object rfl (by decide)
  simp [toReport?, fields, required, toText?, decoded, Path.toString_ofString]

namespace Reads

theorem option {encode : α → Json} (reads : ∀ value, Reads (encode value)) (value : Option α) :
    Reads (ofOption encode value) := by
  cases value with
  | none => exact null
  | some value => exact reads value

theorem list {encode : α → Json} (reads : ∀ value, Reads (encode value)) (values : List α) :
    Reads (.array (values.map encode)) :=
  array (List.forall_mem_map.2 fun value _ => reads value)

theorem parameter (entry : Parameter) : Reads (ofParameter entry) := by
  apply object
  simp only [List.forall_mem_cons, List.not_mem_nil, false_implies, implies_true, and_true]
  exact ⟨text _, option (fun _ => text _) _, text _, option text _, option (list text) _,
    option text _⟩

theorem module (entry : Module) : Reads (ofModule entry) := by
  have sections : Reads (ofSections entry.sections) :=
    object (List.forall_mem_map.2 fun _ _ => text _)
  apply object
  simp only [List.forall_mem_cons, List.not_mem_nil, false_implies, implies_true, and_true]
  exact ⟨text _, list parameter _, list parameter _, sections, option (list text) _,
    option text _⟩

theorem declaration (entry : Object) : Reads (ofObject entry) := by
  cases entry with
  | module entry => exact object (List.forall_mem_singleton.2 (module entry))
  | parameter entry => exact object (List.forall_mem_singleton.2 (parameter entry))

theorem report (report : Report) : Reads (ofReport report) := by
  apply object
  simp only [List.forall_mem_cons, List.not_mem_nil, false_implies, implies_true, and_true]
  exact ⟨text _, list declaration _⟩

end Reads

theorem toReports?_ofReports {reports : List Report} (held : ∀ report ∈ reports, report.Held) :
    toList? toReport? (.array (reports.map ofReport)) = some reports :=
  mapM_encoded fun report member => toReport?_ofReport (held report member)

end Json

namespace Report

/-- The document of a list of reports can be read, and what is read is those reports; so no other
reports have the same document. -/
theorem json_reads_back (reports : List Report) (held : ∀ report ∈ reports, report.Held) :
    (∃ document, Json.parse (render .json reports) = some document ∧
        Json.toList? Json.toReport? document = some reports) ∧
      ∀ others : List Report, (∀ report ∈ others, report.Held) →
        render .json others = render .json reports → others = reports := by
  have parsed (reports : List Report) : Json.parse (render .json reports) =
      some (.array (reports.map Json.ofReport)) :=
    Json.parse_pretty (.list Json.Reads.report reports)
  refine ⟨⟨_, parsed reports, Json.toReports?_ofReports held⟩, fun others held' same => ?_⟩
  have documents := (parsed others).symm.trans (same ▸ parsed reports)
  have decoded := Json.toReports?_ofReports held'
  rw [Option.some.inj documents, Json.toReports?_ofReports held] at decoded
  exact (Option.some.inj decoded).symm

/-- Quotation marks, backslashes, control characters and characters beyond ASCII in every place, the
largest count, and a path that is empty. -/
theorem json_reads_back_escaped :
    let clock : Parameter :=
      { name := "clk\"\\", direction := none, dataType := "\x00\x1f\x7f"
        defaultValue := some "é\t\r\n"
        description := some ["", "\\u0041 😀"], guard := some "`ifdef=A" }
    let reports : List Report :=
      [{ path := .ofString "rtl//\"top\"\n.v"
         objects := [
          .module { name := "\u2028", ports := [clock], generics := [clock, clock]
                    sections := [(0, "\x0c"), (18446744073709551615, "/\x08")]
                    description := some [] },
          .parameter clock] },
        { path := .ofString "", objects := [] }]
    (∀ report ∈ reports, report.Held) ∧
      (∃ document, Json.parse (render .json reports) = some document ∧
          Json.toList? Json.toReport? document = some reports) ∧
        ∀ others : List Report, (∀ report ∈ others, report.Held) →
          render .json others = render .json reports → others = reports := by
  intro clock reports
  have held : ∀ report ∈ reports, report.Held := by
    simp only [reports, List.forall_mem_cons, List.not_mem_nil, false_implies, implies_true,
      and_true]
    refine ⟨⟨⟨_, rfl⟩, List.forall_mem_cons.2 ⟨⟨by decide, by decide⟩, ?_⟩⟩, ⟨_, rfl⟩, nofun⟩
    exact List.forall_mem_singleton.2 trivial
  exact ⟨held, json_reads_back reports held⟩

end Report

end VerilogInterface
