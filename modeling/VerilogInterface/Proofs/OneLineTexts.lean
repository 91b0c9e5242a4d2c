import VerilogInterface.Proofs.FormedRecords
import VerilogInterface.Proofs.SectionLabels

/-! Texts on one line. Nothing that a module keeps of its source goes over lines, with one exception:
the range of a parameter list is all between its brackets, and only its ends are trimmed. A head of
ports may begin on the line below its direction, but no bracket stands in front of that break. -/

namespace VerilogInterface

open Text

namespace Text.InLine

variable {one two text : String}

theorem append_iff : InLine (one ++ two) ↔ InLine one ∧ InLine two := by
  rw [InLine, String.toList_append, List.mem_append]
  exact not_or

theorem append (first : InLine one) (second : InLine two) : InLine (one ++ two) :=
  append_iff.2 ⟨first, second⟩

theorem intercalate {texts : List String} (all : ∀ text ∈ texts, InLine text) :
    InLine (" ".intercalate texts) := by
  cases texts with
  | nil => exact List.not_mem_nil
  | cons first others =>
    induction others generalizing first with
    | nil => simpa using all first List.mem_cons_self
    | cons second others ih =>
      obtain ⟨here, later⟩ := List.forall_mem_cons.1 all
      have space : InLine " " := by decide
      rw [String.intercalate_cons_cons]
      exact (here.append space).append (ih second later)

theorem trim (inLine : InLine text) : InLine (Text.trim text) := by
  obtain ⟨before, after, split, _⟩ := exists_trim text.toList
  rw [InLine, Text.trim, String.toList_ofList]
  intro member
  apply inLine
  rw [split]
  exact List.mem_append_left _ (List.mem_append_right _ member)

end Text.InLine

namespace PortHead

variable {characters : List Char} {head : PortHead}

theorem inLine_phrase {found : String} (phrased : phrase characters = some found) :
    InLine found := by
  rw [phrase_eq] at phrased
  split at phrased
  · contradiction
  · rw [← Option.some.inj phrased]
    refine InLine.intercalate fun text member => ?_
    obtain ⟨word, listed, rfl⟩ := List.mem_map.1 member
    rw [InLine, String.toList_ofList]
    intro inside
    have plain := plain_of_mem_wordRuns listed '\n' inside
    contradiction

theorem inLine_bracketed (inLine : '\n' ∉ characters) : InLine (bracketed characters) := by
  have inner : InLine (Text.trim (String.ofList characters)) := by
    apply InLine.trim
    rwa [InLine, String.toList_ofList]
  rw [InLine, Text.trim, String.toList_ofList, String.toList_ofList] at inner
  simp [InLine, bracketed, inner]

def BreaksFirst (characters : List Char) : Prop :=
  ∀ before after, characters = before ++ '\n' :: after → '[' ∉ before

theorem BreaksFirst.inLine {front range after : List Char}
    (breaks : BreaksFirst (front ++ '[' :: range ++ after)) : '\n' ∉ range := by
  intro member
  obtain ⟨before, behind, rfl⟩ := List.append_of_mem member
  refine breaks (front ++ '[' :: before) (behind ++ after) (by simp) ?_
  simp

theorem inLine_dataType (net : ∀ found ∈ head.netType, InLine found)
    (range : ∀ found ∈ head.range, InLine found) (array : ∀ found ∈ head.array, InLine found) :
    InLine head.dataType := by
  have pieces : InLine (" ".intercalate (head.netType.toList ++ head.range.toList)) := by
    refine InLine.intercalate fun text member => ?_
    rcases List.mem_append.1 member with inNet | inRange
    · exact net text (Option.mem_toList.1 inNet)
    · exact range text (Option.mem_toList.1 inRange)
  refine pieces.append ?_
  cases found : head.array with
  | none => exact List.not_mem_nil
  | some array' => exact array array' found

theorem inLine_some {found : String} (inLine : InLine found) :
    ∀ other ∈ some found, InLine other := by
  intro other same
  exact Option.some.inj same ▸ inLine

/-- The type and the name of a head are on one line if its brackets are behind its line breaks. -/
theorem Spelled.inLine (spelled : Spelled characters head) (breaks : BreaksFirst characters) :
    InLine head.dataType ∧ ∀ name ∈ head.name, InLine name := by
  have phrased {characters : List Char} : ∀ found ∈ phrase characters, InLine found :=
    fun found same => inLine_phrase same
  have absent : ∀ found ∈ (none : Option String), InLine found := by simp
  cases spelled with
  | words outside =>
    obtain ⟨net, name, _, _, _, made⟩ := exists_ofWords outside
    rw [made]
    exact ⟨inLine_dataType phrased absent absent, phrased⟩
  | @ranged net range after outside opens closes outside' =>
    have inside := inLine_some (inLine_bracketed breaks.inLine)
    exact ⟨inLine_dataType phrased inside absent, phrased⟩
  | @arrayed net range between array after outside opens closes outside' opens' closes' outside'' =>
    have first : BreaksFirst (net ++ '[' :: range ++
        (']' :: between ++ '[' :: array ++ ']' :: after)) := by simpa using breaks
    have second : BreaksFirst ((net ++ '[' :: range ++ ']' :: between) ++ '[' :: array ++
        (']' :: after)) := by simpa using breaks
    have inside := inLine_some (inLine_bracketed first.inLine)
    have inside' := inLine_some (inLine_bracketed second.inLine)
    refine ⟨inLine_dataType phrased inside inside', fun name named => ?_⟩
    rcases Option.or_eq_some_iff.1 named with before | ⟨_, behind⟩
    · exact phrased name before
    · exact phrased name behind

end PortHead

section

variable {text : String} {token : Token}

theorem breaksFirst_group (member : token ∈ tokens text) (opens : token.action = .portStart) :
    PortHead.BreaksFirst (token.group 1).toList := by
  obtain ⟨direction, head, _, groups⟩ := portStart_groups member opens
  have captured : token.group? 1 = some head := by
    rw [Token.group?, groups]
    rfl
  obtain ⟨body, around, _, _, _, takes⟩ := Token.exists_body member captured
  have never : ∀ body ∈ Verilog.bodiesFor .portStart 1, body.beforeBreak '[' = false := by decide
  intro before after split bracket
  rw [Token.group, captured, Option.getD_some, List.append_cons] at split
  have may := takes.beforeBreak split List.getLast?_concat (List.mem_append_left _ bracket)
  rw [never body (opens ▸ around)] at may
  contradiction

theorem inLine_declares {name : String} (member : token ∈ tokens text)
    (declares : token.declares? = some name) : InLine name := by
  unfold Token.declares? at declares
  split at declares
  · next action =>
    rw [← Option.some.inj declares]
    exact Token.inLine_group member (by rw [action]; decide)
  · next opens =>
    obtain ⟨head, read, named⟩ := Option.bind_eq_some_iff.1 declares
    have spelled := PortHead.spelled_of_parse read
    exact (spelled.inLine (breaksFirst_group member opens)).2 name named
  · contradiction

theorem inLine_guard (member : token ∈ tokens text) (enters : token.action = .guardEnter) :
    InLine token.guard := by
  have directive : InLine (token.group 0) := Token.inLine_group member (by rw [enters]; decide)
  have tested : InLine (token.group 1) := Token.inLine_group member (by rw [enters]; decide)
  have equals : InLine "=" := by decide
  exact (directive.append equals).append tested

variable {part : List Token} (listed : ∀ token ∈ part, token ∈ tokens text)
include listed

theorem inLine_openGuards : ∀ guard ∈ openGuards part, InLine guard := by
  induction part using List.reverseRecOn with
  | nil => exact fun _ absent => absurd absent List.not_mem_nil
  | append_singleton part token ih =>
    obtain ⟨earlier, last⟩ := List.forall_mem_append.1 listed
    have outer := ih earlier
    rw [openGuards_concat]
    unfold Token.guards
    split
    · next enters =>
      exact List.forall_mem_cons.2 ⟨inLine_guard (last token List.mem_cons_self) enters, outer⟩
    · exact fun guard member => outer guard (List.mem_of_mem_tail member)
    · exact outer

theorem inLine_documentationLines : ∀ line ∈ documentationLines part, InLine line := by
  intro line member
  obtain ⟨token, marked, rfl⟩ := List.mem_map.1 member
  obtain ⟨inside, documents⟩ := List.mem_filter.1 marked
  exact (Token.inLine_group (listed token inside) (by rw [eq_of_beq documents]; decide)).trim

end

/-- The declaration keeps nothing over lines, its type left aside. -/
structure Parameter.OneLine (entry : Parameter) : Prop where
  name : InLine entry.name
  value : ∀ value ∈ entry.defaultValue, InLine value
  description : ∀ lines ∈ entry.description, ∀ line ∈ lines, InLine line
  guard : ∀ guard ∈ entry.guard, InLine guard

structure Module.OneLine (module : Module) : Prop where
  name : InLine module.name
  guard : ∀ guard ∈ module.guard, InLine guard
  description : ∀ lines ∈ module.description, ∀ line ∈ lines, InLine line
  labels : ∀ entry ∈ module.sections, InLine entry.2
  ports : ∀ port ∈ module.ports, port.OneLine ∧ InLine port.dataType
  generics : ∀ generic ∈ module.generics, generic.OneLine

section

variable {text : String} {modules : List Module} {index : Nat} {span : Span} {place : Place}

/-- The tokens around a place of a span are tokens of the text. -/
theorem Span.Within.listed {listed : List Token} (within : span.Within listed index)
    (member : place ∈ span.places) :
    (∀ token ∈ place.before, token ∈ listed) ∧ place.token ∈ listed ∧
      ∀ token ∈ place.after, token ∈ listed := by
  obtain ⟨after, split⟩ := within.split
  obtain ⟨earlier, before, body⟩ := mem_placesFrom.1 member
  rw [split, Span.tokens, body, before]
  refine ⟨fun token inside => ?_, by simp, fun token inside => by simp [inside]⟩
  rcases List.mem_append.1 inside with front | within
  · rw [List.append_assoc, List.append_assoc]
    exact List.mem_append_left _ front
  · simp [within]

theorem Place.oneLine_frame (within : span.Within (tokens text) index)
    (member : place ∈ span.places) :
    (∀ lines ∈ place.description?, ∀ line ∈ lines, InLine line) ∧
      ∀ guard ∈ (openGuards place.before).head?, InLine guard := by
  obtain ⟨before, _, after⟩ := within.listed member
  constructor
  · intro lines described line listed
    obtain ⟨last, final, rfl⟩ := Option.map_eq_some_iff.1 described
    obtain rfl := List.mem_singleton.1 listed
    refine inLine_documentationLines (fun token inside => after token ?_) line
      (List.mem_of_getLast? final)
    exact (List.takeWhile_prefix _).subset inside
  · intro guard head
    exact inLine_openGuards before guard (List.mem_of_head? head)

theorem Place.oneLine_generic (within : span.Within (tokens text) index)
    (member : place ∈ span.places) (action : place.token.action = .parameterItem) :
    place.generic.OneLine := by
  obtain ⟨description, guard⟩ := Place.oneLine_frame within member
  obtain ⟨_, listed, _⟩ := within.listed member
  refine ⟨Token.inLine_group listed (by rw [action]; decide), fun value same => ?_, description,
    guard⟩
  rw [← Option.some.inj same]
  exact Token.inLine_group listed (by rw [action]; decide)

theorem Place.oneLine_port (parsed : parse text = .ok modules)
    (within : span.Within (tokens text) index) (member : place ∈ span.places) {name : String}
    (declares : place.token.declares? = some name) :
    (place.port name).OneLine ∧ InLine (place.port name).dataType := by
  obtain ⟨description, guard⟩ := Place.oneLine_frame within member
  obtain ⟨before, listed, _⟩ := within.listed member
  obtain ⟨_, ⟨head, _, _, found, _, _, read, _, dataType⟩, _⟩ :=
    Place.declaresPort parsed within member declares
  refine ⟨⟨inLine_declares listed declares, by simp [port], description, guard⟩, ?_⟩
  obtain ⟨inside, opens⟩ := mem_of_lastOf found
  have headed : head ∈ tokens text := by
    rcases List.mem_append.1 inside with earlier | here
    · exact before head earlier
    · exact List.mem_singleton.1 here ▸ listed
  rw [dataType]
  exact ((PortHead.spelled_of_parse read).inLine (breaksFirst_group headed opens)).1

theorem oneLine_of_parse (parsed : parse text = .ok modules) :
    ∀ module ∈ modules, module.OneLine := by
  intro module member
  obtain ⟨index, found⟩ := List.getElem?_of_mem member
  obtain ⟨span, within, makes⟩ := exists_span_of_parse parsed found
  obtain ⟨after, split⟩ := within.split
  have listed : ∀ token ∈ span.tokens, token ∈ tokens text := by
    intro token inside
    rw [split]
    exact List.mem_append_left _ inside
  simp only [Span.tokens, List.forall_mem_append, List.forall_mem_singleton] at listed
  obtain ⟨⟨⟨⟨passed, lead⟩, start⟩, body⟩, _⟩ := listed
  refine ⟨?_, fun guard head => ?_, fun lines described => ?_, fun entry inside => ?_,
    fun port inside => ?_, fun generic inside => ?_⟩
  · rw [makes.name]
    exact Token.inLine_group start (by rw [within.start]; decide)
  · rw [makes.guard] at head
    exact inLine_openGuards (List.forall_mem_append.2 ⟨passed, lead⟩) guard (List.mem_of_head? head)
  · rw [makes.description] at described
    split at described
    · contradiction
    · rw [← Option.some.inj described]
      refine inLine_documentationLines (List.forall_mem_append.2 ⟨lead, fun token member => ?_⟩)
      exact body token ((List.takeWhile_prefix _).subset member)
  · obtain ⟨earlier, token, later, whole, marks, _, same, _⟩ :=
      (mem_sections_iff parsed found within entry.1 entry.2).1 inside
    have inBody : token ∈ span.body := by simp [whole]
    rw [same]
    exact (Token.inLine_group (body token inBody) (by rw [marks]; decide)).trim
  · obtain ⟨place, there, declares, same⟩ := makes.exists_place inside
    rw [same]
    exact Place.oneLine_port parsed within there declares
  · obtain ⟨place, there, action, rfl⟩ := makes.exists_generic inside
    exact Place.oneLine_generic within there action

end

end VerilogInterface
