import VerilogInterface.Proofs.CaptureBodies
import VerilogInterface.Proofs.Declarations
import VerilogInterface.Proofs.HeadShapes

/-! The records of a module are well formed. The assembly puts an empty text or a direction of its
own choice where a token lacks one; this never reaches a record, since every token that declares
something was matched with all its captures, under a head with a direction. -/

namespace VerilogInterface

open Text

/-- Single spaces between tidy texts do not add blanks to the ends. -/
theorem Text.trimmed_intercalate {texts : List String} (tidy : ∀ text ∈ texts, Tidy text) :
    Trimmed (" ".intercalate texts).toList := by
  cases texts with
  | nil => constructor <;> simp
  | cons first others =>
    have some {text : String} (tidy : Tidy text) : text.toList ≠ [] :=
      fun none => tidy.some (String.toList_eq_nil_iff.1 none)
    have nonempty {text : String} (tidy : Tidy text) (others : List String) :
        (" ".intercalate (text :: others)).toList ≠ [] := by
      cases others <;> simp [String.intercalate_cons_cons, some tidy]
    induction others generalizing first with
    | nil => simpa using (tidy first List.mem_cons_self).trimmed
    | cons second others ih =>
      obtain ⟨here, later⟩ := List.forall_mem_cons.1 tidy
      rw [String.intercalate_cons_cons, String.toList_append, String.toList_append]
      exact here.trimmed.append (ih second later) (some here)
        (nonempty (later second List.mem_cons_self) others) [' ']

structure Parameter.FormedPort (port : Parameter) : Prop where
  name : Tidy port.name
  direction : ∃ direction, port.direction = some direction ∧ direction ≠ .into
  dataType : Trimmed port.dataType.toList
  value : port.defaultValue = none

structure Parameter.FormedGeneric (generic : Parameter) : Prop where
  name : Tidy generic.name
  direction : generic.direction = some .into
  dataType : Trimmed generic.dataType.toList
  value : ∃ value, generic.defaultValue = some value ∧ Tidy value

structure Module.Formed (module : Module) : Prop where
  name : Tidy module.name
  ports : ∀ port ∈ module.ports, port.FormedPort
  generics : ∀ generic ∈ module.generics, generic.FormedGeneric

namespace Span

variable {span : Span} {module : Module}

/-- Every port of a module is declared at a place of its own. -/
theorem Makes.exists_place (makes : span.Makes module) {port : Parameter}
    (member : port ∈ module.ports) :
    ∃ place ∈ span.places, place.token.declares? = some port.name ∧
      port = place.port port.name := by
  rw [makes.ports] at member
  have placed := (Ordered.sort_perm _ _).mem_iff.1 member
  obtain ⟨place, ⟨inside, declares, _⟩, same⟩ := mem_placed_items.1 placed
  exact ⟨place, inside, declares, same⟩

theorem Makes.exists_generic (makes : span.Makes module) {generic : Parameter}
    (member : generic ∈ module.generics) :
    ∃ place ∈ span.places, place.token.action = .parameterItem ∧ generic = place.generic := by
  rw [makes.generics, generics_items] at member
  obtain ⟨place, listed, rfl⟩ := List.mem_map.1 member
  obtain ⟨inside, action⟩ := List.mem_filter.1 listed
  exact ⟨place, inside, eq_of_beq action, rfl⟩

end Span

section

variable {text : String} {modules : List Module} {index : Nat} {span : Span} {place : Place}

theorem tidy_declares {token : Token} {name : String} (member : token ∈ tokens text)
    (declares : token.declares? = some name) : Tidy name := by
  unfold Token.declares? at declares
  split at declares
  · next action =>
    have groups := name_groups member (.inr action)
    have captured : token.group? 0 = some name := by
      rw [Token.group?, groups, ← Option.some.inj declares]
      rfl
    exact Token.tidy_group member captured (by rw [action]; decide +kernel)
  · obtain ⟨head, read, named⟩ := Option.bind_eq_some_iff.1 declares
    obtain ⟨some, trimmed⟩ := (PortHead.spelled_of_parse read).normal.name name named
    exact ⟨some, trimmed⟩
  · contradiction

theorem Place.formedPort (parsed : parse text = .ok modules)
    (within : span.Within (tokens text) index) (member : place ∈ span.places) {name : String}
    (declares : place.token.declares? = some name) : (place.port name).FormedPort := by
  obtain ⟨after, split⟩ := within.split_place member
  have listed : place.token ∈ tokens text := split ▸ List.mem_append_cons_self
  obtain ⟨_, ⟨_, _, direction, _, _, outward, read, same, dataType⟩, value, _⟩ :=
    Place.declaresPort parsed within member declares
  refine ⟨tidy_declares listed declares, ⟨direction, same, outward⟩, ?_, value⟩
  rw [dataType]
  exact (PortHead.spelled_of_parse read).trimmed_dataType

theorem Place.formedGeneric (parsed : parse text = .ok modules)
    (within : span.Within (tokens text) index) (member : place ∈ span.places)
    (action : place.token.action = .parameterItem) : place.generic.FormedGeneric := by
  obtain ⟨after, split⟩ := within.split_place member
  have listed : place.token ∈ tokens text := split ▸ List.mem_append_cons_self
  have declares := Place.declaresGeneric parsed within member action
  obtain ⟨value, captured, same⟩ := declares.value
  obtain ⟨_, _, _, _, qualifier, range, dataType⟩ := declares.dataType
  have tight {index : Nat} {found : String} (captured : place.token.group? index = some found)
      (all : ∀ body ∈ Verilog.bodiesFor .parameterItem index, body.tight = true) : Tidy found :=
    Token.tidy_group listed captured (action ▸ all)
  refine ⟨tight declares.name (by decide +kernel), declares.direction, ?_, value, same,
    tight captured (by decide)⟩
  rw [dataType]
  apply trimmed_intercalate
  intro part written
  exact (List.mem_append.1 written).elim (qualifier.tidy part) (range.tidy part)

theorem formed_declarations (parsed : parse text = .ok modules) {module : Module}
    (member : module ∈ modules) :
    (∀ port ∈ module.ports, port.FormedPort) ∧
      ∀ generic ∈ module.generics, generic.FormedGeneric := by
  obtain ⟨index, found⟩ := List.getElem?_of_mem member
  obtain ⟨span, within, makes⟩ := exists_span_of_parse parsed found
  constructor
  · intro port listed
    obtain ⟨place, inside, declares, same⟩ := makes.exists_place listed
    rw [same]
    exact place.formedPort parsed within inside declares
  · intro generic listed
    obtain ⟨place, inside, action, rfl⟩ := makes.exists_generic listed
    exact place.formedGeneric parsed within inside action

/-- Every module of a text that is read is well formed, with all its ports and parameters. -/
theorem formed_of_parse (parsed : parse text = .ok modules) :
    ∀ module ∈ modules, module.Formed := by
  intro module member
  obtain ⟨ports, generics⟩ := formed_declarations parsed member
  refine ⟨?_, ports, generics⟩
  obtain ⟨index, found⟩ := List.getElem?_of_mem member
  obtain ⟨span, within, makes⟩ := exists_span_of_parse parsed found
  obtain ⟨after, split⟩ := within.split
  have listed : span.start ∈ tokens text := by
    rw [split, Span.tokens]
    simp
  have captured : span.start.group? 0 = some module.name := by
    rw [makes.name, Token.group?, name_groups listed (.inl within.start)]
    rfl
  exact Token.tidy_group listed captured (by rw [within.start]; decide +kernel)

/-- A parameter with a range and a quoted default value, and ports under a head over two lines. -/
theorem formed_of_parse_range :
    ∃ module,
      parse "module m #(parameter [7:0] W = \"a b\")(input\n wire [W-1:0] a, b);\nendmodule\n" =
        .ok [module] ∧
      module.generics.length = 1 ∧ module.ports.length = 2 ∧ module.Formed := by
  have parsed :
      parse "module m #(parameter [7:0] W = \"a b\")(input\n wire [W-1:0] a, b);\nendmodule\n" =
        .ok [{
          name := "m"
          ports := [
            { name := "a", direction := some .input, dataType := "wire [W-1:0]" },
            { name := "b", direction := some .input, dataType := "wire [W-1:0]" }]
          generics := [
            { name := "W", direction := some .into, dataType := "[7:0]",
              defaultValue := some "\"a b\"" }] }] := by
    decide +kernel
  exact ⟨_, parsed, rfl, rfl, formed_of_parse parsed _ List.mem_cons_self⟩

end

end VerilogInterface
