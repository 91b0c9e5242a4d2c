import Mathlib.Data.List.Forall2
import VerilogInterface.Proofs.Spans
import VerilogInterface.Proofs.TokenTexts
import VerilogInterface.Proofs.WordRuns

/-! What the ports and parameters of a module mean. Each parameter stands for one token; each port
stands for the last declaration of its name, with the guard around it and the head before it. -/

namespace VerilogInterface

namespace Place

/-- The entry is the parameter declared at this place. Its type is the qualifier and the range of
the head, as far as they are written, with one space between them. -/
structure DeclaresGeneric (place : Place) (entry : Parameter) : Prop where
  name : place.token.group? 0 = some entry.name
  direction : entry.direction = some .into
  value : ∃ text, place.token.group? 1 = some text ∧ entry.defaultValue = some text
  dataType : ∃ head qualifier range, place.parameterStart? = some head ∧
    Text.TrimsTo (head.group? 0) qualifier ∧ Text.TrimsTo (head.group? 1) range ∧
    entry.dataType = " ".intercalate (qualifier.toList ++ range.toList)
  guard : Guarded place.before entry.guard

structure DeclaresPort (place : Place) (entry : Parameter) : Prop where
  name : place.token.declares? = some entry.name
  head : ∃ token head direction, place.portStart? = some token ∧
    token.group? 0 = some (Direction.keyword direction) ∧ direction ≠ .into ∧
    PortHead.parse (token.group 1) = some head ∧
    entry.direction = some direction ∧ entry.dataType =
      " ".intercalate (head.netType.toList ++ head.range.toList) ++ head.array.getD ""
  value : entry.defaultValue = none
  guard : Guarded place.before entry.guard

def port? (place : Place) : Option Parameter := place.token.declares?.map place.port

end Place

namespace Span

def parameters (span : Span) : List Place :=
  span.places.filter (·.token.action == .parameterItem)

/-- The name is declared at the place and nowhere behind it in the module. -/
def DeclaredLast (span : Span) (name : String) (place : Place) : Prop :=
  place ∈ span.places ∧ place.token.declares? = some name ∧
    ∀ later ∈ place.after, later.declares? ≠ some name

/-- The module has the name, guard, parameters and ports that the tokens of the span declare. -/
structure Declares (span : Span) (module : Module) : Prop where
  name : span.start.group? 0 = some module.name
  guard : Guarded (span.passed ++ span.lead) module.guard
  generics : List.Forall₂ Place.DeclaresGeneric span.parameters module.generics
  names : ∀ name, (∃ port ∈ module.ports, port.name = name) ↔
    ∃ place ∈ span.places, place.token.declares? = some name
  unique : (module.ports.map (·.name)).Nodup
  ports : ∀ port ∈ module.ports, ∃ place, span.DeclaredLast port.name place ∧
    place.DeclaresPort port

variable {span : Span} {place : Place} {module : Module}

theorem Within.split_place {tokens : List Token} {index : Nat} (within : span.Within tokens index)
    (member : place ∈ span.places) : ∃ after, tokens = place.before ++ place.token :: after := by
  obtain ⟨after, split⟩ := within.split
  obtain ⟨earlier, before, body⟩ := mem_placesFrom.1 member
  refine ⟨place.after ++ [span.stop] ++ after, ?_⟩
  rw [split, Span.tokens, body, before]
  simp

theorem generics_items (span : Span) :
    span.items.filterMap Item.generic? = span.parameters.map Place.generic := by
  rw [items, VerilogInterface.items, List.filterMap_filterMap, parameters, ← List.filterMap_eq_map,
    List.filterMap_filter]
  refine congrArg (List.filterMap · span.places) (funext fun place => ?_)
  unfold Place.item?
  by_cases generic : place.token.action = .parameterItem
  · simp [generic, Item.generic?]
  · cases place.token.declares? <;> simp [generic, Item.generic?]

theorem ports_items (span : Span) :
    span.items.filterMap Item.port? = span.places.filterMap Place.port? := by
  rw [items, VerilogInterface.items, List.filterMap_filterMap]
  refine congrArg (List.filterMap · span.places) (funext fun place => ?_)
  unfold Place.item? Place.port?
  by_cases generic : place.token.action = .parameterItem
  · simp [generic, Token.declares?, Item.port?]
  · cases place.token.declares? <;> simp [generic, Item.port?]

/-- The ports that stay are those declared at the last places of their names. -/
theorem mem_placed_items {port : Parameter} :
    port ∈ placed (span.items.filterMap Item.port?) ↔
      ∃ place, span.DeclaredLast port.name place ∧ port = place.port port.name := by
  rw [ports_items, mem_placed]
  constructor
  · rintro ⟨before, after, split, unique⟩
    obtain ⟨earlier, others, places, _, rest⟩ := List.filterMap_eq_append_iff.1 split
    obtain ⟨between, place, later, rfl, _, declared, rfl⟩ := List.filterMap_eq_cons_iff.1 rest
    obtain ⟨name, declares, rfl⟩ := Option.map_eq_some_iff.1 declared
    rw [← List.append_assoc] at places
    have member : place ∈ span.places := by simp [places]
    refine ⟨place, ⟨member, declares, ?_⟩, rfl⟩
    rw [after_of_placesFrom places]
    intro token behind again
    obtain ⟨other, found, rfl⟩ := List.mem_map.1 behind
    refine unique (other.port name) (List.mem_filterMap.2 ⟨other, found, ?_⟩) rfl
    rw [Place.port?, again]
    rfl
  · rintro ⟨place, ⟨member, declares, last⟩, same⟩
    obtain ⟨earlier, later, places⟩ := List.append_of_mem member
    rw [after_of_placesFrom places] at last
    refine ⟨earlier.filterMap Place.port?, later.filterMap Place.port?, ?_, ?_⟩
    · rw [places, List.filterMap_append, List.filterMap_cons, Place.port?, declares,
        Option.map_some, ← same]
    · intro other found again
      obtain ⟨behind, inside, declared⟩ := List.mem_filterMap.1 found
      obtain ⟨name, declares, rfl⟩ := Option.map_eq_some_iff.1 declared
      exact last behind.token (List.mem_map_of_mem inside) (declares.trans (congrArg some again))

end Span

section
variable {text : String} {modules : List Module} {index : Nat} {span : Span} {place : Place}

theorem guarded_of_parse (parsed : parse text = .ok modules) {before : List Token}
    (earlier : before <+: tokens text) : Guarded before (openGuards before).head? :=
  guarded_head?_openGuards (NoSurplus.of_prefix (accepted_of_parse parsed).exits earlier)

theorem exists_parameterType (qualifier range : Option String) :
    ∃ first second, Text.TrimsTo qualifier first ∧ Text.TrimsTo range second ∧
      parameterType qualifier range = " ".intercalate (first.toList ++ second.toList) := by
  have each (written : Option String) : ∃ part, Text.TrimsTo written part ∧
      (written.toList.map Text.trim).filter (! ·.isEmpty) = part.toList := by
    cases written with
    | none => exact ⟨none, .missing, rfl⟩
    | some text =>
      refine ⟨_, Text.trimsTo_trim text, ?_⟩
      by_cases none : Text.trim text = "" <;> simp [none]
  obtain ⟨first, trims, here⟩ := each qualifier
  obtain ⟨second, trims', there⟩ := each range
  refine ⟨first, second, trims, trims', ?_⟩
  rw [parameterType, List.map_append, List.filter_append, here, there]

theorem Place.declaresGeneric (parsed : parse text = .ok modules)
    (within : span.Within (tokens text) index) (member : place ∈ span.places)
    (action : place.token.action = .parameterItem) : place.DeclaresGeneric place.generic := by
  obtain ⟨after, split⟩ := within.split_place member
  have earlier : place.before <+: tokens text := ⟨_, split.symm⟩
  obtain ⟨head, found⟩ : ∃ head, place.parameterStart? = some head := by
    have fits := fits_of_tokens split
    simp only [Token.Fits, action] at fits
    obtain ⟨start, body, inside, head, listed, opens⟩ := fits
    exact exists_lastOf ⟨head, mem_of_progress inside listed, opens⟩
  have groups := parameterItem_groups (split ▸ List.mem_append_cons_self) action
  obtain ⟨first, second, qualifier, range, joined⟩ :=
    exists_parameterType (head.group? 0) (head.group? 1)
  refine ⟨?_, rfl, ⟨place.token.group 1, ?_, rfl⟩,
    ⟨head, first, second, found, qualifier, range, ?_⟩, guarded_of_parse parsed earlier⟩
  · rw [Token.group?, groups]
    rfl
  · rw [Token.group?, groups]
    rfl
  · rw [← joined, generic, found]
    rfl

theorem Place.declaresPort (parsed : parse text = .ok modules)
    (within : span.Within (tokens text) index) (member : place ∈ span.places) {name : String}
    (declares : place.token.declares? = some name) : place.DeclaresPort (place.port name) := by
  obtain ⟨after, split⟩ := within.split_place member
  have earlier : place.before <+: tokens text := ⟨_, split.symm⟩
  have accepted := accepted_of_parse parsed
  obtain ⟨head, found⟩ : ∃ head, place.portStart? = some head := by
    have fits := fits_of_tokens split
    have kind : place.token.action = .portStart ∨ place.token.action = .portName := by
      unfold Token.declares? at declares
      split at declares <;> simp_all
    rcases kind with action | action
    · exact exists_lastOf ⟨place.token, by simp, action⟩
    · simp only [Token.Fits, action] at fits
      obtain ⟨start, body, inside, head, listed, opens⟩ := fits
      have present := List.mem_append_left [place.token] (mem_of_progress inside listed)
      exact exists_lastOf ⟨head, present, opens⟩
  obtain ⟨listed, opens⟩ := mem_of_lastOf found
  have present : head ∈ tokens text := by
    rw [split, List.append_cons]
    exact List.mem_append_left _ listed
  obtain ⟨shape, read⟩ := Option.isSome_iff_exists.1 (accepted.heads head present opens)
  obtain ⟨direction, inner, outward, groups⟩ := portStart_groups present opens
  have keyword : head.group? 0 = some direction.keyword := by
    rw [Token.group?, groups]
    rfl
  refine ⟨declares, ⟨head, shape, direction, found, keyword, outward, read, ?_, ?_⟩, rfl,
    guarded_of_parse parsed earlier⟩
  · rw [port, found, Option.bind_some, Token.group, keyword]
    cases direction <;> rfl
  · simp only [port, found, Option.bind_some, read]
    rfl

/-- Every module of a text that is read has the interface that its own tokens declare. -/
theorem exists_span_declares (parsed : parse text = .ok modules) {module : Module}
    (found : modules[index]? = some module) :
    ∃ span : Span, span.Within (tokens text) index ∧ span.Declares module := by
  obtain ⟨span, within, makes⟩ := exists_span_of_parse parsed found
  have same : module.ports.Perm (placed (span.items.filterMap Item.port?)) := by
    rw [makes.ports]
    exact Ordered.sort_perm _ _
  have mem_ports {port : Parameter} : port ∈ module.ports ↔
      ∃ place, span.DeclaredLast port.name place ∧ port = place.port port.name :=
    same.mem_iff.trans span.mem_placed_items
  obtain ⟨after, split⟩ := within.split
  refine ⟨span, within, ?_, ?_, ?_, ?_, ?_, ?_⟩
  · have member : span.start ∈ tokens text := by
      rw [split, Span.tokens]
      simp
    rw [makes.name, Token.group?, name_groups member (.inl within.start)]
    rfl
  · rw [makes.guard]
    refine guarded_of_parse parsed ⟨[span.start] ++ span.body ++ [span.stop] ++ after, ?_⟩
    rw [split, Span.tokens]
    simp
  · rw [makes.generics, Span.generics_items, List.forall₂_map_right_iff, List.forall₂_same]
    intro place member
    obtain ⟨inside, action⟩ := List.mem_filter.1 member
    exact Place.declaresGeneric parsed within inside (eq_of_beq action)
  · intro name
    have named : (∃ port ∈ module.ports, port.name = name) ↔
        ∃ port ∈ placed (span.items.filterMap Item.port?), port.name = name := by
      simp only [same.mem_iff]
    rw [named, exists_mem_placed, Span.ports_items]
    constructor
    · rintro ⟨port, member, rfl⟩
      obtain ⟨place, inside, declared⟩ := List.mem_filterMap.1 member
      obtain ⟨name, declares, rfl⟩ := Option.map_eq_some_iff.1 declared
      exact ⟨place, inside, declares⟩
    · rintro ⟨place, inside, declares⟩
      refine ⟨place.port name, List.mem_filterMap.2 ⟨place, inside, ?_⟩, rfl⟩
      rw [Place.port?, declares]
      rfl
  · exact (same.map _).nodup_iff.2 (nodup_placed _)
  · intro port member
    obtain ⟨place, last, same⟩ := mem_ports.1 member
    refine ⟨place, last, ?_⟩
    rw [same]
    exact Place.declaresPort parsed within last.1 last.2.1

end

def againText : String :=
  "module m #(parameter signed [ 7:0 ] W = 3, N = 4) (input a, output [3:0] b,\n" ++
    "`ifdef W\na\n`endif\n);\nendmodule\n"

private def again : Module where
  name := "m"
  generics := [
    { name := "W", direction := some .into, dataType := "signed [ 7:0 ]", defaultValue := "3" },
    { name := "N", direction := some .into, dataType := "signed [ 7:0 ]", defaultValue := "4" }]
  ports := [
    { name := "a", direction := some .output, dataType := "[3:0]", guard := some "`ifdef=W" },
    { name := "b", direction := some .output, dataType := "[3:0]" }]

/-- A port is declared again under a later head, behind a guard that opens after that head, and two
parameters stand under one head with a qualifier and a range. -/
theorem exists_span_declares_again :
    ∃ module, parse againText = .ok [module] ∧
      module.generics = [
        { name := "W", direction := some .into, dataType := "signed [ 7:0 ]",
          defaultValue := "3" },
        { name := "N", direction := some .into, dataType := "signed [ 7:0 ]",
          defaultValue := "4" }] ∧
      module.ports = [
        { name := "a", direction := some .output, dataType := "[3:0]", guard := some "`ifdef=W" },
        { name := "b", direction := some .output, dataType := "[3:0]" }] ∧
      ∃ span : Span, span.Within (tokens againText) 0 ∧ span.Declares module := by
  have parsed : parse againText = .ok [again] := by decide +kernel
  obtain ⟨span, within, declares⟩ := @exists_span_declares _ _ 0 parsed _ rfl
  exact ⟨_, parsed, rfl, rfl, span, within, declares⟩

end VerilogInterface
