import VerilogInterface.Proofs.Acceptance
import VerilogInterface.Proofs.AnsiScan
import VerilogInterface.Proofs.Collecting

/-! The module that an interface stands for. The assembly is followed over the meanings of the
tokens; after each list it holds the declarations written so far. -/

namespace VerilogInterface

namespace Assembly

variable {assembly middle next : Assembly} {meanings others : List Meaning}

/-- Tokens of these meanings are taken up one after another, wherever they stand. -/
def Becomes (assembly : Assembly) (meanings : List Meaning) (next : Assembly) : Prop :=
  ∀ text tokens, tokens.map Token.meaning = meanings → assembly.run text tokens = .ok next

theorem Becomes.refl (assembly : Assembly) : assembly.Becomes [] assembly := by
  intro text tokens same
  rw [List.map_eq_nil_iff.1 same]
  rfl

theorem Becomes.trans (one : assembly.Becomes meanings middle)
    (two : middle.Becomes others next) : assembly.Becomes (meanings ++ others) next := by
  intro text tokens same
  obtain ⟨first, second, rfl, former, latter⟩ := List.map_eq_append_iff.1 same
  rw [run_append_of_ok second (one text first former)]
  exact two text second latter

theorem Becomes.one {action : Action} {groups : List (Option String)}
    (taken : ∀ text offset stop, assembly.apply text ⟨action, groups, offset, stop⟩ = (next, none)) :
    assembly.Becomes [(action, groups)] next := by
  intro text tokens same
  obtain ⟨token, rfl, meaning⟩ := List.map_eq_singleton_iff.1 same
  obtain ⟨_, _, offset, stop⟩ := token
  cases meaning
  exact run_singleton_eq_ok.2 (taken text offset stop)

end Assembly

namespace Ansi

structure Underway (name : String) (list : List Item) (assembly : Assembly) : Prop where
  moduleName : assembly.moduleName = some name
  moduleGuard : assembly.moduleGuard = none
  guards : assembly.guards = []
  documentation : assembly.documentation = []
  markers : assembly.markers = []
  modules : assembly.modules = []
  collects : Collects list assembly

variable {name : String} {list : List Item} {assembly : Assembly}

theorem underway_openModule (name : String) :
    Underway name [] (({} : Assembly).openModule name) :=
  ⟨rfl, rfl, rfl, rfl, rfl, rfl, rfl, ⟨[], rfl, rfl⟩, .none⟩

def Plain (text : String) : Prop := Text.trim text = text ∧ text.isEmpty = false

theorem plain_keyword (qualifier : Qualifier) : Plain qualifier.keyword := by
  cases qualifier <;> exact ⟨by decide, rfl⟩

theorem plain_bracketed (content : String) : Plain (bracketed content) := by
  constructor
  · rw [← String.toList_inj]
    simp only [Text.trim, bracketed, String.toList_append, String.toList_ofList]
    refine Text.trimBoth_eq_self ?_ ?_
    · rintro _ ⟨⟩
      decide
    · intro last found
      rw [List.getLast?_append] at found
      cases found
      decide
  · simp [bracketed]

theorem parameterType_eq (parameters : Parameters) :
    parameterType (parameters.qualifier.map (·.keyword))
      (parameters.range.map (bracketed ·.text)) = parameters.dataType := by
  have plain : ∀ text ∈ parameters.qualifier.toList.map (·.keyword) ++
      parameters.range.toList.map (bracketed ·.text), Plain text := by
    intro text member
    rcases List.mem_append.1 member with inside | inside
    · obtain ⟨qualifier, _, rfl⟩ := List.mem_map.1 inside
      exact plain_keyword qualifier
    · obtain ⟨range, _, rfl⟩ := List.mem_map.1 inside
      exact plain_bracketed range.text
  unfold parameterType Parameters.dataType
  rw [Option.toList_map, Option.toList_map]
  generalize parameters.qualifier.toList.map (·.keyword) ++
    parameters.range.toList.map (bracketed ·.text) = texts at plain ⊢
  have trimmed : texts.map Text.trim = texts :=
    (List.map_congr_left fun text member => (plain text member).1).trans (List.map_id' texts)
  have kept : texts.filter (! ·.isEmpty) = texts :=
    List.filter_eq_self.2 fun text member => by simp [(plain text member).2]
  rw [trimmed, kept]

namespace Underway

/-- Nothing else than declarations and what they are read under has to be followed. -/
theorem carry {further : List Item} {ports generics : List Parameter}
    {waiting : List WaitingPort} {declared : Nat} {parameterType portType : String}
    {direction : Direction} {target : Option Target} (underway : Underway name list assembly)
    (collects : Collects further { assembly with
      ports, waiting, generics, declared, parameterType, direction, portType, target }) :
    Underway name further { assembly with
      ports, waiting, generics, declared, parameterType, direction, portType, target } :=
  ⟨underway.moduleName, underway.moduleGuard, underway.guards, underway.documentation,
    underway.markers, underway.modules, collects⟩

theorem settle (underway : Underway name list assembly) : Underway name list assembly.settle :=
  underway.carry underway.collects.settle

theorem addGeneric (underway : Underway name list assembly) (identifier value : String) :
    Underway name
      (list ++ [.generic { name := identifier, direction := some .into,
                           dataType := assembly.parameterType, defaultValue := some value }])
      (assembly.addGeneric identifier value) := by
  have collects := underway.collects.addGeneric identifier value
  rw [underway.guards] at collects
  exact underway.carry collects

theorem addWaiting (underway : Underway name list assembly) (identifier : String) :
    Underway name
      (list ++ [.port { name := identifier, direction := some assembly.direction,
                        dataType := assembly.portType }])
      (assembly.addWaiting identifier) := by
  have collects := underway.collects.addWaiting identifier
  rw [underway.guards] at collects
  exact underway.carry collects

theorem assignments (assignments : List Assignment) {dataType : String}
    (underway : Underway name list assembly) (typed : assembly.parameterType = dataType) :
    ∃ next, assembly.Becomes (assignments.map Assignment.meaning) next ∧
      Underway name
        (list ++ assignments.map fun assignment =>
          .generic { name := assignment.name.text, direction := some .into, dataType,
                     defaultValue := some assignment.value.text }) next := by
  induction assignments generalizing list assembly with
  | nil => exact ⟨assembly, .refl assembly, by simpa using underway⟩
  | cons assignment assignments ih =>
    have added := underway.addGeneric assignment.name.text assignment.value.text
    rw [typed] at added
    obtain ⟨next, becomes, underway⟩ := ih added typed
    have one : assembly.Becomes [assignment.meaning]
        (assembly.addGeneric assignment.name.text assignment.value.text) :=
      .one fun _ _ _ => rfl
    exact ⟨next, one.trans becomes, by simpa using underway⟩

theorem names (names : List Identifier) {direction : Direction} {dataType : String}
    (underway : Underway name list assembly) (directed : assembly.direction = direction)
    (typed : assembly.portType = dataType) :
    ∃ next, assembly.Becomes (names.map nameMeaning) next ∧
      Underway name
        (list ++ names.map fun identifier =>
          .port { name := identifier.text, direction := some direction, dataType }) next := by
  induction names generalizing list assembly with
  | nil => exact ⟨assembly, .refl assembly, by simpa using underway⟩
  | cons identifier names ih =>
    have added := underway.addWaiting identifier.text
    rw [directed, typed] at added
    obtain ⟨next, becomes, underway⟩ := ih added directed typed
    have one : assembly.Becomes [nameMeaning identifier] (assembly.addWaiting identifier.text) :=
      .one fun _ _ _ => rfl
    exact ⟨next, one.trans becomes, by simpa using underway⟩

theorem parameters (underway : Underway name list assembly) (parameters : Parameters) :
    ∃ next, assembly.Becomes parameters.meanings next ∧
      Underway name (list ++ parameters.entries.map .generic) next := by
  have one : assembly.Becomes [parameters.start]
      { assembly with parameterType := parameters.dataType } := by
    rw [← parameterType_eq]
    exact .one fun _ _ _ => rfl
  have typed : Underway name list { assembly with parameterType := parameters.dataType } :=
    underway.carry ⟨underway.collects.generics, underway.collects.ports, underway.collects.target⟩
  obtain ⟨next, becomes, underway⟩ := typed.assignments (parameters.first :: parameters.others) rfl
  exact ⟨next, one.trans becomes, by simpa [Parameters.entries, Function.comp_def] using underway⟩

theorem ports (underway : Underway name list assembly) (ports : Ports) :
    ∃ next, assembly.Becomes ports.meanings next ∧
      Underway name (list ++ ports.entries.map .port) next := by
  obtain ⟨head, read, named, dataType⟩ := parse_head ports
  have keyword : (Direction.ofKeyword? ports.direction.keyword).getD .input = ports.direction := by
    cases ports.direction <;> rfl
  have settled := underway.settle
  have headed : Underway name list (assembly.settle.underHead ports.direction.keyword head) :=
    settled.carry (settled.collects.underHead rfl _ head)
  have added := headed.addWaiting ports.first.text
  have one : assembly.Becomes [ports.start]
      ((assembly.settle.underHead ports.direction.keyword head).addWaiting ports.first.text) := by
    refine .one fun text offset stop => ?_
    have parsed : PortHead.parse (Token.group ⟨.portStart,
        [some ports.direction.keyword, some (" " ++ ports.head)], offset, stop⟩ 1) = some head :=
      read
    simp only [Assembly.apply, Assembly.openPorts, parsed, named]
    rfl
  obtain ⟨next, becomes, underway⟩ := added.names ports.others keyword dataType
  refine ⟨next, one.trans becomes, ?_⟩
  have direction : (assembly.settle.underHead ports.direction.keyword head).direction =
      ports.direction := keyword
  have portType : (assembly.settle.underHead ports.direction.keyword head).portType =
      ports.dataType := dataType
  rw [direction, portType] at underway
  simpa [Ports.entries, Function.comp_def] using underway

theorem flatMap {α : Type} {meanings : α → List Meaning} {items : α → List Item}
    (step : ∀ {list assembly} group, Underway name list assembly →
      ∃ next, assembly.Becomes (meanings group) next ∧ Underway name (list ++ items group) next)
    (groups : List α) (underway : Underway name list assembly) :
    ∃ next, assembly.Becomes (groups.flatMap meanings) next ∧
      Underway name (list ++ groups.flatMap items) next := by
  induction groups generalizing list assembly with
  | nil => exact ⟨assembly, .refl assembly, by simpa using underway⟩
  | cons group groups ih =>
    obtain ⟨middle, one, underway⟩ := step group underway
    obtain ⟨next, others, underway⟩ := ih underway
    refine ⟨next, ?_, ?_⟩
    · rw [List.flatMap_cons]
      exact one.trans others
    · rw [List.flatMap_cons, ← List.append_assoc]
      exact underway

theorem closeModule (underway : Underway name list assembly) :
    ∃ next, assembly.Becomes [(.moduleEnd, [])] next ∧ next.guards = [] ∧
      next.modules = [assembly.settle.finished] := by
  have settled := underway.settle
  refine ⟨assembly.settle.fileModule, .one fun text offset stop => ?_, settled.guards, ?_⟩
  · simp only [Assembly.apply, Assembly.closeModule, underway.guards]
  · rw [Assembly.fileModule, settled.modules]
    rfl

theorem finished (underway : Underway name list assembly) :
    assembly.settle.finished =
      { name
        ports := Ordered.sort (fun first second => first.name ≤ second.name)
          (placed (list.filterMap Item.port?))
        generics := list.filterMap Item.generic? } := by
  have settled := underway.settle
  rw [Assembly.finished, settled.moduleName, underway.collects.ports_settle,
    settled.collects.generics, settled.markers, settled.documentation, settled.moduleGuard]
  rfl

end Underway

def Interface.itemList (interface : Interface) : List Item :=
  (interface.parameters.flatMap fun parameters => parameters.entries.map .generic) ++
    interface.ports.flatMap fun ports => ports.entries.map .port

theorem Interface.generics_itemList (interface : Interface) :
    interface.itemList.filterMap Item.generic? =
      interface.parameters.flatMap Parameters.entries := by
  simp [itemList, List.filterMap_flatMap, List.filterMap_map, Function.comp_def, Item.generic?]

theorem Interface.ports_itemList (interface : Interface) :
    interface.itemList.filterMap Item.port? = interface.ports.flatMap Ports.entries := by
  simp [itemList, List.filterMap_flatMap, List.filterMap_map, Function.comp_def, Item.port?]

/-- An interface is read as the module it means. -/
theorem parse_interface (interface : Interface) :
    ∃ module, parse interface.text = .ok [module] ∧ interface.Means module := by
  obtain ⟨meanings, complete⟩ := tokens_text interface
  have opened : ({} : Assembly).Becomes [(.moduleStart, [some interface.name.text])]
      (({} : Assembly).openModule interface.name.text) := .one fun _ _ _ => rfl
  obtain ⟨parameterized, parameters, underway⟩ :=
    (underway_openModule interface.name.text).flatMap
      (fun group underway => underway.parameters group) interface.parameters
  obtain ⟨ported, ports, underway⟩ :=
    underway.flatMap (fun group underway => underway.ports group) interface.ports
  obtain ⟨last, closed, guards, modules⟩ := underway.closeModule
  -- The end of the module files it, and nothing is left to follow.
  have whole := (opened.trans (parameters.trans ports)).trans closed
  have ran := whole interface.text (tokens interface.text) (meanings.trans (by
    simp [Interface.meanings]))
  refine ⟨ported.settle.finished, ?_, ?_⟩
  · rw [parse_eq_run, ran, complete]
    simp only [Assembly.conclude, Assembly.finish, guards, modules]
  · have listed : [] ++ (interface.parameters.flatMap fun group => group.entries.map Item.generic) ++
        (interface.ports.flatMap fun group => group.entries.map Item.port) = interface.itemList :=
      rfl
    rw [underway.finished, listed, interface.generics_itemList, interface.ports_itemList]
    refine ⟨rfl, rfl, pairwise_sort_placed _, fun port => ?_, rfl, rfl, rfl⟩
    exact (Ordered.sort_perm _ _).mem_iff.trans mem_placed

end Ansi

end VerilogInterface
