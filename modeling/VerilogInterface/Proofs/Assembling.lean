import VerilogInterface.Proofs.Acceptance
import VerilogInterface.Proofs.Collecting
import VerilogInterface.Proofs.Stretches

/-! What an assembly knows of the module it builds. The invariant tells every field of the assembly
by the tokens of the module so far, and each token is one step of it. -/

namespace VerilogInterface

/-- The assembly of an open module, told by the tokens up to the end of the last module, those
before its own beginning, its first token and the tokens since. -/
structure Builds (passed lead : List Token) (start : Token) (body : List Token)
    (assembly : Assembly) : Prop where
  name : assembly.moduleName = some (start.group 0)
  guard : assembly.moduleGuard = (openGuards (passed ++ lead)).head?
  documentation : assembly.documentation = documentationLines (lead ++ untilItem body)
  collects : Collects (items (passed ++ lead ++ [start]) body) assembly
  typed : ∀ token, lastOf .parameterStart body = some token →
    assembly.parameterType = parameterType (token.group? 0) (token.group? 1)

def Headed (body : List Token) (assembly : Assembly) : Prop :=
  ∀ token, lastOf .portStart body = some token →
    ∃ head, PortHead.parse (token.group 1) = some head ∧
      assembly.direction = (Direction.ofKeyword? (token.group 0)).getD .input ∧
      assembly.portType = head.dataType

variable {passed lead before body : List Token} {start token : Token} {assembly next : Assembly}

theorem Assembly.describe_frame (assembly : Assembly) (line : String) :
    ∃ documentation generics waiting ports,
      assembly.describe line = { assembly with documentation, generics, waiting, ports } := by
  unfold describe
  split <;> exact ⟨_, _, _, _, rfl⟩

theorem Assembly.describe_documentation (assembly : Assembly) (target : assembly.target ≠ none)
    (line : String) : (assembly.describe line).documentation = assembly.documentation := by
  unfold describe
  split
  · contradiction
  · rfl
  · rfl
  · rfl

theorem untilItem_concat (none : ∀ token ∈ body, token.isItem = false)
    (plain : token.isItem = false) : untilItem (body ++ [token]) = body ++ [token] := by
  apply untilItem_of_no_item
  exact no_item_concat none plain

theorem items_concat_of_plain (plain : token.action ≠ .documentation)
    (none : token.isItem = false) : items before (body ++ [token]) = items before body := by
  have absent : (⟨before ++ body, token, []⟩ : Place).item? = Option.none := by
    rw [← Option.not_isSome_iff_eq_none, item?_isSome]
    simpa using none
  rw [items_concat plain, absent]
  exact List.append_nil _

theorem Headed.concat (headed : Headed body assembly) (other : token.action ≠ .portStart) :
    Headed (body ++ [token]) assembly := by
  intro last found
  rw [lastOf_concat, if_neg other] at found
  exact headed last found

theorem headed_underHead {head : PortHead} (action : token.action = .portStart)
    (read : PortHead.parse (token.group 1) = some head) :
    Headed (body ++ [token]) (assembly.underHead (token.group 0) head) := by
  intro last found
  rw [lastOf_concat, if_pos action] at found
  cases found
  exact ⟨head, read, rfl, rfl⟩

namespace Builds

/-- Documentation in front of the first item belongs to the module, any other to the last item. -/
theorem documented (builds : Builds passed lead start body assembly)
    (line : token.action = .documentation) :
    Builds passed lead start (body ++ [token])
      (assembly.describe (Text.trim (token.group 0))) := by
  have typed : lastOf .parameterStart (body ++ [token]) = lastOf .parameterStart body := by
    rw [lastOf_concat, if_neg (by simp [line])]
  have collects := builds.collects
  by_cases empty : items (passed ++ lead ++ [start]) body = []
  · have none := items_eq_nil_iff.1 empty
    have target := collects.target.none_iff.2 empty
    simp only [Assembly.describe, target]
    refine ⟨builds.name, builds.guard, ?_, ?_, typed ▸ builds.typed⟩
    · rw [builds.documentation, untilItem_concat none (not_isItem_of_documentation line),
        untilItem_of_no_item none, ← List.append_assoc, documentationLines_append (lead ++ body)]
      simp [documentationLines, line]
    · rw [items_concat_documentation line, empty]
      rw [empty] at collects
      exact ⟨collects.generics, collects.ports, .none⟩
  · have described := collects.describe empty (Text.trim (token.group 0))
    rw [← items_concat_documentation line] at described
    have item : ∃ token ∈ body, token.isItem = true := by
      rw [items_eq_nil_iff] at empty
      simpa using empty
    have kept := assembly.describe_documentation (mt collects.target.none_iff.1 empty)
      (Text.trim (token.group 0))
    obtain ⟨documentation, generics, waiting, ports, same⟩ :=
      assembly.describe_frame (Text.trim (token.group 0))
    rw [same] at described kept ⊢
    refine ⟨builds.name, builds.guard, ?_, described, typed ▸ builds.typed⟩
    rw [untilItem_append_of_item _ item, ← builds.documentation]
    exact kept

private theorem documentation_concat (builds : Builds passed lead start body assembly)
    (silent : token.action ≠ .documentation) :
    assembly.documentation = documentationLines (lead ++ untilItem (body ++ [token])) := by
  rw [documentationLines_append, documentationLines_untilItem_concat silent,
    ← documentationLines_append]
  exact builds.documentation

theorem plain (builds : Builds passed lead start body assembly)
    (silent : token.action ≠ .documentation) (none : token.isItem = false)
    (untyped : token.action ≠ .parameterStart) :
    Builds passed lead start (body ++ [token]) assembly := by
  refine ⟨builds.name, builds.guard, builds.documentation_concat silent, ?_, ?_⟩
  · rw [items_concat_of_plain silent none]
    exact builds.collects
  · rw [lastOf_concat, if_neg untyped]
    exact builds.typed

theorem aside (builds : Builds passed lead start body assembly) (markers : List (Nat × String))
    (guards : List String) :
    Builds passed lead start body { assembly with markers, guards } :=
  ⟨builds.name, builds.guard, builds.documentation,
    ⟨builds.collects.generics, builds.collects.ports, builds.collects.target⟩, builds.typed⟩

theorem parameters (builds : Builds passed lead start body assembly)
    (action : token.action = .parameterStart) :
    Builds passed lead start (body ++ [token]) { assembly with
      parameterType := parameterType (token.group? 0) (token.group? 1) } := by
  have silent : token.action ≠ .documentation := by simp [action]
  have none : token.isItem = false := by simp [Token.isItem, Token.declares?, action]
  refine ⟨builds.name, builds.guard, builds.documentation_concat silent, ?_, ?_⟩
  · rw [items_concat_of_plain silent none]
    exact ⟨builds.collects.generics, builds.collects.ports, builds.collects.target⟩
  · intro last found
    rw [lastOf_concat, if_pos action] at found
    cases found
    rfl

theorem parameter (builds : Builds passed lead start body assembly)
    (guards : assembly.guards = openGuards (passed ++ lead ++ [start] ++ body))
    (fits : token.Fits (some (start, body))) (action : token.action = .parameterItem) :
    Builds passed lead start (body ++ [token])
      (assembly.addGeneric (token.group 0) (token.group 1)) := by
  have silent : token.action ≠ .documentation := by simp [action]
  obtain ⟨list, listed⟩ : ∃ list, lastOf .parameterStart body = some list := by
    simp only [Token.Fits, action] at fits
    obtain ⟨_, _, same, headed⟩ := fits
    cases same
    exact exists_lastOf headed
  have item : (⟨passed ++ lead ++ [start] ++ body, token, []⟩ : Place).item? =
      some (.generic { name := token.group 0, direction := some .into,
                       dataType := assembly.parameterType, defaultValue := some (token.group 1),
                       guard := assembly.guards.head? }) := by
    have nearest : lastOf .parameterStart (passed ++ lead ++ [start] ++ body) = some list := by
      rw [lastOf_append, listed]
      rfl
    rw [Place.item?, if_pos action, Place.generic, Place.parameterStart?, nearest, guards,
      builds.typed list listed]
    rfl
  refine ⟨builds.name, builds.guard, builds.documentation_concat silent, ?_, ?_⟩
  · rw [items_concat silent, item]
    exact builds.collects.addGeneric _ _
  · rw [lastOf_concat, if_neg (by simp [action])]
    exact builds.typed

/-- A port takes the direction and type of the head in force, be it this very token. -/
theorem port (builds : Builds passed lead start body assembly)
    (guards : assembly.guards = openGuards (passed ++ lead ++ [start] ++ body))
    (headed : Headed (body ++ [token]) assembly) {head : Token} {name : String}
    (found : lastOf .portStart (body ++ [token]) = some head)
    (declares : token.declares? = some name)
    (kind : token.action = .portStart ∨ token.action = .portName) :
    Builds passed lead start (body ++ [token]) (assembly.addWaiting name) := by
  have silent : token.action ≠ .documentation := by rcases kind with kind | kind <;> simp [kind]
  have other : token.action ≠ .parameterItem := by rcases kind with kind | kind <;> simp [kind]
  have untyped : token.action ≠ .parameterStart := by rcases kind with kind | kind <;> simp [kind]
  obtain ⟨parsed, read, direction, portType⟩ := headed head found
  have item : (⟨passed ++ lead ++ [start] ++ body, token, []⟩ : Place).item? =
      some (.port { name, direction := some assembly.direction, dataType := assembly.portType,
                    guard := assembly.guards.head? }) := by
    have nearest : lastOf .portStart (passed ++ lead ++ [start] ++ body ++ [token]) =
        some head := by
      rw [List.append_assoc, lastOf_append, found]
      rfl
    rw [Place.item?, if_neg other, declares, Option.map_some, Place.port, Place.portStart?, nearest,
      guards, direction, portType]
    simp only [Option.bind_some, read]
    rfl
  refine ⟨builds.name, builds.guard, builds.documentation_concat silent, ?_, ?_⟩
  · rw [items_concat silent, item]
    exact builds.collects.addWaiting _
  · rw [lastOf_concat, if_neg untyped]
    exact builds.typed

theorem settle (builds : Builds passed lead start body assembly) :
    Builds passed lead start body assembly.settle :=
  ⟨builds.name, builds.guard, builds.documentation, builds.collects.settle, builds.typed⟩

theorem underHead (builds : Builds passed lead start body assembly)
    (empty : assembly.waiting = []) (keyword : String) (head : PortHead) :
    Builds passed lead start body (assembly.underHead keyword head) :=
  ⟨builds.name, builds.guard, builds.documentation, builds.collects.underHead empty keyword head,
    builds.typed⟩

/-- Each token of the body is one step. -/
theorem takes (builds : Builds passed lead start body assembly) (headed : Headed body assembly)
    (guards : assembly.guards = openGuards (passed ++ lead ++ [start] ++ body))
    (fits : token.Fits (some (start, body))) (opened : token.action ≠ .moduleStart)
    (closed : token.action ≠ .moduleEnd) (takes : Assembly.Takes token assembly next) :
    Builds passed lead start (body ++ [token]) next ∧ Headed (body ++ [token]) next := by
  have aside (kind : token.action ∈ [.sectionLabel, .guardEnter, .guardExit, .commentStart,
      .commentEnd]) (markers : List (Nat × String)) (guards : List String) :
      Builds passed lead start (body ++ [token]) { assembly with markers, guards } ∧
        Headed (body ++ [token]) { assembly with markers, guards } := by
    have silent : token.action ≠ .documentation := by rintro same; simp [same] at kind
    have untyped : token.action ≠ .parameterStart := by rintro same; simp [same] at kind
    have unheaded : token.action ≠ .portStart := by rintro same; simp [same] at kind
    have none : token.isItem = false := by
      cases action : token.action <;> simp_all [Token.isItem, Token.declares?]
    exact ⟨(builds.plain silent none untyped).aside markers guards, headed.concat unheaded⟩
  cases takes with
  | documentation action =>
    refine ⟨builds.documented action, ?_⟩
    obtain ⟨_, _, _, _, same⟩ := assembly.describe_frame (Text.trim (token.group 0))
    rw [same]
    exact headed.concat (by simp [action])
  | sectionLabel action => exact aside (by simp [action]) _ _
  | guardEnter action => exact aside (by simp [action]) _ _
  | guardExit action => exact aside (by simp [action]) _ _
  | comment action => exact aside (by rcases action with action | action <;> simp [action]) _ _
  | moduleStart action => exact (opened action).elim
  | moduleEnd action => exact (closed action).elim
  | parameterStart action => exact ⟨builds.parameters action, headed.concat (by simp [action])⟩
  | parameterItem action =>
    exact ⟨builds.parameter guards fits action, headed.concat (by simp [action])⟩
  | @portStart head action read unnamed =>
    refine ⟨?_, headed_underHead action read⟩
    have settled := builds.settle.underHead rfl (token.group 0) head
    exact settled.plain (by simp [action])
      (by simp [Token.isItem, Token.declares?, action, read, unnamed]) (by simp [action])
  | @namedPortStart head name action read named =>
    have headed : Headed (body ++ [token]) (assembly.settle.underHead (token.group 0) head) :=
      headed_underHead action read
    have settled := builds.settle.underHead rfl (token.group 0) head
    have found : lastOf .portStart (body ++ [token]) = some token := by
      rw [lastOf_concat, if_pos action]
    have declares : token.declares? = some name := by
      simp [Token.declares?, action, read, named]
    exact ⟨settled.port guards headed found declares (.inl action), headed⟩
  | portName action =>
    have later : Headed (body ++ [token]) assembly := headed.concat (by simp [action])
    obtain ⟨head, found⟩ : ∃ head, lastOf .portStart body = some head := by
      simp only [Token.Fits, action] at fits
      obtain ⟨_, _, same, headed⟩ := fits
      cases same
      exact exists_lastOf headed
    have nearest : lastOf .portStart (body ++ [token]) = some head := by
      rw [lastOf_concat, if_neg (by simp [action])]
      exact found
    have declares : token.declares? = some (token.group 0) := by simp [Token.declares?, action]
    exact ⟨builds.port guards later nearest declares (.inr action), later⟩

end Builds

end VerilogInterface
