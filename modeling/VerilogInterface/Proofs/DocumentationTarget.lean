import VerilogInterface.Proofs.Lookups

/-! The target of documentation never goes stale. Whatever tokens came before and however many of
them were refused, it leads to the declaration that was read last, in the list where that stands
now, so a documentation line changes one thing and is never dropped. -/

namespace VerilogInterface

namespace Place

def reached (text : String) (place : Place) : Assembly :=
  ({} : Assembly).behind text (place.before ++ [place.token])

/-- What is declared at the place, with the direction, type and guard in force there and the last
documentation line before the next declaration. -/
def declared (text : String) (place : Place) : Item :=
  match place.token.declares? with
  | some name =>
    .port
      { name, direction := some (place.reached text).direction
        dataType := (place.reached text).portType
        description := place.description?
        guard := (place.reached text).guards.head? }
  | none =>
    .generic
      { name := place.token.group 0, direction := some .into
        dataType := (place.reached text).parameterType
        defaultValue := some (place.token.group 1)
        description := place.description?
        guard := (place.reached text).guards.head? }

variable {text : String} {place : Place} {token : Token}

theorem declared_extend (plain : token.action ≠ .documentation) :
    (place.extend token).declared text = place.declared text := by
  unfold declared
  rw [place.description?_extend plain]
  rfl

theorem declared_extend_documentation (line : token.action = .documentation)
    (last : ∀ later ∈ place.after, later.isItem = false) :
    (place.extend token).declared text =
      (place.declared text).describe (Text.trim (token.group 0)) := by
  unfold declared
  rw [description?_extend_documentation line last, extend]
  cases place.token.declares? <;> rfl

end Place

namespace Assembly

/-- The declaration that the target leads to, a waiting port as it would be placed now. -/
def documented? (assembly : Assembly) : Option Item :=
  match assembly.target with
  | none => none
  | some (.generic index) => assembly.generics[index]?.map .generic
  | some (.waiting index) => assembly.waiting[index]?.map (.port ∘ assembly.entry)
  | some (.port name) => (assembly.ports.find? (·.name == name)).map .port

/-- The place of the last declaration since a module began or ended. -/
structure Latest (text : String) (tokens : List Token) (place : Place) : Prop where
  split : tokens = place.before ++ place.token :: place.after
  since : ∃ earlier, Since text tokens (earlier ++ place.token :: place.after)
  item : place.token.isItem = true
  last : ∀ token ∈ place.after, token.isItem = false

/-- The declaration that was read last, unless a module began or ended behind it. -/
inductive Recalls (text : String) (tokens : List Token) : Option Item → Prop where
  | nothing {body : List Token} (since : Since text tokens body)
      (undeclared : ∀ token ∈ body, token.isItem = false) : Recalls text tokens none
  | declaration {place : Place} (latest : Latest text tokens place) :
      Recalls text tokens (some (place.declared text))

/-- The target is an index or a name that is in use, and what it leads to was declared last. -/
structure Resolves (text : String) (tokens : List Token) (assembly : Assembly) : Prop where
  generic : ∀ index, assembly.target = some (.generic index) →
    index + 1 = assembly.generics.length
  waiting : ∀ index, assembly.target = some (.waiting index) →
    index + 1 = assembly.waiting.length
  settled : assembly.waiting = [] → ∀ index, assembly.target ≠ some (.waiting index)
  port : ∀ name, assembly.target = some (.port name) → ∃ place entry,
    Latest text tokens place ∧ place.declared text = .port entry ∧ entry.name = name ∧
      assembly.ports.getLast? = some entry
  distinct : (assembly.ports.map (·.name)).Nodup
  latest : assembly.target ≠ none → ∃ place,
    Latest text tokens place ∧ assembly.documented? = some (place.declared text)
  undeclared : assembly.target = none → ∃ body,
    Since text tokens body ∧ ∀ token ∈ body, token.isItem = false

/-- A documentation line goes to the module or to the one declaration that the target leads to, and
everything else stays. -/
inductive Amends (assembly : Assembly) (line : String) : Assembly → Prop where
  | module (target : assembly.target = none) :
      Amends assembly line { assembly with documentation := assembly.documentation ++ [line] }
  | generic {earlier later : List Parameter} {entry : Parameter}
      (target : assembly.target = some (.generic earlier.length))
      (found : assembly.generics = earlier ++ entry :: later) :
      Amends assembly line { assembly with
        generics := earlier ++ { entry with description := some [line] } :: later }
  | waiting {earlier later : List WaitingPort} {port : WaitingPort}
      (target : assembly.target = some (.waiting earlier.length))
      (found : assembly.waiting = earlier ++ port :: later) :
      Amends assembly line { assembly with
        waiting := earlier ++ { port with description := some [line] } :: later }
  | port {earlier later : List Parameter} {entry : Parameter}
      (target : assembly.target = some (.port entry.name))
      (found : assembly.ports = earlier ++ entry :: later) :
      Amends assembly line { assembly with
        ports := earlier ++ { entry with description := some [line] } :: later }

variable {text : String} {tokens : List Token} {token : Token} {assembly next : Assembly}
  {recalled : Option Item} {place : Place}

section Operations

theorem documented?_addGeneric (assembly : Assembly) (name value : String) :
    (assembly.addGeneric name value).documented? =
      some (.generic
        { name, direction := some .into, dataType := assembly.parameterType,
          defaultValue := some value, guard := assembly.guards.head? }) :=
  congrArg (Option.map Item.generic) List.getElem?_concat_length

theorem documented?_addWaiting (assembly : Assembly) (name : String) :
    (assembly.addWaiting name).documented? =
      some (.port
        { name, direction := some assembly.direction, dataType := assembly.portType,
          guard := assembly.guards.head? }) :=
  congrArg (Option.map (Item.port ∘ assembly.entry)) List.getElem?_concat_length

theorem find?_placePort (ports : List Parameter) (port : Parameter) :
    (placePort ports port).find? (·.name == port.name) = some port := by
  have others : (ports.filter (·.name != port.name)).find? (·.name == port.name) = none := by
    apply List.find?_eq_none.2
    intro other member same
    exact bne_iff_ne.1 (List.mem_filter.1 member).2 (beq_iff_eq.1 same)
  rw [placePort, List.find?_append, others, Option.none_or]
  apply List.find?_cons_of_pos
  exact beq_self_eq_true port.name

/-- When the waiting ports are placed, the target follows the one that it led to. -/
theorem Aims.documented?_settle (aims : Aims assembly assembly.target) :
    assembly.settle.documented? = assembly.documented? := by
  generalize found : assembly.target = target at aims
  cases aims with
  | none | generic last => simp only [documented?, Assembly.settle, settleTarget, found]
  | port settled last =>
    simp only [documented?, Assembly.settle, settleTarget, found, settled, List.map_nil,
      List.foldl_nil]
  | @waiting earlier port last =>
    rw [settle_of_waiting last found]
    simp only [documented?, found, last, List.getElem?_concat_length]
    exact congrArg (Option.map Item.port) (find?_placePort _ (assembly.entry port))

/-- A head takes effect when no port waits, so it changes no declaration that was read before. -/
theorem documented?_underHead (assembly : Assembly) (keyword : String) (head : PortHead) :
    (assembly.settle.underHead keyword head).documented? = assembly.settle.documented? := by
  have same : (assembly.settle.underHead keyword head).target = assembly.settle.target := rfl
  unfold documented?
  rw [same]
  cases assembly.settle.target with
  | none => rfl
  | some target => cases target <;> rfl

theorem documented?_describe (assembly : Assembly) (line : String) :
    (assembly.describe line).documented? = assembly.documented?.map (·.describe line) := by
  cases found : assembly.target with
  | none => simp only [documented?, describe, found, Option.map_none]
  | some target =>
    cases target with
    | generic index | waiting index =>
      simp only [documented?, describe, found, List.getElem?_modify_eq, Option.map_eq_map,
        Option.map_map]
      rfl
    | port name =>
      -- The line leaves all names as they are, so the same port is found behind it.
      have same : ((·.name == name) ∘ fun port : Parameter =>
          if port.name = name then { port with description := some [line] } else port) =
          (·.name == name) := by
        funext port
        rw [Function.comp_apply]
        split <;> rfl
      simp only [documented?, describe, found, List.find?_map, same]
      cases stands : assembly.ports.find? (·.name == name) with
      | none => rfl
      | some port =>
        have named := List.find?_some stands
        rw [Option.map_some, if_pos (beq_iff_eq.1 named)]
        rfl

end Operations

theorem not_parts_of_item (declares : token.isItem = true) : ¬ Parts text tokens token := by
  rintro (start | ⟨stop, _⟩)
  · simp [Token.isItem, Token.declares?, start] at declares
  · simp [Token.isItem, Token.declares?, stop] at declares

namespace Latest

theorem concat (latest : Latest text tokens place) (within : ¬ Parts text tokens token)
    (plain : token.isItem = false) : Latest text (tokens ++ [token]) (place.extend token) := by
  obtain ⟨earlier, since⟩ := latest.since
  refine ⟨?_, ⟨earlier, ?_⟩, latest.item, ?_⟩
  · rw [latest.split]
    simp [Place.extend]
  · have longer := since.concat within
    rw [List.append_assoc, List.cons_append] at longer
    exact longer
  · exact no_item_concat latest.last plain

theorem of_item {body : List Token} (since : Since text tokens body)
    (declares : token.isItem = true) : Latest text (tokens ++ [token]) ⟨tokens, token, []⟩ where
  split := rfl
  since := ⟨body, since.concat (not_parts_of_item declares)⟩
  item := declares
  last _ member := by cases member

end Latest

namespace Recalls

theorem exists_since (recalls : Recalls text tokens recalled) : ∃ body, Since text tokens body := by
  cases recalls with
  | nothing since => exact ⟨_, since⟩
  | declaration latest =>
    obtain ⟨_, since⟩ := latest.since
    exact ⟨_, since⟩

theorem parts (parts : Parts text tokens token) : Recalls text (tokens ++ [token]) none :=
  nothing (.parts parts) (by simp)

/-- A token without a declaration or a line. -/
theorem concat (recalls : Recalls text tokens recalled) (within : ¬ Parts text tokens token)
    (plain : token.isItem = false) (silent : token.action ≠ .documentation) :
    Recalls text (tokens ++ [token]) recalled := by
  cases recalls with
  | nothing since undeclared =>
    exact nothing (since.concat within) (no_item_concat undeclared plain)
  | declaration latest =>
    rw [← Place.declared_extend silent]
    exact declaration (latest.concat within plain)

theorem documentation (recalls : Recalls text tokens recalled)
    (line : token.action = .documentation) :
    Recalls text (tokens ++ [token]) (recalled.map (·.describe (Text.trim (token.group 0)))) := by
  have within : ¬ Parts text tokens token := by simp [Parts, line]
  have plain : token.isItem = false := not_isItem_of_documentation line
  cases recalls with
  | nothing since undeclared =>
    exact nothing (since.concat within) (no_item_concat undeclared plain)
  | declaration latest =>
    rw [Option.map_some, ← Place.declared_extend_documentation line latest.last]
    exact declaration (latest.concat within plain)

/-- A token that declares is recalled from then on. -/
theorem declare (recalls : Recalls text tokens recalled) (declares : token.isItem = true) :
    Recalls text (tokens ++ [token]) (some (Place.declared text ⟨tokens, token, []⟩)) := by
  obtain ⟨_, since⟩ := recalls.exists_since
  exact declaration (.of_item since declares)

theorem port {name : String} (recalls : Recalls text tokens recalled)
    (declares : token.declares? = some name)
    (reached : ({} : Assembly).behind text (tokens ++ [token]) = next) :
    Recalls text (tokens ++ [token]) (some (.port
      { name, direction := some next.direction, dataType := next.portType,
        guard := next.guards.head? })) := by
  have item : token.isItem = true := by simp [Token.isItem, declares]
  have declared := recalls.declare item
  simp only [Place.declared, Place.reached, declares, reached] at declared
  exact declared

theorem parameterItem (recalls : Recalls text tokens recalled)
    (action : token.action = .parameterItem)
    (reached : ({} : Assembly).behind text (tokens ++ [token]) = next) :
    Recalls text (tokens ++ [token]) (some (.generic
      { name := token.group 0, direction := some .into, dataType := next.parameterType,
        defaultValue := some (token.group 1), guard := next.guards.head? })) := by
  have unnamed : token.declares? = none := by simp [Token.declares?, action]
  have item : token.isItem = true := by simp [Token.isItem, action]
  have declared := recalls.declare item
  simp only [Place.declared, Place.reached, unnamed, reached] at declared
  exact declared

theorem takes (recalls : Recalls text tokens assembly.documented?)
    (reached : ({} : Assembly).behind text tokens = assembly) (takes : Takes token assembly next) :
    Recalls text (tokens ++ [token]) next.documented? := by
  have aims : Aims assembly assembly.target := reached ▸ Aims.behind .none text tokens
  have taken : (({} : Assembly).behind text tokens).apply text token = (next, none) := by
    rw [reached]
    exact apply_of_takes text takes
  have onward : ({} : Assembly).behind text (tokens ++ [token]) = next := by
    rw [behind_concat, taken]
  cases takes with
  | documentation action =>
    rw [documented?_describe]
    exact recalls.documentation action
  | moduleStart action => exact .parts (.inl action)
  | moduleEnd action outside => exact .parts (.inr ⟨action, congrArg Prod.snd taken⟩)
  | parameterItem action =>
    have declared := recalls.parameterItem action onward
    rw [documented?_addGeneric]
    exact declared
  | portName action =>
    have declares : token.declares? = some (token.group 0) := by simp [Token.declares?, action]
    have declared := recalls.port declares onward
    rw [documented?_addWaiting]
    exact declared
  | @namedPortStart head name action read named =>
    have declares : token.declares? = some name := by
      simp [Token.declares?, action, read, named]
    have declared := recalls.port declares onward
    rw [documented?_addWaiting]
    exact declared
  | portStart action read unnamed =>
    rw [documented?_underHead, aims.documented?_settle]
    exact recalls.concat (by simp [Parts, action])
      (by simp [Token.isItem, Token.declares?, action, read, unnamed]) (by simp [action])
  | comment action =>
    have aside : ¬ Parts text tokens token ∧ token.isItem = false ∧
        token.action ≠ .documentation := by
      rcases action with action | action <;>
        simp [Parts, Token.isItem, Token.declares?, action]
    exact recalls.concat aside.1 aside.2.1 aside.2.2
  | _ action =>
    exact recalls.concat (by simp [Parts, action])
      (by simp [Token.isItem, Token.declares?, action]) (by simp [action])

theorem refuses {error : ParseError} (recalls : Recalls text tokens assembly.documented?)
    (reached : ({} : Assembly).behind text tokens = assembly)
    (refuses : Refuses text token assembly next error) :
    Recalls text (tokens ++ [token]) next.documented? := by
  have aims : Aims assembly assembly.target := reached ▸ Aims.behind .none text tokens
  have refused : (assembly.apply text token).2 = some error := by
    rw [apply_of_refuses refuses]
  cases refuses with
  | guardExit action outside =>
    exact recalls.concat (by simp [Parts, action])
      (by simp [Token.isItem, Token.declares?, action]) (by simp [action])
  | portStart action unreadable =>
    rw [aims.documented?_settle]
    exact recalls.concat (by simp [Parts, action])
      (by simp [Token.isItem, Token.declares?, action, unreadable]) (by simp [action])
  | moduleEnd action inside =>
    rw [aims.documented?_settle]
    exact recalls.concat (by simp [Parts, action, reached, refused])
      (by simp [Token.isItem, Token.declares?, action]) (by simp [action])

theorem behind (text : String) (tokens : List Token) :
    Recalls text tokens (({} : Assembly).behind text tokens).documented? := by
  refine behind_induction (motive := fun tokens assembly =>
    Recalls text tokens assembly.documented?) (nothing .nil (by simp)) ?_ ?_ tokens
  · intro tokens token assembly next reached recalls takes
    exact recalls.takes reached takes
  · intro tokens token assembly next error reached recalls refuses
    exact recalls.refuses reached refuses

end Recalls

section Conclusions

variable (aims : Aims assembly assembly.target) (distinct : (assembly.ports.map (·.name)).Nodup)
include aims distinct

/-- A target that is a name leads to the last of the placed ports. -/
theorem documented?_of_port {name : String} (target : assembly.target = some (.port name)) :
    ∃ entry, assembly.documented? = some (.port entry) ∧ entry.name = name ∧
      assembly.ports.getLast? = some entry := by
  generalize found : assembly.target = target' at aims
  cases aims with
  | none | generic last | waiting last => cases found.symm.trans target
  | @port earlier port settled last =>
    cases found.symm.trans target
    rw [last] at distinct
    refine ⟨port, ?_, rfl, ?_⟩
    · simp only [documented?, found, last]
      rw [← placePort_of_nodup distinct, find?_placePort]
      rfl
    · rw [last, List.getLast?_concat]

/-- A target always leads to a declaration. -/
theorem documented?_eq_none_iff : assembly.documented? = none ↔ assembly.target = none := by
  constructor
  · intro nothing
    generalize found : assembly.target = target at aims
    cases aims with
    | none => rfl
    | generic last | waiting last => simp [documented?, found, last] at nothing
    | port settled last =>
      obtain ⟨entry, leads, _⟩ := documented?_of_port (found ▸ .port settled last) distinct found
      cases leads.symm.trans nothing
  · intro target
    simp only [documented?, target]

theorem resolves (recalls : Recalls text tokens assembly.documented?) :
    Resolves text tokens assembly where
  generic index found := by
    rw [found] at aims
    cases aims with
    | generic last => rw [last, List.length_append, List.length_singleton]
  waiting index found := by
    rw [found] at aims
    cases aims with
    | waiting last => rw [last, List.length_append, List.length_singleton]
  settled none index found := by
    rw [found] at aims
    cases aims with
    | waiting last => simp [last] at none
  port name found := by
    obtain ⟨entry, leads, named, last⟩ := documented?_of_port aims distinct found
    rw [leads] at recalls
    generalize same : Item.port entry = item at recalls
    cases recalls with
    | declaration latest => exact ⟨_, entry, latest, same.symm, named, last⟩
  distinct := distinct
  latest target := by
    generalize leads : assembly.documented? = recalled at recalls
    cases recalls with
    | nothing => exact (target ((documented?_eq_none_iff aims distinct).1 leads)).elim
    | declaration latest => exact ⟨_, latest, rfl⟩
  undeclared target := by
    generalize leads : assembly.documented? = recalled at recalls
    rw [(documented?_eq_none_iff aims distinct).2 target] at leads
    cases recalls with
    | nothing since undeclared => exact ⟨_, since, undeclared⟩
    | declaration latest => cases leads

theorem amends_describe (line : String) : Amends assembly line (assembly.describe line) := by
  generalize found : assembly.target = target at aims
  cases aims with
  | none =>
    have described : assembly.describe line =
        { assembly with documentation := assembly.documentation ++ [line] } := by
      simp only [describe, found]
    rw [described]
    exact .module found
  | @generic earlier entry last =>
    have described : assembly.describe line = { assembly with
        generics := earlier ++ [{ entry with description := some [line] }] } := by
      simp only [describe, found, last, Collects.modify_last]
    rw [described]
    exact .generic found last
  | @waiting earlier port last =>
    have described : assembly.describe line = { assembly with
        waiting := earlier ++ [{ port with description := some [line] }] } := by
      simp only [describe, found, last, Collects.modify_last]
    rw [described]
    exact .waiting found last
  | @port earlier entry settled last =>
    rw [last] at distinct
    have replaced := Collects.map_describe_placePort earlier entry line
    rw [placePort_of_nodup distinct, placePort_of_nodup (by simpa using distinct)] at replaced
    have described : assembly.describe line = { assembly with
        ports := earlier ++ [{ entry with description := some [line] }] } := by
      simp only [describe, found, last, replaced]
    rw [described]
    exact .port found last

end Conclusions

/-- Behind any tokens, however many of them were refused, the target leads to the declaration that
was read last, and the next documentation line changes that one thing or the module. -/
theorem target_resolves (text : String) (tokens : List Token) :
    Resolves text tokens (({} : Assembly).behind text tokens) ∧
      ∀ token : Token, token.action = .documentation →
        ∃ next, (({} : Assembly).behind text tokens).apply text token = (next, none) ∧
          Amends (({} : Assembly).behind text tokens) (Text.trim (token.group 0)) next := by
  have aims := @Aims.behind {} .none text tokens
  have distinct := (Indexes.behind text tokens).distinct
  have recalls := Recalls.behind text tokens
  refine ⟨resolves aims distinct recalls, fun token line => ?_⟩
  exact ⟨_, apply_of_takes text (.documentation line), amends_describe aims distinct _⟩

/-- A port that was declared twice is documented behind a head that could not be read. -/
theorem target_resolves_refused :
    let tokens : List Token :=
      [{ action := .guardExit }, { action := .moduleStart, groups := [some "m"] },
        { action := .parameterItem, groups := [some "W", some "8"] },
        { action := .portStart, groups := [some "input", some "wire b"] },
        { action := .portName, groups := [some "a"] },
        { action := .portName, groups := [some "b"] },
        { action := .documentation, groups := [some "first"] },
        { action := .portStart, groups := [some "output", some "[7:0"], offset := 9 }]
    let line : Token := { action := .documentation, groups := [some " last "] }
    let assembly := ({} : Assembly).behind "module m(" tokens
    assembly.target = some (.port "b") ∧ Resolves "module m(" tokens assembly ∧
      line.action = .documentation ∧
        ∃ next, assembly.apply "module m(" line = (next, none) ∧ Amends assembly "last" next ∧
          next.ports.map (fun port => (port.name, port.description)) =
            [("a", none), ("b", some ["last"])] := by
  intro tokens line assembly
  have target : assembly.target = some (.port "b") := by decide +kernel
  have trimmed : Text.trim (line.group 0) = "last" := by decide +kernel
  have documented : (assembly.apply "module m(" line).1.ports.map
      (fun port => (port.name, port.description)) = [("a", none), ("b", some ["last"])] := by
    decide +kernel
  obtain ⟨resolved, amended⟩ := target_resolves "module m(" tokens
  obtain ⟨next, taken, amends⟩ := amended line rfl
  rw [taken] at documented
  rw [trimmed] at amends
  exact ⟨target, resolved, rfl, next, taken, amends, documented⟩

end Assembly

end VerilogInterface
