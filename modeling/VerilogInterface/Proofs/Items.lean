import Mathlib.Data.List.Induction
import VerilogInterface.Assembly
import VerilogInterface.Proofs.Guards

/-! What a list of tokens declares, read off the tokens around each declaration instead of an
assembly. Growing the list by one token adds an item, describes the last one, or changes nothing. -/

namespace VerilogInterface

def Token.declares? (token : Token) : Option String :=
  match token.action with
  | .portName => some (token.group 0)
  | .portStart => (PortHead.parse (token.group 1)).bind (·.name)
  | _ => none

def Token.isItem (token : Token) : Bool :=
  token.action == .parameterItem || token.declares?.isSome

def lastOf (action : Action) (tokens : List Token) : Option Token :=
  (tokens.filter (·.action == action)).getLast?

def documentationLines (tokens : List Token) : List String :=
  (tokens.filter (·.action == .documentation)).map fun token => Text.trim (token.group 0)

/-- A token with the tokens before it and the tokens after it. -/
structure Place where
  before : List Token
  token : Token
  after : List Token

def placesFrom (before : List Token) : List Token → List Place
  | [] => []
  | token :: after => ⟨before, token, after⟩ :: placesFrom (before ++ [token]) after

def untilItem (tokens : List Token) : List Token := tokens.takeWhile (! ·.isItem)

namespace Place

/-- The last documentation line before the next item. -/
def description? (place : Place) : Option (List String) :=
  (documentationLines (untilItem place.after)).getLast?.map ([·])

/-- The head in force for a port declared here, which may be declared by the head itself. -/
def portStart? (place : Place) : Option Token :=
  lastOf .portStart (place.before ++ [place.token])

def parameterStart? (place : Place) : Option Token := lastOf .parameterStart place.before

end Place

inductive Item where
  | generic (entry : Parameter)
  | port (entry : Parameter)

namespace Item

def generic? : Item → Option Parameter
  | generic entry => some entry
  | port _ => none

def port? : Item → Option Parameter
  | generic _ => none
  | port entry => some entry

def describe (line : String) : Item → Item
  | generic entry => generic { entry with description := some [line] }
  | port entry => port { entry with description := some [line] }

end Item

namespace Place

def generic (place : Place) : Parameter :=
  { name := place.token.group 0
    direction := some .into
    dataType := (place.parameterStart?.map fun head =>
      parameterType (head.group? 0) (head.group? 1)).getD ""
    defaultValue := some (place.token.group 1)
    description := place.description?
    guard := (openGuards place.before).head? }

def port (place : Place) (name : String) : Parameter :=
  { name
    direction := some ((place.portStart?.bind fun head =>
      Direction.ofKeyword? (head.group 0)).getD .input)
    dataType := ((place.portStart?.bind fun head =>
      PortHead.parse (head.group 1)).map (·.dataType)).getD ""
    description := place.description?
    guard := (openGuards place.before).head? }

def item? (place : Place) : Option Item :=
  if place.token.action = .parameterItem then some (.generic place.generic)
  else place.token.declares?.map fun name => .port (place.port name)

def extend (place : Place) (token : Token) : Place := { place with after := place.after ++ [token] }

end Place

def items (before tokens : List Token) : List Item :=
  (placesFrom before tokens).filterMap Place.item?

variable {before tokens : List Token} {token : Token}

theorem lastOf_append (action : Action) (first second : List Token) :
    lastOf action (first ++ second) = (lastOf action second).or (lastOf action first) := by
  rw [lastOf, List.filter_append, List.getLast?_append]
  rfl

theorem lastOf_concat (action : Action) (tokens : List Token) (token : Token) :
    lastOf action (tokens ++ [token]) =
      if token.action = action then some token else lastOf action tokens := by
  rw [lastOf_append]
  by_cases same : token.action = action <;> simp [lastOf, same]

theorem exists_lastOf {action : Action} (some : ∃ token ∈ tokens, token.action = action) :
    ∃ token, lastOf action tokens = .some token := by
  obtain ⟨token, member, same⟩ := some
  refine Option.isSome_iff_exists.1 (List.getLast?_isSome.2 (List.ne_nil_of_mem (a := token) ?_))
  simpa [same] using member

theorem mem_of_lastOf {action : Action} (found : lastOf action tokens = some token) :
    token ∈ tokens ∧ token.action = action := by
  have member := List.mem_of_getLast? found
  simpa using member

theorem placesFrom_concat (before tokens : List Token) (token : Token) :
    placesFrom before (tokens ++ [token]) =
      (placesFrom before tokens).map (·.extend token) ++ [⟨before ++ tokens, token, []⟩] := by
  induction tokens generalizing before with
  | nil => simp [placesFrom]
  | cons first tokens ih => simp [placesFrom, ih, Place.extend]

theorem mem_placesFrom {place : Place} :
    place ∈ placesFrom before tokens ↔
      ∃ earlier, place.before = before ++ earlier ∧
        tokens = earlier ++ place.token :: place.after := by
  induction tokens generalizing before with
  | nil => simp [placesFrom]
  | cons first tokens ih =>
    rw [placesFrom, List.mem_cons, ih]
    constructor
    · rintro (rfl | ⟨earlier, same, rfl⟩)
      · exact ⟨[], by simp, rfl⟩
      · exact ⟨first :: earlier, by simp [same], rfl⟩
    · rintro ⟨earlier, same, split⟩
      cases earlier with
      | nil =>
        cases split
        exact .inl (by cases place; simp_all)
      | cons _ earlier =>
        cases split
        exact .inr ⟨earlier, by simp [same], rfl⟩

theorem map_token_placesFrom (before tokens : List Token) :
    (placesFrom before tokens).map (·.token) = tokens := by
  induction tokens generalizing before with
  | nil => rfl
  | cons first tokens ih => rw [placesFrom, List.map_cons, ih]

theorem after_of_placesFrom {earlier later : List Place} {place : Place}
    (split : placesFrom before tokens = earlier ++ place :: later) :
    place.after = later.map (·.token) := by
  induction earlier generalizing before tokens with
  | nil =>
    cases tokens with
    | nil => contradiction
    | cons first tokens =>
      cases split
      exact (map_token_placesFrom _ tokens).symm
  | cons _ earlier ih =>
    cases tokens with
    | nil => contradiction
    | cons first tokens => exact ih (List.cons.inj split).2

theorem item?_isSome (place : Place) : place.item?.isSome = place.token.isItem := by
  unfold Place.item? Token.isItem
  split <;> simp [*]

theorem items_cons (before tokens : List Token) (token : Token) :
    items before (token :: tokens) =
      (⟨before, token, tokens⟩ : Place).item?.toList ++ items (before ++ [token]) tokens := by
  rw [items, placesFrom, List.filterMap_cons]
  cases (⟨before, token, tokens⟩ : Place).item? <;> rfl

theorem items_eq_nil_iff : items before tokens = [] ↔ ∀ token ∈ tokens, token.isItem = false := by
  induction tokens generalizing before with
  | nil => simp [items, placesFrom]
  | cons first tokens ih =>
    have known := item?_isSome ⟨before, first, tokens⟩
    rw [items_cons, List.append_eq_nil_iff, ih, Option.toList_eq_nil_iff,
      ← Option.not_isSome_iff_eq_none, known]
    simp

theorem documentationLines_append (first second : List Token) :
    documentationLines (first ++ second) =
      documentationLines first ++ documentationLines second := by
  simp [documentationLines]

theorem untilItem_cons (token : Token) (tokens : List Token) :
    untilItem (token :: tokens) = if token.isItem then [] else token :: untilItem tokens := by
  cases item : token.isItem <;> simp [untilItem, item]

theorem untilItem_of_no_item (none : ∀ token ∈ tokens, token.isItem = false) :
    untilItem tokens = tokens := by
  induction tokens with
  | nil => rfl
  | cons first tokens ih =>
    obtain ⟨head, tail⟩ := List.forall_mem_cons.1 none
    rw [untilItem_cons, head, ih tail]
    rfl

theorem no_item_concat (none : ∀ token ∈ tokens, token.isItem = false)
    (plain : token.isItem = false) : ∀ later ∈ tokens ++ [token], later.isItem = false := by
  simpa [plain, or_imp, forall_and] using none

theorem untilItem_append_of_item (rest : List Token) (item : ∃ token ∈ tokens, token.isItem = true) :
    untilItem (tokens ++ rest) = untilItem tokens := by
  obtain ⟨inner, member, isItem⟩ := item
  induction tokens with
  | nil => cases member
  | cons first tokens ih =>
    rw [List.cons_append, untilItem_cons, untilItem_cons]
    rcases List.mem_cons.1 member with rfl | later
    · rw [isItem]
      rfl
    · rw [ih later]

/-- Only a documentation line can lengthen the documentation in front of the first item. -/
theorem documentationLines_untilItem_concat (plain : token.action ≠ .documentation) :
    documentationLines (untilItem (tokens ++ [token])) = documentationLines (untilItem tokens) := by
  induction tokens with
  | nil =>
    rw [List.nil_append, untilItem_cons]
    cases token.isItem <;> simp [untilItem, documentationLines, plain]
  | cons first tokens ih =>
    rw [List.cons_append, untilItem_cons, untilItem_cons]
    cases first.isItem with
    | true => rfl
    | false =>
      have split (rest : List Token) : documentationLines (first :: rest) =
          documentationLines [first] ++ documentationLines rest := documentationLines_append [first] rest
      simp only [Bool.false_eq_true, if_false]
      rw [split, ih, ← split]

/-- Only a documentation line can change what describes an earlier declaration. -/
theorem Place.description?_extend (place : Place) (plain : token.action ≠ .documentation) :
    (place.extend token).description? = place.description? := by
  unfold description? extend
  rw [documentationLines_untilItem_concat plain]

private theorem item?_eq_of_description {place : Place} {token : Token}
    (same : (place.extend token).description? = place.description?) :
    (place.extend token).item? = place.item? := by
  unfold Place.item? Place.generic Place.port
  rw [same]
  rfl

theorem items_concat (plain : token.action ≠ .documentation) :
    items before (tokens ++ [token]) =
      items before tokens ++ (⟨before ++ tokens, token, []⟩ : Place).item?.toList := by
  have kept (place : Place) : (place.extend token).item? = place.item? :=
    item?_eq_of_description (place.description?_extend plain)
  rw [items, placesFrom_concat, List.filterMap_append, List.filterMap_map]
  simp only [Function.comp_def, kept]
  rw [items, List.filterMap_cons]
  cases (⟨before ++ tokens, token, []⟩ : Place).item? <;> rfl

def describeLast (line : String) : List Item → List Item
  | [] => []
  | [item] => [item.describe line]
  | item :: next :: rest => item :: describeLast line (next :: rest)

theorem describeLast_concat (line : String) (list : List Item) (item : Item) :
    describeLast line (list ++ [item]) = list ++ [item.describe line] := by
  induction list with
  | nil => rfl
  | cons first list ih =>
    cases list with
    | nil => rfl
    | cons => exact congrArg (first :: ·) ih

theorem describeLast_append (line : String) (list : List Item) {last : List Item}
    (some : last ≠ []) : describeLast line (list ++ last) = list ++ describeLast line last := by
  rcases List.eq_nil_or_concat last with rfl | ⟨init, item, rfl⟩
  · exact (some rfl).elim
  · rw [List.concat_eq_append, ← List.append_assoc, describeLast_concat, describeLast_concat,
      List.append_assoc]

theorem not_isItem_of_documentation (line : token.action = .documentation) :
    token.isItem = false := by
  simp [Token.isItem, Token.declares?, line]

/-- A documentation line behind the last declaration describes it. -/
theorem Place.description?_extend_documentation {place : Place}
    (line : token.action = .documentation) (last : ∀ later ∈ place.after, later.isItem = false) :
    (place.extend token).description? = some [Text.trim (token.group 0)] := by
  have all := no_item_concat last (not_isItem_of_documentation line)
  unfold description? extend
  rw [untilItem_of_no_item all, documentationLines_append]
  simp [documentationLines, line]

private theorem item?_extend_documentation {place : Place} (line : token.action = .documentation)
    (last : ∀ later ∈ place.after, later.isItem = false) :
    (place.extend token).item? = place.item?.map (·.describe (Text.trim (token.group 0))) := by
  unfold Place.item? Place.generic Place.port
  rw [Place.description?_extend_documentation line last]
  by_cases generic : place.token.action = .parameterItem
  · simp only [Place.extend, generic, ↓reduceIte]
    rfl
  · simp only [Place.extend, generic, ↓reduceIte, Option.map_map]
    rfl

/-- A documentation line replaces the description of the last declaration and touches no other. -/
theorem items_concat_documentation (line : token.action = .documentation) :
    items before (tokens ++ [token]) =
      describeLast (Text.trim (token.group 0)) (items before tokens) := by
  induction tokens generalizing before with
  | nil =>
    have none : (⟨before, token, []⟩ : Place).item? = none := by
      rw [← Option.not_isSome_iff_eq_none, item?_isSome, not_isItem_of_documentation line]
      simp
    rw [List.nil_append, items_cons, none]
    rfl
  | cons first tokens ih =>
    rw [List.cons_append, items_cons, ih, items_cons]
    by_cases item : ∃ later ∈ tokens, later.isItem = true
    · have kept : (Place.extend ⟨before, first, tokens⟩ token).description? =
          (⟨before, first, tokens⟩ : Place).description? := by
        unfold Place.description? Place.extend
        rw [untilItem_append_of_item _ item]
      have same := item?_eq_of_description kept
      rw [Place.extend] at same
      have some : items (before ++ [first]) tokens ≠ [] := by
        rw [Ne, items_eq_nil_iff]
        simpa using item
      rw [same, describeLast_append _ _ some]
    · have last : ∀ later ∈ tokens, later.isItem = false := by simpa using item
      have described := @item?_extend_documentation token ⟨before, first, tokens⟩ line last
      rw [Place.extend] at described
      rw [described, items_eq_nil_iff.2 last]
      cases (⟨before, first, tokens⟩ : Place).item? <;> rfl

end VerilogInterface
