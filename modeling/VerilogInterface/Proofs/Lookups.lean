import VerilogInterface.Proofs.ByteOrder
import VerilogInterface.Proofs.Settling

/-! A finished module is an index of its ports. Whatever tokens came before and however many of them
were refused, the ports stand in strictly ascending order of their names, so that halving finds each
of them, and the generics are the parameter tokens of the module in their order. -/

namespace VerilogInterface

section Search

variable {entries : List Parameter} {entry other : Parameter} {name : String}
  {place middle low high : Nat}

theorem compare_eq_lt_iff {first second : String} :
    compare first second = .lt ↔ first < second := compareOfLessAndEq_eq_lt

theorem compare_eq_gt_iff {first second : String} :
    compare first second = .gt ↔ second < first :=
  Std.OrientedCmp.gt_iff_lt.trans compare_eq_lt_iff

theorem mem_of_findByName {entries : Array Parameter}
    (found : findByName entries name low high = some entry) :
    entry ∈ entries ∧ entry.name = name := by
  fun_induction findByName entries name low high with
  | case1 | case5 => contradiction
  | case2 low high nonempty other read same =>
    cases found
    exact ⟨Array.mem_of_getElem? read, Std.LawfulEqOrd.eq_of_compare same⟩
  | case3 low high nonempty other read less ih => exact ih found
  | case4 low high nonempty other read greater ih => exact ih found

/-- In ascending order an entry stands before another exactly when its name does. -/
theorem place_lt_iff (ascending : entries.Pairwise (·.name < ·.name))
    (one : entries[place]? = some entry) (two : entries[middle]? = some other) :
    place < middle ↔ entry.name < other.name := by
  obtain ⟨inside, rfl⟩ := List.getElem?_eq_some_iff.1 one
  obtain ⟨inside', rfl⟩ := List.getElem?_eq_some_iff.1 two
  have ordered := List.pairwise_iff_getElem.1 ascending
  refine ⟨ordered _ _ _ _, fun less => ?_⟩
  by_contra after
  rcases Nat.lt_or_eq_of_le (Nat.not_lt.1 after) with after | rfl
  · exact String.lt_asymm less (ordered _ _ _ _ after)
  · exact String.lt_irrefl _ less

/-- The halving never loses the entry that it looks for. -/
theorem findByName_of_getElem? (ascending : entries.Pairwise (·.name < ·.name))
    (stands : entries[place]? = some entry) (fromLow : low ≤ place) (below : place < high)
    (inside : high ≤ entries.length) :
    findByName entries.toArray entry.name low high = some entry := by
  fun_induction findByName entries.toArray entry.name low high with
  | case1 low high nonempty missing =>
    rw [List.getElem?_toArray, List.getElem?_eq_none_iff] at missing
    omega
  | case2 low high nonempty other read same =>
    rw [List.getElem?_toArray] at read
    have named : other.name = entry.name := Std.LawfulEqOrd.eq_of_compare same
    have before := place_lt_iff ascending stands read
    have after := place_lt_iff ascending read stands
    simp only [named, String.lt_irrefl, iff_false, Nat.not_lt] at before after
    rw [Nat.le_antisymm after before] at stands
    exact read.symm.trans stands
  | case3 low high nonempty other read less ih =>
    rw [List.getElem?_toArray] at read
    exact ih ((place_lt_iff ascending read stands).2 (compare_eq_lt_iff.1 less)) below inside
  | case4 low high nonempty other read greater ih =>
    rw [List.getElem?_toArray] at read
    exact ih fromLow ((place_lt_iff ascending stands read).2 (compare_eq_gt_iff.1 greater))
      (by omega)
  | case5 low high empty => omega

theorem findByName_eq_some_iff (ascending : entries.Pairwise (·.name < ·.name)) :
    findByName entries.toArray name 0 entries.length = some entry ↔
      entry ∈ entries ∧ entry.name = name := by
  constructor
  · intro found
    obtain ⟨member, named⟩ := mem_of_findByName found
    exact ⟨List.mem_toArray.1 member, named⟩
  · rintro ⟨member, rfl⟩
    obtain ⟨place, stands⟩ := List.mem_iff_getElem?.1 member
    obtain ⟨inside, _⟩ := List.getElem?_eq_some_iff.1 stands
    exact findByName_of_getElem? ascending stands (Nat.zero_le _) inside (Nat.le_refl _)

end Search

/-- The ports of a module are an index by name, and its generics answer for their first name. -/
structure Module.Indexed (module : Module) : Prop where
  ascending : module.ports.Pairwise fun first second =>
    Text.bytes first.name < Text.bytes second.name
  port : ∀ name entry, module.port? name = some entry ↔ entry ∈ module.ports ∧ entry.name = name
  generic : ∀ name entry, module.generic? name = some entry ↔
    ∃ earlier later, module.generics = earlier ++ entry :: later ∧ entry.name = name ∧
      ∀ other ∈ earlier, other.name ≠ name

theorem Module.generic?_eq_some_iff {module : Module} {name : String} {entry : Parameter} :
    module.generic? name = some entry ↔
      ∃ earlier later, module.generics = earlier ++ entry :: later ∧ entry.name = name ∧
        ∀ other ∈ earlier, other.name ≠ name := by
  rw [Module.generic?, List.find?_eq_some_iff_append]
  simp only [beq_iff_eq, Bool.not_eq_eq_eq_not, Bool.not_true, beq_eq_false_iff_ne]
  constructor
  · rintro ⟨named, earlier, later, split, first⟩
    exact ⟨earlier, later, split, named, first⟩
  · rintro ⟨earlier, later, split, named, first⟩
    exact ⟨named, earlier, later, split, first⟩

theorem Module.indexed_of_pairwise {module : Module}
    (ascending : module.ports.Pairwise (·.name < ·.name)) : module.Indexed where
  ascending := ascending.imp Text.bytes_lt
  port _ _ := findByName_eq_some_iff ascending
  generic _ _ := Module.generic?_eq_some_iff

namespace Assembly

def Parts (text : String) (before : List Token) (token : Token) : Prop :=
  token.action = .moduleStart ∨
    token.action = .moduleEnd ∧ ((({} : Assembly).behind text before).apply text token).2 = none

/-- The tokens behind the last one that began or ended a module. -/
inductive Since (text : String) : List Token → List Token → Prop where
  | nil : Since text [] []
  | parts {before : List Token} {token : Token} (parts : Parts text before token) :
      Since text (before ++ [token]) []
  | concat {before body : List Token} {token : Token} (since : Since text before body)
      (within : ¬ Parts text before token) : Since text (before ++ [token]) (body ++ [token])

def Lists (body : List Token) (generics : List Parameter) : Prop :=
  generics.map (fun entry => (entry.name, entry.defaultValue)) =
    (body.filter (·.action == .parameterItem)).map fun token =>
      (token.group 0, some (token.group 1))

end Assembly

/-- The module ends with a token that is not refused, and its generics are the parameter tokens
since its beginning. -/
def Module.Lists (text : String) (tokens : List Token) (module : Module) : Prop :=
  ∃ before body stop after, tokens = before ++ stop :: after ∧ stop.action = .moduleEnd ∧
    ((({} : Assembly).behind text before).apply text stop).2 = none ∧
    Assembly.Since text before body ∧ Assembly.Lists body module.generics

namespace Assembly

variable {text : String} {tokens body : List Token} {token : Token} {assembly next : Assembly}

/-- Behind the given tokens no two placed ports share a name, the generics are those of the module
under construction, and every finished module is an index. -/
structure Indexes (text : String) (tokens : List Token) (assembly : Assembly) : Prop where
  distinct : (assembly.ports.map (·.name)).Nodup
  generics : ∃ body, Since text tokens body ∧ Lists body assembly.generics
  modules : ∀ module ∈ assembly.modules, module.Indexed ∧ module.Lists text tokens

theorem Lists.concat {generics generics' : List Parameter} (lists : Lists body generics)
    (other : token.action ≠ .parameterItem)
    (same : generics'.map (fun entry => (entry.name, entry.defaultValue)) =
      generics.map fun entry => (entry.name, entry.defaultValue)) :
    Lists (body ++ [token]) generics' := by
  rw [Lists, same, lists, List.filter_append]
  simp [other]

theorem Lists.addGeneric {generics : List Parameter} {entry : Parameter}
    (lists : Lists body generics) (action : token.action = .parameterItem)
    (named : entry.name = token.group 0)
    (value : entry.defaultValue = some (token.group 1)) :
    Lists (body ++ [token]) (generics ++ [entry]) := by
  rw [Lists, List.map_append, lists, List.filter_append]
  simp [action, named, value]

theorem nodup_settle (distinct : (assembly.ports.map (·.name)).Nodup) :
    (assembly.settle.ports.map (·.name)).Nodup := by
  simp only [settle]
  generalize assembly.waiting.map assembly.entry = settled
  revert distinct
  generalize assembly.ports = ports
  intro distinct
  induction settled generalizing ports with
  | nil => exact distinct
  | cons port rest ih => exact ih _ (nodup_placePort distinct port)

theorem map_modify {α β : Type} {view : α → β} {change : α → α}
    (same : ∀ entry, view (change entry) = view entry) (entries : List α) (index : Nat) :
    (entries.modify index change).map view = entries.map view := by
  apply List.ext_getElem?
  intro place
  rw [List.getElem?_map, List.getElem?_map, List.getElem?_modify]
  cases entries[place]? <;> by_cases here : index = place <;> simp [here, same]

theorem describe_port_names (assembly : Assembly) (line : String) :
    (assembly.describe line).ports.map (·.name) = assembly.ports.map (·.name) := by
  unfold describe
  split
  case h_4 =>
    rw [List.map_map]
    refine List.map_congr_left fun port _ => ?_
    rw [Function.comp_apply]
    split <;> rfl
  all_goals rfl

theorem describe_generics (assembly : Assembly) (line : String) :
    (assembly.describe line).generics.map (fun entry => (entry.name, entry.defaultValue)) =
      assembly.generics.map fun entry => (entry.name, entry.defaultValue) := by
  unfold describe
  split
  case h_2 =>
    apply map_modify
    exact fun _ => rfl
  all_goals rfl

theorem Module.Lists.append {module : Module} (lists : module.Lists text tokens)
    (more : List Token) : module.Lists text (tokens ++ more) := by
  obtain ⟨before, body, stop, after, rfl, rest⟩ := lists
  exact ⟨before, body, stop, after ++ more, by simp, rest⟩

namespace Indexes

theorem start (text : String) : Indexes text [] {} where
  distinct := .nil
  generics := ⟨[], .nil, rfl⟩
  modules _ member := by cases member

/-- A token that parts no modules is one more of the module under construction. -/
theorem concat (indexes : Indexes text tokens assembly) (within : ¬ Parts text tokens token)
    (distinct : (next.ports.map (·.name)).Nodup)
    (generics : ∀ body, Lists body assembly.generics → Lists (body ++ [token]) next.generics)
    (modules : next.modules = assembly.modules) : Indexes text (tokens ++ [token]) next where
  distinct := distinct
  generics :=
    have ⟨body, since, lists⟩ := indexes.generics
    ⟨body ++ [token], since.concat within, generics body lists⟩
  modules module member :=
    have ⟨indexed, lists⟩ := indexes.modules module (modules ▸ member)
    ⟨indexed, Module.Lists.append lists [token]⟩

/-- A token that neither begins nor ends a module and adds no generic. -/
theorem plain (indexes : Indexes text tokens assembly) (start : token.action ≠ .moduleStart)
    (stop : token.action ≠ .moduleEnd) (item : token.action ≠ .parameterItem)
    (distinct : (next.ports.map (·.name)).Nodup)
    (generics : next.generics = assembly.generics)
    (modules : next.modules = assembly.modules) : Indexes text (tokens ++ [token]) next :=
  indexes.concat (by simp [Parts, start, stop]) distinct
    (fun _ lists => lists.concat item (by rw [generics])) modules

theorem takes (indexes : Indexes text tokens assembly)
    (reached : ({} : Assembly).behind text tokens = assembly) (takes : Takes token assembly next) :
    Indexes text (tokens ++ [token]) next := by
  cases takes with
  | documentation action =>
    refine indexes.concat (by simp [Parts, action]) ?_ (fun _ lists => ?_) (describe_modules _)
    · rw [describe_port_names]
      exact indexes.distinct
    · exact lists.concat (by simp [action]) (describe_generics _ _)
  | parameterItem action =>
    exact indexes.concat (by simp [Parts, action]) indexes.distinct
      (fun _ lists => lists.addGeneric action rfl rfl) rfl
  | moduleStart action =>
    exact ⟨.nil, ⟨[], .parts (.inl action), rfl⟩, fun module member =>
      have ⟨indexed, lists⟩ := indexes.modules module member
      ⟨indexed, Module.Lists.append lists [token]⟩⟩
  | moduleEnd action outside =>
    obtain ⟨body, since, lists⟩ := indexes.generics
    have taken : (assembly.apply text token).2 = none := by
      rw [apply_of_takes text (.moduleEnd action outside)]
    rw [← reached] at taken
    refine ⟨.nil, ⟨[], .parts (.inr ⟨action, taken⟩), rfl⟩, fun module member => ?_⟩
    rcases List.mem_append.1 member with earlier | last
    · obtain ⟨indexed, lists⟩ := indexes.modules module earlier
      exact ⟨indexed, Module.Lists.append lists [token]⟩
    · cases List.mem_singleton.1 last
      exact ⟨Module.indexed_of_pairwise (pairwise_sort (nodup_settle indexes.distinct)),
        tokens, body, token, [], rfl, action, taken, since, lists⟩
  | comment action =>
    have : token.action ≠ .moduleStart ∧ token.action ≠ .moduleEnd ∧
        token.action ≠ .parameterItem := by
      rcases action with action | action <;> simp [action]
    exact indexes.plain this.1 this.2.1 this.2.2 indexes.distinct rfl rfl
  | portStart action read unnamed | namedPortStart action read named =>
    exact indexes.plain (by simp [action]) (by simp [action]) (by simp [action])
      (nodup_settle indexes.distinct) rfl rfl
  | _ action =>
    exact indexes.plain (by simp [action]) (by simp [action]) (by simp [action])
      indexes.distinct rfl rfl

theorem refuses {error : ParseError} (indexes : Indexes text tokens assembly)
    (reached : ({} : Assembly).behind text tokens = assembly)
    (refuses : Refuses text token assembly next error) : Indexes text (tokens ++ [token]) next := by
  have refused : (assembly.apply text token).2 = some error := by
    rw [apply_of_refuses refuses]
  cases refuses with
  | guardExit action outside =>
    exact indexes.plain (by simp [action]) (by simp [action]) (by simp [action])
      indexes.distinct rfl rfl
  | portStart action unreadable =>
    exact indexes.plain (by simp [action]) (by simp [action]) (by simp [action])
      (nodup_settle indexes.distinct) rfl rfl
  | moduleEnd action inside =>
    have within : ¬ Parts text tokens token := by
      rw [Parts, reached, refused]
      simp [action]
    exact indexes.concat within (nodup_settle indexes.distinct)
      (fun _ lists => lists.concat (by simp [action]) rfl) rfl

theorem behind (text : String) (tokens : List Token) :
    Indexes text tokens (({} : Assembly).behind text tokens) := by
  refine behind_induction (motive := Indexes text) (start text) ?_ ?_ tokens
  · intro tokens token assembly next reached indexes takes
    exact indexes.takes reached takes
  · intro tokens token assembly next error reached indexes refuses
    exact indexes.refuses reached refuses

end Indexes

/-- Whatever tokens are taken up and however many of them are refused, every module in the end has
its ports in strictly ascending order, answers for every name with the entry of that name, and keeps
its generics in the order of their tokens. -/
theorem indexed_of_finish {modules : List Module} {module : Module}
    (finished : (({} : Assembly).behind text tokens).finish text = .ok modules)
    (member : module ∈ modules) : module.Indexed ∧ module.Lists text tokens := by
  have kept : (({} : Assembly).behind text tokens).modules = modules := by
    unfold finish at finished
    split at finished
    · cases finished
    · exact Except.ok.inj finished
  exact (Indexes.behind text tokens).modules module (kept ▸ member)

/-- A port declared again, a parameter declared twice and two tokens that are refused. -/
theorem indexed_of_finish_refused :
    let tokens : List Token :=
      [{ action := .guardExit }, { action := .moduleStart, groups := [some "m"] },
        { action := .parameterItem, groups := [some "W", some "8"] },
        { action := .portStart, groups := [some "input", some "wire b"] },
        { action := .portName, groups := [some "a"] },
        { action := .portStart, groups := [some "output", some "[7:0"], offset := 9 },
        { action := .portName, groups := [some "b"] },
        { action := .parameterItem, groups := [some "A", some "1"] },
        { action := .parameterItem, groups := [some "W", some "9"] },
        { action := .moduleEnd }]
    let port (name : String) : Parameter :=
      { name, direction := some .input, dataType := "wire" }
    let generic (name value : String) : Parameter :=
      { name, direction := some .into, dataType := "", defaultValue := some value }
    let module : Module :=
      { name := "m"
        ports := [port "a", port "b"]
        generics := [generic "W" "8", generic "A" "1", generic "W" "9"] }
    (({} : Assembly).behind "module m(" tokens).finish "module m(" = .ok [module] ∧
      module ∈ [module] ∧ module.Indexed ∧ module.Lists "module m(" tokens := by
  intro tokens port generic module
  have finished : (({} : Assembly).behind "module m(" tokens).finish "module m(" =
      .ok [module] := by
    rfl
  have member : module ∈ [module] := List.mem_singleton_self _
  exact ⟨finished, member, indexed_of_finish finished member⟩

end Assembly
end VerilogInterface
