import VerilogInterface.Proofs.Declarations
import VerilogInterface.Proofs.HeadShapes

/-! Heads that declare a port. The words in front of the first bracket of a head are its net type;
any other word outside of brackets names a port, and every port that is named stays in its
module. -/

namespace VerilogInterface

namespace PortHead

/-- Every bracket opened in the characters is closed in them. -/
def Outside (front : List Char) : Prop :=
  ∀ before after, front = before ++ '[' :: after → ']' ∈ after

structure WordOutside (head front word : List Char) : Prop where
  split : ∃ rest, head = front ++ word ++ rest
  some : word ≠ []
  plain : ∀ character ∈ word, Text.isBlank character = false ∧ character ≠ '['
  outside : Outside front

/-- A word stands outside of brackets, and not in front of the first of them. -/
def HasName (head : List Char) : Prop :=
  ∃ front word, WordOutside head front word ∧ ('[' ∈ front ∨ '[' ∉ head)

variable {characters front rest before after range : List Char} {character : Char}
  {head : PortHead}

theorem outside_of_not_mem (absent : '[' ∉ front) : Outside front := by
  rintro before after rfl
  simp at absent

theorem outside_closed (before : List Char) (absent : '[' ∉ after) :
    Outside (before ++ ']' :: after) := by
  intro earlier later same
  rcases split_apart same with ⟨_, mark, _⟩ | ⟨between, _, rfl⟩ | ⟨between, _, rfl⟩
  · exact absurd mark (by decide)
  · simp at absent
  · simp

/-- A text outside of brackets that has reached a bracket has passed the closing one. -/
theorem Outside.exists_behind (outside : Outside front) (present : '[' ∈ front)
    (absent : '[' ∉ before) (closes : ']' ∉ range)
    (same : before ++ '[' :: range ++ ']' :: after = front ++ rest) :
    ∃ inner, front = before ++ '[' :: range ++ ']' :: inner ∧ after = inner ++ rest := by
  rw [List.append_assoc, List.cons_append] at same
  obtain ⟨inner, rfl, tail⟩ := Text.exists_of_first absent present same
  obtain ⟨inner', rfl, tail'⟩ := Text.exists_of_first closes (outside _ _ rfl) tail
  exact ⟨inner', by simp, tail'⟩

theorem Outside.behind (outside : Outside (before ++ after)) : Outside after := by
  rintro earlier later rfl
  exact outside (before ++ earlier) later (by simp)

theorem phrase_eq_none_iff : phrase characters = none ↔ Text.Gap characters := by
  refine ⟨gap_of_phrase, fun all => ?_⟩
  have none := Text.wordRuns_gap all []
  rw [List.append_nil, Text.wordRuns_nil] at none
  rw [phrase_eq, if_pos none]

theorem not_gap_of_word {word : List Char} (some : word ≠ [])
    (plain : ∀ character ∈ word, Text.isBlank character = false ∧ character ≠ '[')
    (inside : word ⊆ characters) : ¬ Text.Gap characters := by
  obtain ⟨character, others, rfl⟩ := List.exists_cons_of_ne_nil some
  intro all
  have blank := all character (inside List.mem_cons_self)
  rw [(plain character List.mem_cons_self).1] at blank
  contradiction

theorem exists_plain (solid : ¬ Text.Gap characters) :
    ∃ before character after, characters = before ++ character :: after ∧
      Text.isBlank character = false := by
  simp only [Text.Gap, not_forall] at solid
  obtain ⟨character, member, plain⟩ := solid
  obtain ⟨before, after, split⟩ := List.append_of_mem member
  exact ⟨before, character, after, split, Bool.not_eq_true _ ▸ plain⟩

theorem hasName_of_plain (plain : Text.isBlank character = false) (other : character ≠ '[')
    (outside : Outside front) (place : '[' ∈ front ∨ '[' ∉ front ++ character :: rest) :
    HasName (front ++ character :: rest) := by
  refine ⟨front, [character], ⟨⟨rest, by simp⟩, List.cons_ne_nil _ _, ?_, outside⟩, place⟩
  intro same member
  rw [List.mem_singleton.1 member]
  exact ⟨plain, other⟩

namespace Spelled

/-- What is not blank behind a closed bracket names a port. -/
theorem hasName_closed {before after : List Char} (solid : ¬ Text.Gap after)
    (outside : '[' ∉ after) (opened : '[' ∈ before) (rest : List Char) :
    HasName (before ++ ']' :: after ++ rest) := by
  obtain ⟨front, character, behind, rfl, plain⟩ := exists_plain solid
  simp only [List.mem_append, List.mem_cons, not_or] at outside
  have place : '[' ∈ before ++ ']' :: front := by simp [opened]
  have named : HasName (before ++ ']' :: front ++ character :: (behind ++ rest)) :=
    hasName_of_plain plain (Ne.symm outside.2.1) (outside_closed before outside.1) (.inl place)
  simpa using named

theorem hasName (spelled : Spelled characters head) (named : head.name ≠ none) :
    HasName characters := by
  cases spelled with
  | words outside =>
    have solid : ¬ Text.Gap characters := by
      intro all
      rw [ofWords_of_gap all] at named
      exact named rfl
    obtain ⟨front, character, behind, rfl, plain⟩ := exists_plain solid
    have absent := outside
    simp only [List.mem_append, List.mem_cons, not_or] at absent
    exact hasName_of_plain plain (Ne.symm absent.2.1) (outside_of_not_mem absent.1) (.inr outside)
  | @ranged net range after _ _ _ outside =>
    have solid : ¬ Text.Gap after := fun all => named (phrase_eq_none_iff.2 all)
    have opened : '[' ∈ net ++ '[' :: range := by simp
    simpa using hasName_closed solid outside opened []
  | @arrayed net range between array after _ _ _ outside _ _ outside' =>
    by_cases all : Text.Gap between
    · have solid : ¬ Text.Gap after := by
        intro all'
        refine named ?_
        rw [phrase_eq_none_iff.2 all, phrase_eq_none_iff.2 all']
        rfl
      have opened : '[' ∈ net ++ '[' :: range ++ ']' :: between ++ '[' :: array := by simp
      simpa using hasName_closed solid outside' opened []
    · have opened : '[' ∈ net ++ '[' :: range := by simp
      simpa using hasName_closed all outside opened ('[' :: array ++ ']' :: after)

theorem name_ne_none (spelled : Spelled characters head) (named : HasName characters) :
    head.name ≠ none := by
  obtain ⟨front, word, ⟨⟨rest, split⟩, some, plain, outside⟩, place⟩ := named
  rw [List.append_assoc] at split
  cases spelled with
  | words =>
    exact fun none => not_gap_of_word some plain (by simp [split]) (gap_of_ofWords none)
  | @ranged net range after outside' _ closes _ =>
    have opened : '[' ∈ front := place.resolve_right (by simp)
    obtain ⟨inner, _, tail⟩ := outside.exists_behind opened outside' closes split
    exact fun none => not_gap_of_word some plain (by simp [tail]) (gap_of_phrase none)
  | @arrayed net range between array after outside' _ closes absent _ closes' _ =>
    have opened : '[' ∈ front := place.resolve_right (by simp)
    have split' : net ++ '[' :: range ++ ']' :: (between ++ '[' :: array ++ ']' :: after) =
        front ++ (word ++ rest) := by simpa using split
    obtain ⟨inner, rfl, tail⟩ := outside.exists_behind opened outside' closes split'
    have inside : Outside inner := by
      rw [List.append_cons] at outside
      exact outside.behind
    intro none
    obtain ⟨none, none'⟩ := Option.or_eq_none_iff.1 none
    by_cases opened' : '[' ∈ inner
    · obtain ⟨last, _, tail'⟩ := inside.exists_behind opened' absent closes' tail
      exact not_gap_of_word some plain (by simp [tail']) (gap_of_phrase none')
    · have free : '[' ∉ inner ++ word := by
        rw [List.mem_append, not_or]
        exact ⟨opened', fun member => (plain '[' member).2 rfl⟩
      rw [List.append_assoc between, List.cons_append, ← List.append_assoc inner] at tail
      obtain ⟨more, rfl⟩ := Text.exists_of_before free tail
      exact not_gap_of_word some plain (by simp) (gap_of_phrase none)

end Spelled

/-- The head of a text has a name just if a word of the text has the place of a name. -/
theorem Spelled.name_ne_none_iff (spelled : Spelled characters head) :
    head.name ≠ none ↔ HasName characters :=
  ⟨spelled.hasName, spelled.name_ne_none⟩

end PortHead

namespace Span

variable {text : String} {modules : List Module} {index : Nat} {span span' : Span} {place : Place}
  {module : Module} {tokens : List Token}

/-- The first token that bounds a module parts a list of tokens in one way. -/
theorem eq_of_bounds {lead lead' after after' : List Token} {mark mark' : Token}
    (silent : ∀ token ∈ lead, token.bounds = false)
    (silent' : ∀ token ∈ lead', token.bounds = false)
    (bounds : mark.bounds = true) (bounds' : mark'.bounds = true)
    (same : lead ++ mark :: after = lead' ++ mark' :: after') :
    lead = lead' ∧ mark = mark' ∧ after = after' := by
  rcases split_apart same with whole | ⟨between, rfl, _⟩ | ⟨between, rfl, _⟩
  · exact whole
  · rw [silent' mark (by simp)] at bounds
    contradiction
  · rw [silent mark' (by simp)] at bounds'
    contradiction

/-- What ends with the last of so many modules is as long as anything with so many ends. -/
theorem eq_nil_of_ended {passed more : List Token} (same : ended (passed ++ more) = ended passed)
    (last : ∀ token ∈ (passed ++ more).getLast?, token.action = .moduleEnd) : more = [] := by
  rcases List.eq_nil_or_concat more with rfl | ⟨init, token, rfl⟩
  · rfl
  · rw [List.concat_eq_append] at same last
    rw [← List.append_assoc, List.getLast?_concat] at last
    have stop := last token rfl
    rw [ended_append, ended_append] at same
    have counted : ended [token] = 1 := by simp [ended, stop]
    omega

/-- A module has one span in the tokens of a text. -/
theorem Within.unique (within : span.Within tokens index) (within' : span'.Within tokens index) :
    span = span' := by
  obtain ⟨passed, lead, start, body, stop⟩ := span
  obtain ⟨passed', lead', start', body', stop'⟩ := span'
  obtain ⟨⟨after, split⟩, count, last, silent, begins, inside, ends⟩ := within
  obtain ⟨⟨after', split'⟩, count', last', silent', begins', inside', ends'⟩ := within'
  simp only at count count' last last' silent silent' begins begins' inside inside' ends ends'
  have whole : passed ++ (lead ++ start :: (body ++ stop :: after)) =
      passed' ++ (lead' ++ start' :: (body' ++ stop' :: after')) := by
    rw [split] at split'
    simpa [Span.tokens] using split'
  have front : passed = passed' := by
    rcases List.append_eq_append_iff.1 whole with ⟨more, rfl, _⟩ | ⟨more, rfl, _⟩
    · rw [eq_nil_of_ended (count'.trans count.symm) last', List.append_nil]
    · rw [eq_nil_of_ended (count.trans count'.symm) last, List.append_nil]
  subst front
  have begin {token : Token} (action : token.action = .moduleStart) : token.bounds = true := by
    simp [Token.bounds, action]
  have end' {token : Token} (action : token.action = .moduleEnd) : token.bounds = true := by
    simp [Token.bounds, action]
  obtain ⟨rfl, rfl, rest⟩ := eq_of_bounds silent silent' (begin begins) (begin begins')
    (List.append_cancel_left whole)
  obtain ⟨rfl, rfl, _⟩ := eq_of_bounds inside inside' (end' ends) (end' ends') rest
  rfl

/-- Each span of a text that is read makes a module. -/
theorem Within.exists_makes (within : span.Within (VerilogInterface.tokens text) index)
    (parsed : parse text = .ok modules) :
    ∃ module, modules[index]? = some module ∧ span.Makes module := by
  have inside : index < modules.length := by
    obtain ⟨last, ran, _, _, rfl⟩ := run_of_parse parsed
    obtain ⟨added, grown, count⟩ := Assembly.run_grows ran
    obtain ⟨after, split⟩ := within.split
    have stop : ended [span.stop] = 1 := by simp [ended, within.stop]
    rw [split, Span.tokens] at count
    simp only [ended_append, within.earlier, stop] at count
    rw [grown, List.length_append, count]
    omega
  have found := List.getElem?_eq_getElem inside
  obtain ⟨span', within', makes⟩ := exists_span_of_parse parsed found
  rw [within.unique within']
  exact ⟨_, found, makes⟩

/-- Whatever a token of the module declares is a port of it. -/
theorem Makes.exists_port (makes : span.Makes module) (member : place ∈ span.places) {name : String}
    (declares : place.token.declares? = some name) : ∃ port ∈ module.ports, port.name = name := by
  have declared : place.port name ∈ span.items.filterMap Item.port? := by
    rw [ports_items]
    refine List.mem_filterMap.2 ⟨place, member, ?_⟩
    rw [Place.port?, declares]
    rfl
  obtain ⟨port, placed, named⟩ := exists_mem_placed.2 ⟨place.port name, declared, rfl⟩
  refine ⟨port, ?_, named⟩
  rw [makes.ports]
  exact (Ordered.sort_perm _ _).mem_iff.2 placed

theorem Makes.exists_port_of_mem (makes : span.Makes module) {token : Token}
    (member : token ∈ span.body) {name : String} (declares : token.declares? = some name) :
    ∃ port ∈ module.ports, port.name = name := by
  rw [← map_token_placesFrom (span.passed ++ span.lead ++ [span.start]) span.body] at member
  obtain ⟨place, inside, rfl⟩ := List.mem_map.1 member
  exact makes.exists_port inside declares

end Span

/-- What a head of ports declares: the port that it names, if a word has the place of a name, and
the ports whose names follow. -/
structure Place.Heads (place : Place) (module : Module) : Prop where
  named : PortHead.HasName (place.token.group 1).toList →
    ∃ port ∈ module.ports, place.token.declares? = some port.name
  unnamed : ¬ PortHead.HasName (place.token.group 1).toList → place.token.declares? = none
  continued : ∀ later ∈ place.after, later.action = .portName →
    ∃ port ∈ module.ports, later.declares? = some port.name

/-- No port of a module vanishes: a head with a word outside of brackets declares a port, unless the
words stand in front of the first bracket as its net type. -/
theorem heads_of_parse {text : String} {modules : List Module} {index : Nat} {span : Span}
    {place : Place} (parsed : parse text = .ok modules) (within : span.Within (tokens text) index)
    (member : place ∈ span.places) (opens : place.token.action = .portStart) :
    ∃ module, modules[index]? = some module ∧ place.Heads module := by
  obtain ⟨module, found, makes⟩ := within.exists_makes parsed
  obtain ⟨after, split⟩ := within.split_place member
  have listed : place.token ∈ tokens text := by simp [split]
  obtain ⟨head, read⟩ :=
    Option.isSome_iff_exists.1 ((accepted_of_parse parsed).heads place.token listed opens)
  have named := (PortHead.spelled_of_parse read).name_ne_none_iff
  have declares : place.token.declares? = head.name := by
    simp only [Token.declares?, opens, read, Option.bind_some]
  refine ⟨module, found, ?_, ?_, ?_⟩
  · intro word
    obtain ⟨name, same⟩ := Option.ne_none_iff_exists'.1 (named.2 word)
    obtain ⟨port, inside, rfl⟩ := makes.exists_port member (declares.trans same)
    exact ⟨port, inside, declares.trans same⟩
  · intro none
    rw [declares]
    exact not_ne_iff.1 fun some => none (named.1 some)
  · intro later behind name
    have inside : later ∈ span.body := by
      obtain ⟨earlier, _, body⟩ := mem_placesFrom.1 member
      simp [body, behind]
    have declares : later.declares? = some (later.group 0) := by simp only [Token.declares?, name]
    obtain ⟨port, inside, same⟩ := makes.exists_port_of_mem inside declares
    exact ⟨port, inside, by rw [declares, same]⟩

/-- A head with a net type, a range, a name and an array. -/
theorem exists_heads_wire :
    ∃ module,
      parse "module m(input wire [7:0] q [3:0],\noutput mem [0:3], r);\nendmodule\n" =
        .ok [module] ∧
      ∃ place : Place, place.token.group 1 = " wire [7:0] q [3:0]" ∧ place.Heads module := by
  let start : Token := ⟨.moduleStart, [some "m"], 0, 8⟩
  let first : Token := ⟨.portStart, [some "input", some " wire [7:0] q [3:0]"], 9, 33⟩
  let second : Token := ⟨.portStart, [some "output", some " mem [0:3]"], 34, 52⟩
  let span : Span :=
    ⟨[], [], start, [first, second, ⟨.portName, [some "r"], 52, 54⟩], ⟨.moduleEnd, [], 57, 66⟩⟩
  have parsed :
      parse "module m(input wire [7:0] q [3:0],\noutput mem [0:3], r);\nendmodule\n" =
        .ok [{ name := "m", ports := [
          { name := "q", direction := some .input, dataType := "wire [7:0][3:0]" },
          { name := "r", direction := some .output, dataType := "mem [0:3]" }] }] := by
    decide +kernel
  have within : span.Within
      (tokens "module m(input wire [7:0] q [3:0],\noutput mem [0:3], r);\nendmodule\n") 0 :=
    ⟨⟨[], by decide +kernel⟩, rfl, by simp [span], by simp [span], rfl, by decide, rfl⟩
  have member : ⟨[start], first, span.body.tail⟩ ∈ span.places := List.mem_cons_self
  obtain ⟨_, found, heads⟩ := heads_of_parse parsed within member rfl
  cases found
  exact ⟨_, parsed, _, rfl, heads⟩

/-- A head whose only word stands in front of its only bracket declares nothing. -/
theorem exists_head_without_name :
    ∃ span : Span, ∃ place ∈ span.places,
      parse "module m(input mem [0:3]);\nendmodule\n" = .ok [{ name := "m" }] ∧
      span.Within (tokens "module m(input mem [0:3]);\nendmodule\n") 0 ∧
      place.token.action = .portStart ∧
      PortHead.WordOutside (place.token.group 1).toList [' '] ['m', 'e', 'm'] ∧
      place.token.declares? = none ∧ place.after = [] := by
  let start : Token := ⟨.moduleStart, [some "m"], 0, 8⟩
  let head : Token := ⟨.portStart, [some "input", some " mem [0:3]"], 9, 24⟩
  have word : PortHead.WordOutside (head.group 1).toList [' '] ['m', 'e', 'm'] :=
    ⟨⟨" [0:3]".toList, by decide +kernel⟩, nofun, by simp [Text.isBlank],
      PortHead.outside_of_not_mem (by decide)⟩
  exact ⟨⟨[], [], start, [head], ⟨.moduleEnd, [], 27, 36⟩⟩, ⟨[start], head, []⟩,
    List.mem_cons_self, by decide +kernel,
    ⟨⟨[], by decide +kernel⟩, rfl, by simp, by simp, rfl, by decide, rfl⟩, rfl, word,
    by decide +kernel, rfl⟩

end VerilogInterface
