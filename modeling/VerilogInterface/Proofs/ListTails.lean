import VerilogInterface.Proofs.HeadPauses

/-! What stands behind a member of a list. Blanks and one comma mean nothing there, whether the member
before took them or they are passed over; and a name is a member of its own wherever it stands. -/

namespace VerilogInterface

open Text Verilog Pattern

variable {far tail name rest behind : List Char} {text : String}

theorem Pattern.Bars.comma_absent (other : rest.head? ≠ some ',') : (symbol ',').Bars rest := by
  apply Bars.literal
  cases rest with
  | nil => rfl
  | cons first rest =>
    rw [List.isPrefixOf_cons_cons, Bool.and_eq_false_iff]
    exact .inl (beq_eq_false_iff_ne.2 fun same => other (congrArg some same.symm))

/-- Blanks and a comma behind a member are taken with it. -/
theorem exists_listTail (trails : Trails tail) (behind : List Char) :
    ∃ more rest, behind = more ++ rest ∧ Trails more ∧
      ∀ previous, listTail.Prefers previous (tail ++ more) rest [] := by
  obtain ⟨gap, all, rfl | rfl⟩ := trails
  · obtain ⟨gap', core, rfl, all', ends⟩ := exists_gap behind
    by_cases comma : core.head? = some ','
    · obtain ⟨rest, rfl⟩ := List.head?_eq_some_iff.1 comma
      refine ⟨gap' ++ [','], rest, by simp, ⟨gap', all', .inr rfl⟩, fun previous => ?_⟩
      rw [← List.append_assoc]
      exact .chain (.most (all.append all') ends) (.former .literal) rfl
    · refine ⟨gap', core, rfl, all'.trails, fun previous => ?_⟩
      exact .cast
        (.chain (.most (all.append all') ends) (Ansi.prefers_absent (.comma_absent comma)) rfl)
        (List.append_nil _) rfl
  · refine ⟨[], behind, rfl, Gap.trails nofun, fun previous => ?_⟩
    rw [List.append_nil]
    exact .chain (.most all (.cons rfl behind)) (.former .literal) rfl

theorem directions_words : ∀ keyword ∈ Ansi.directions.map String.toList,
    keyword ≠ [] ∧ ∀ character ∈ keyword, isWord character = true := by
  have all : (Ansi.directions.map String.toList).all
      (fun keyword => !keyword.isEmpty && keyword.all isWord) = true := by decide
  simpa using all

/-- A word is the name of a port unless it is a direction. -/
theorem portHead_bars_word (word : ∀ character ∈ name, isWord character = true)
    (free : name ∉ Ansi.directions.map String.toList) (ends : Ends isWord rest) :
    portHead.Bars (name ++ rest) :=
  .words (Ansi.spells_oneOf Ansi.directions 0) directions_words (Ansi.needsEdge_andThen _) word ends
    free

theorem ends_word {accept : Char → Bool}
    (other : ∀ character, accept character = true → isWord character = false) (some : name ≠ [])
    (word : ∀ character ∈ name, isWord character = true) (rest : List Char) :
    Ends accept (name ++ rest) := by
  cases name with
  | nil => exact (some rfl).elim
  | cons first name =>
    refine .cons ?_ _
    by_contra accepted
    have plain := other first (by simpa using accepted)
    rw [word first List.mem_cons_self] at plain
    contradiction

/-- Neither a guard nor another head begins with the name of a port. -/
theorem portRules_bars (some : name ≠ []) (word : ∀ character ∈ name, isWord character = true)
    (free : name ∉ Ansi.directions.map String.toList) (ends : Ends isWord rest) :
    ∀ rule ∈ portRules.take 3, rule.pattern.Bars (name ++ rest) := by
  have begins : Ends isBlank (name ++ rest) :=
    ends_word (fun _ => isWord_of_isBlank) some word rest
  have unmarked : ∀ mark ∈ (name ++ rest).head?, mark ∉ marks := by
    have plain : ∀ mark ∈ marks, isWord mark = false :=
      List.forall_mem_cons.2 ⟨rfl, List.forall_mem_singleton.2 rfl⟩
    intro mark first listed
    have none : Ends (· ∈ marks) (name ++ rest) := ends_word (by simpa using plain) some word rest
    simpa [listed] using none mark first
  have solid : portHead.solid = true := by decide +kernel
  have head := portHead_bars_word word free ends
  show ∀ rule ∈ guards ++ [_], rule.pattern.Bars (name ++ rest)
  refine List.forall_mem_append.2 ⟨?_, List.forall_mem_singleton.2 ?_⟩
  · have marked : ∀ rule ∈ guards, rule.pattern.marked = true := by decide
    exact fun rule member => .of_marked (marked rule member) unmarked
  · have none : Gap [] := nofun
    rw [← List.nil_append (name ++ rest)]
    exact .blanks none begins (nullable_of_solid solid) (fun _ => begins_of_solid solid)
      (.of_first head)

namespace Scanner

variable {scanner : Scanner}

/-- A comma in a list is passed over. -/
theorem step_comma (working : scanner.failed = false)
    (inside : scanner.state = .parameters ∨ scanner.state = .modulePort)
    (split : scanner.rest = ',' :: rest) :
    ∃ lexeme, lexeme.action = none ∧
      scanner.step table = .moved lexeme (scanner.past [','] rest) := by
  have prefers : separator.Prefers none [','] rest [] :=
    .chain (Ansi.prefers_no_blank (.cons rfl rest)) .literal rfl
  have listed : (table scanner.state)[4]? = some (skip separator) := by
    rcases inside with inside | inside <;> rw [inside] <;> rfl
  have begins : ∀ rule ∈ (table scanner.state).take 4,
      rule.pattern.nullable = false ∧ rule.pattern.begins ',' = false := by
    rcases inside with inside | inside <;> rw [inside] <;> decide
  have bars := bars_of_begins begins rest
  rw [← split] at bars
  exact ⟨_, rfl, moved_of_rule 4 listed bars prefers nofun working split rfl⟩

/-- Going on behind a member of a list comes to the same as going on behind what may be left out
there. -/
theorem outlook_trails (text : String) (working : scanner.failed = false)
    (inside : scanner.state = .parameters ∨ scanner.state = .modulePort) (trails : Trails far)
    (split : scanner.rest = far ++ rest) :
    scanner.outlook ParseError.kind text = (scanner.past far rest).outlook ParseError.kind text := by
  have plain : scanner.state ≠ .blockComment := by
    intro comment
    rcases inside with inside | inside <;> cases inside.symm.trans comment
  obtain ⟨gap, all, rfl | rfl⟩ := trails
  · exact outlook_gap text working plain all split
  · rw [List.append_assoc] at split
    have working' : (scanner.past gap ([','] ++ rest)).failed = false := working
    obtain ⟨_, silent, moved⟩ := step_comma working' inside rfl
    rw [outlook_gap text working plain all split, outlook_of_silent moved silent]
    exact congrArg (outlook ParseError.kind text) (past_past scanner gap [','] rest)

/-- A name in a list of ports is a port. -/
theorem step_name (working : scanner.failed = false) (inside : scanner.state = .modulePort)
    (some : name ≠ []) (word : ∀ character ∈ name, isWord character = true)
    (free : name ∉ Ansi.directions.map String.toList) (ends : Ends isWord (tail ++ rest))
    (prefers : ∀ previous, listTail.Prefers previous tail rest [])
    (split : scanner.rest = name ++ (tail ++ rest)) :
    ∃ offset stop,
      scanner.step table = .moved
        ⟨.modulePort, .some .portName, [.some (String.ofList name)], offset, stop⟩
        (scanner.past (name ++ tail) rest) := by
  have begins : Ends isBlank (name ++ (tail ++ rest)) :=
    ends_word (fun _ => isWord_of_isBlank) some word _
  have takes : portName.Prefers none (name ++ tail) rest [(0, String.ofList name)] :=
    .chain (Ansi.prefers_no_blank begins) (.chain (.capture (.run some word ends)) (prefers _) rfl)
      (List.append_assoc _ _ _).symm
  have bars : ∀ rule ∈ (table scanner.state).take 3, rule.pattern.Bars scanner.rest := by
    rw [inside, split]
    exact portRules_bars some word free ends
  have listed : (table scanner.state)[3]? = .some ⟨portName, .some .portName, none⟩ := by
    rw [inside]
    rfl
  have moved := moved_of_rule 3 listed bars takes (by simp [some]) working
    (split.trans (List.append_assoc _ _ _).symm) rfl
  rw [inside] at moved
  exact ⟨_, _, moved⟩

/-- What comes of going on in front of a name. -/
theorem outlook_name (text : String) (working : scanner.failed = false)
    (inside : scanner.state = .modulePort) (some : name ≠ [])
    (word : ∀ character ∈ name, isWord character = true)
    (free : name ∉ Ansi.directions.map String.toList) (trails : Trails tail)
    (ends : Ends isWord (tail ++ rest)) (split : scanner.rest = name ++ (tail ++ rest))
    (assembly : Assembly) :
    scanner.outlook ParseError.kind text assembly =
      (scanner.past (name ++ tail) rest).outlook ParseError.kind text
        (assembly.addWaiting (String.ofList name)) := by
  obtain ⟨more, behind, rfl, trails', prefers⟩ := exists_listTail trails rest
  rw [← List.append_assoc tail] at ends split
  obtain ⟨offset, stop, moved⟩ := step_name working inside some word free ends prefers split
  have token :
    Lexeme.token? ⟨.modulePort, .some .portName, [.some (String.ofList name)], offset, stop⟩ =
      .some ⟨.portName, [.some (String.ofList name)], offset, stop⟩ := rfl
  have working' : (scanner.past (name ++ tail) (more ++ behind)).failed = false := working
  have onward := outlook_trails text working' (.inr inside) trails' rfl
  rw [past_past, List.append_assoc] at onward
  rw [outlook_of_token moved token, onward]
  rfl

end Scanner

end VerilogInterface
