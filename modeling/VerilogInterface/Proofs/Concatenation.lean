import VerilogInterface.Proofs.Finishing
import VerilogInterface.Proofs.Gaps
import VerilogInterface.Proofs.Independence

/-! Texts one after the other. If the former ends with the end of a module, the scan of both finds the
tokens of the former and then those of the latter, and nothing that the former leaves has any effect
on the modules of the latter. -/

namespace VerilogInterface

open Text Verilog

namespace Scanner

def shifted (bytes : Nat) (scanner : Scanner) : Scanner :=
  { scanner with position := scanner.position + bytes }

def Ending.moved (bytes : Nat) : Ending → Ending
  | complete => complete
  | failure error => failure (error.moved bytes)

end Scanner

def Lexeme.moved (bytes : Nat) (lexeme : Lexeme) : Lexeme :=
  { lexeme with offset := lexeme.offset + bytes, stop := lexeme.stop + bytes }

namespace Scanner

variable {scanner after : Scanner} {lexeme : Lexeme} {gap rest characters : List Char}

theorem step_shifted (scanner : Scanner) (bytes : Nat) :
    (scanner.shifted bytes).step table =
      match scanner.step table with
      | .ended => .ended
      | .moved lexeme after => .moved (lexeme.moved bytes) (after.shifted bytes)
      | .stopped error after => .stopped (error.moved bytes) (after.shifted bytes) := by
  rw [step, step]
  have same : (scanner.shifted bytes).failed = scanner.failed ∧
      (scanner.shifted bytes).rest = scanner.rest ∧
      (scanner.shifted bytes).state = scanner.state := ⟨rfl, rfl, rfl⟩
  rw [same.1, same.2.1, same.2.2]
  by_cases stops : (scanner.failed || scanner.rest.isEmpty) = true
  · rw [if_pos stops, if_pos stops]
  · rw [if_neg stops, if_neg stops]
    cases firstMatch scanner.rest (table scanner.state) with
    | none => rfl
    | some first =>
      obtain ⟨rule, found⟩ := first
      have place : (scanner.shifted bytes).position + found.taken =
          scanner.position + found.taken + bytes := Nat.add_right_comm _ _ _
      simp only [follow_eq, place]
      cases entered : rule.enters scanner.entered with
      | none =>
        have entered' : rule.enters (scanner.shifted bytes).entered = none := entered
        rw [entered']
        rfl
      | some stack =>
        have entered' : rule.enters (scanner.shifted bytes).entered = some stack := entered
        rw [entered']
        rfl

theorem tokens_shifted (scanner : Scanner) (bytes : Nat) :
    (scanner.shifted bytes).tokens = scanner.tokens.map (·.moved bytes) ∧
      (scanner.shifted bytes).ending = scanner.ending.moved bytes := by
  induction scanner using scan_induction with
  | ended scanner found =>
    have found' := scanner.step_shifted bytes
    rw [found] at found'
    rw [(tokens_of_ended found).1, (tokens_of_ended found').1, (tokens_of_ended found).2,
      (tokens_of_ended found').2]
    exact ⟨rfl, rfl⟩
  | stopped scanner error after found =>
    have found' := scanner.step_shifted bytes
    rw [found] at found'
    rw [(tokens_of_stopped found).1, (tokens_of_stopped found').1, (tokens_of_stopped found).2,
      (tokens_of_stopped found').2]
    exact ⟨rfl, rfl⟩
  | moved scanner lexeme after found ih =>
    have found' := scanner.step_shifted bytes
    rw [found] at found'
    have token : (lexeme.moved bytes).token? = lexeme.token?.map (·.moved bytes) := by
      unfold Lexeme.token? Lexeme.moved
      cases lexeme.action <;> rfl
    rw [(tokens_of_moved found).1, (tokens_of_moved found').1, (tokens_of_moved found).2,
      (tokens_of_moved found').2, token, ih.1, ih.2, List.map_append]
    refine ⟨congrArg (· ++ _) ?_, rfl⟩
    cases lexeme.token? <;> rfl

/-- Outside of modules blanks leave no token. -/
theorem tokens_skip {blank : List Char} (working : scanner.failed = false)
    (outside : scanner.entered = []) (split : scanner.rest = blank ++ rest)
    (all : ∀ character ∈ blank, isBlank character = true) (ends : Pattern.Ends isBlank rest) :
    scanner.tokens = (scanner.past blank rest).tokens ∧
      scanner.ending = (scanner.past blank rest).ending := by
  cases blank with
  | nil =>
    rw [List.nil_append] at split
    subst split
    exact ⟨rfl, rfl⟩
  | cons first blank =>
    have root : scanner.state = .root := by
      rw [Scanner.state, outside]
      rfl
    obtain ⟨lexeme, silent, moved⟩ :=
      step_gap_outside working (.inl root) all (List.cons_ne_nil _ _) ends split
    obtain ⟨tokens, ending⟩ := tokens_of_moved moved
    rw [Lexeme.token?, silent] at tokens
    exact ⟨tokens, ending⟩

/-- Blanks in front of a text outside of modules may be left out. -/
theorem tokens_behind (working : scanner.failed = false) (outside : scanner.entered = [])
    (split : scanner.rest = gap ++ characters)
    (all : ∀ character ∈ gap, isBlank character = true) :
    scanner.tokens = (scanner.past gap characters).tokens ∧
      scanner.ending = (scanner.past gap characters).ending := by
  obtain ⟨more, core, rfl, all', ends⟩ := exists_gap characters
  have long : scanner.rest = gap ++ more ++ core := by rw [List.append_assoc, split]
  have working' : (scanner.past gap (more ++ core)).failed = false := working
  obtain ⟨tokens, ending⟩ := tokens_skip working outside long (Gap.append all all') ends
  obtain ⟨tokens', ending'⟩ := tokens_skip working' outside rfl all' ends
  rw [tokens, ending, tokens', ending', past_past]
  exact ⟨rfl, rfl⟩

theorem position_le_of_token (scanner : Scanner) :
    ∀ token ∈ scanner.tokens, scanner.position ≤ token.stop := by
  induction scanner using scan_induction with
  | ended scanner found => simp [(tokens_of_ended found).1]
  | stopped scanner error after found => simp [(tokens_of_stopped found).1]
  | moved scanner lexeme after found ih =>
    obtain ⟨_, taken, _, moves⟩ := exists_movesBy found
    have place := moves.position
    have stops := moves.stop
    intro token member
    rw [(tokens_of_moved found).1, List.mem_append, Option.mem_toList] at member
    rcases member with here | later
    · obtain ⟨_, _, rfl⟩ := Option.map_eq_some_iff.1 here
      show scanner.position ≤ lexeme.stop
      omega
    · have further := ih token later
      omega

/-- A scan whose last token ends a module and leaves only the gap finishes it. -/
theorem finishes_of_tokens {scanner : Scanner} {passed : List Token} {stop : Token}
    {body : List Char} (tokens : scanner.tokens = passed ++ [stop])
    (closes : stop.action = .moduleEnd) (split : scanner.rest = body ++ gap)
    (count : scanner.position + byteCount body = stop.stop) : scanner.Finishes gap := by
  induction scanner using scan_induction generalizing passed body with
  | ended scanner found =>
    rw [(tokens_of_ended found).1] at tokens
    simp at tokens
  | stopped scanner error after found =>
    rw [(tokens_of_stopped found).1] at tokens
    simp at tokens
  | moved scanner lexeme after found ih =>
    obtain ⟨_, taken, _, moves⟩ := exists_movesBy found
    have place := moves.position
    have stops := moves.stop
    rw [(tokens_of_moved found).1] at tokens
    have same : taken ++ after.rest = body ++ gap := moves.source.symm.trans split
    rcases List.eq_nil_or_concat after.tokens with none | ⟨init, last, later⟩
    · rw [none, List.append_nil] at tokens
      have here : lexeme.token? = some stop := by
        have member : stop ∈ lexeme.token?.toList := by
          rw [tokens]
          exact List.mem_append_right _ (List.mem_singleton_self _)
        exact Option.mem_toList.1 member
      obtain ⟨action, meaning, rfl⟩ := Option.map_eq_some_iff.1 here
      have bytes : byteCount taken = byteCount body := by
        have count : scanner.position + byteCount body = lexeme.stop := count
        omega
      exact .last found (meaning.trans (congrArg some closes)) (append_inj_of_byteCount same bytes).2
    · rw [later, List.concat_eq_append, ← List.append_assoc] at tokens
      obtain ⟨_, final⟩ := List.append_inj' tokens rfl
      cases final
      have inside : stop ∈ after.tokens := by
        rw [later]
        simp
      have further := after.position_le_of_token stop inside
      obtain ⟨rest, rfl, behind⟩ := append_split_of_byteCount same (by omega)
      rw [byteCount_append] at count
      rw [List.concat_eq_append] at later
      exact .step found (ih later behind (by omega))

end Scanner

/-- A text that ends with the end of a module, blanks and a line break, and in which no function and
no task is spelled. -/
structure EndsModule (text : String) : Prop where
  closed : ∃ stop body gap, (tokens text).getLast? = some stop ∧ stop.action = .moduleEnd ∧
    text.toList = body ++ gap ∧ byteCount body = stop.stop ∧
      ∀ character ∈ gap, isBlank character = true
  newline : text.toList.getLast? = some '\n'
  noFunction : ¬ "function".toList <:+: text.toList
  noTask : ¬ "task".toList <:+: text.toList

variable {first : String}

theorem Scanner.Finishes.finished {gap : List Char}
    (finishes : (Scanner.start first).Finishes gap)
    (blank : ∀ character ∈ gap, isBlank character = true) (ends : EndsModule first) :
    Finished gap first.toList := by
  refine ⟨blank, ?_, ends.noFunction, ends.noTask⟩
  obtain ⟨before, split⟩ := finishes.exists_split
  have split : first.toList = before ++ "endmodule".toList ++ gap := split
  have newline := ends.newline
  by_cases none : gap = []
  · have letters : "endmodule".toList = "endmodul".toList ++ ['e'] := rfl
    rw [split, none, letters, List.append_nil, ← List.append_assoc, List.getLast?_concat] at newline
    contradiction
  · rwa [split, List.getLast?_append_of_ne_nil _ none] at newline

/-- Behind the end of a module a scan finds what it finds in the latter text alone, only further
down. -/
theorem tokens_append (ends : EndsModule first) (second : String) :
    tokens (first ++ second) =
        tokens first ++ (tokens second).map (·.moved first.utf8ByteSize) ∧
      ending (first ++ second) = (ending second).moved first.utf8ByteSize := by
  obtain ⟨stop, body, gap, last, closes, split, count, blank⟩ := ends.closed
  obtain ⟨passed, tokens_⟩ := List.getLast?_eq_some_iff.1 last
  have finishes : (Scanner.start first).Finishes gap :=
    Scanner.finishes_of_tokens tokens_ closes split ((Nat.zero_add _).trans count)
  have finished := finishes.finished blank ends
  obtain ⟨after, found, working, outside, left, place, former, both, ended⟩ :=
    finishes.tokens_prolonged .outside finished second.toList
  have whole : (Scanner.start first).prolonged second.toList = .start (first ++ second) := by
    rw [Scanner.start, Scanner.start, Scanner.prolonged, String.toList_append]
  have further : (after.prolonged second.toList).past gap second.toList =
      (Scanner.start second).shifted first.utf8ByteSize := by
    have bytes : after.position + byteCount gap = 0 + first.utf8ByteSize := by
      rw [← byteCount_toList]
      exact place
    simp only [Scanner.past, Scanner.shifted, Scanner.start, Scanner.prolonged, working, outside,
      bytes]
  have working' : (after.prolonged second.toList).failed = false := working
  have ahead : (after.prolonged second.toList).rest = gap ++ second.toList :=
    congrArg (· ++ second.toList) left
  obtain ⟨later, ending'⟩ := Scanner.tokens_behind working' outside ahead blank
  have nothing : after.tokens = [] := by
    have left' : after.rest = gap ++ [] := left.trans (List.append_nil gap).symm
    rw [(Scanner.tokens_behind working outside left' blank).1]
    refine (Scanner.tokens_of_ended ?_).1
    rw [Scanner.step, Scanner.past, List.isEmpty_nil, Bool.or_true, if_pos rfl]
  rw [further, (Scanner.tokens_shifted _ _).1] at later
  rw [further, (Scanner.tokens_shifted _ _).2] at ending'
  rw [nothing, List.append_nil] at former
  rw [whole, later, ← former] at both
  rw [whole, ending'] at ended
  exact ⟨both, ended⟩

/-- What is read of a text does not depend on the text that stands around it. -/
theorem Assembly.run_text {text : String} {assembly last : Assembly} {list : List Token}
    (ran : assembly.run text list = .ok last) (other : String) :
    assembly.run other list = .ok last := by
  induction list generalizing assembly with
  | nil => exact ran
  | cons token rest ih =>
    rw [← List.singleton_append] at ran
    obtain ⟨next, taken, onward⟩ := run_append_eq_ok ran
    have takes := takes_of_apply (run_singleton_eq_ok.1 taken)
    rw [run_cons_of_ok rest (apply_of_takes other takes)]
    exact ih onward

theorem Echoes.conclude {prior : List Module} {current : Option (Token × List Token)}
    {fresh assembly : Assembly} (echoes : Echoes prior current fresh assembly)
    (first second : String) (ending : Scanner.Ending) :
    assembly.conclude (first ++ second) (ending.moved first.utf8ByteSize) =
      match fresh.conclude second ending with
      | .ok modules => .ok (prior ++ modules)
      | .error error => .error (error.behind first) := by
  cases ending with
  | complete =>
    rw [Scanner.Ending.moved, Assembly.conclude, Assembly.conclude, Assembly.finish,
      Assembly.finish, echoes.guards, echoes.modules]
    cases fresh.guards with
    | nil => rfl
    | cons guard _ =>
      simp only [ParseError.behind, ParseError.moved, String.utf8ByteSize_append, ← lineAt_append,
        Nat.add_comm]
  | failure error =>
    rw [Scanner.Ending.moved, Assembly.conclude, Assembly.conclude, ScanError.within_append]

/-- Behind a text that ends with the end of a module, another text gives its own modules or its own
error, with offsets and lines counted on. -/
theorem parse_append {modules : List Module} (parsed : parse first = .ok modules)
    (ends : EndsModule first) (second : String) :
    parse (first ++ second) =
      match parse second with
      | .ok others => .ok (modules ++ others)
      | .error error => .error (error.behind first) := by
  obtain ⟨whole, ended⟩ := tokens_append ends second
  obtain ⟨last, ran, _, _, rfl⟩ := run_of_parse parsed
  obtain ⟨stop, _, _, final, closes, _⟩ := ends.closed
  obtain ⟨passed, split⟩ := List.getLast?_eq_some_iff.1 final
  have restarts : Echoes last.modules none {} last := by
    have ran := ran
    rw [split] at ran
    obtain ⟨middle, _, taken⟩ := Assembly.run_concat_eq_ok ran
    exact ((Assembly.takes_of_apply taken).restarts closes).1
  rw [parse_eq_run, parse_eq_run second, whole, ended,
    Assembly.run_append_of_ok _ (Assembly.run_text ran (first ++ second))]
  rcases Echoes.run first second restarts (atHome_tokens second) with
    ⟨fresh, after, ran, ran', echoes⟩ | ⟨error, ran, ran'⟩
  · rw [ran, ran']
    exact echoes.conclude first second (ending second)
  · rw [ran, ran']

/-- Behind one module, another one is read and a stray directive is found on the fourth line. -/
theorem parse_append_endif :
    parse "module a (input x);\nendmodule\n\n" =
        .ok [{ name := "a", ports := [{ name := "x", direction := some .input, dataType := "" }] }] ∧
      EndsModule "module a (input x);\nendmodule\n\n" ∧
      parse ("module a (input x);\nendmodule\n\n" ++ "module b;\nendmodule") =
        .ok [
          { name := "a", ports := [{ name := "x", direction := some .input, dataType := "" }] },
          { name := "b" }] ∧
      parse ("module a (input x);\nendmodule\n\n" ++ "`endif\n") = .error (.unmatchedEndif 4) := by
  have parsed : parse "module a (input x);\nendmodule\n\n" =
      .ok [{ name := "a", ports := [{ name := "x", direction := some .input, dataType := "" }] }] := by
    decide +kernel
  have ends : EndsModule "module a (input x);\nendmodule\n\n" := by
    have last : (tokens "module a (input x);\nendmodule\n\n").getLast? =
        some { action := .moduleEnd, offset := 20, stop := 29 } := by decide +kernel
    refine ⟨⟨_, "module a (input x);\nendmodule".toList, ['\n', '\n'], last, rfl, rfl, rfl, ?_⟩,
      rfl, ?_, ?_⟩
    · exact List.all_eq_true.1 rfl
    · intro inside
      have letter : 'f' ∈ "function".toList := by decide
      have absent : 'f' ∉ "module a (input x);\nendmodule\n\n".toList := by decide
      exact absent (inside.subset letter)
    · intro inside
      have letter : 'k' ∈ "task".toList := by decide
      have absent : 'k' ∉ "module a (input x);\nendmodule\n\n".toList := by decide
      exact absent (inside.subset letter)
  have other : parse "module b;\nendmodule" = .ok [{ name := "b" }] := by decide +kernel
  have stray : parse "`endif\n" = .error (.unmatchedEndif 1) := by decide +kernel
  refine ⟨parsed, ends, ?_, ?_⟩
  · rw [parse_append parsed ends, other]
    rfl
  · rw [parse_append parsed ends, stray]
    rfl

end VerilogInterface
