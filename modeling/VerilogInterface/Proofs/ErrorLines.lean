import VerilogInterface.Proofs.CatchAlls
import VerilogInterface.Proofs.Comments
import VerilogInterface.Proofs.Finishing

/-! The lines of errors. An error points at the beginning of the match that is refused, or at the
character that no rule takes. That is what is wrong itself, except that further heads of a port list
are matched with the blanks in front of them: such a head is reported where these blanks begin. -/

namespace VerilogInterface

open Text Verilog

def FoundBehind (text : String) (state : State) (front : List Char) (token : Token) : Prop :=
  ∃ scanner lexeme after, (Scanner.start text).Reaches table scanner ∧ scanner.state = state ∧
    text.toList = front ++ scanner.rest ∧ scanner.step table = .moved lexeme after ∧
    lexeme.token? = some token

def FirstRefused (text : String) (token : Token) (error : ParseError) : Prop :=
  ∃ before after, tokens text = before ++ token :: after ∧ Unrefused text before ∧
    Refused text before token error

/-- The line of the error is that of what is wrong, or of the blanks in front of it. -/
inductive Points (text : String) : ParseError → Prop where
  | surplusExit {state : State} {token : Token} {front rest : List Char}
      (found : FoundBehind text state front token)
      (refused : FirstRefused text token (.unmatchedEndif (1 + front.count '\n')))
      (stands : text.toList = front ++ ("`endif".toList ++ rest)) :
      Points text (.unmatchedEndif (1 + front.count '\n'))
  | openGuard {state : State} {token : Token} {guard : String} {front rest : List Char}
      (found : FoundBehind text state front token)
      (refused : FirstRefused text token (.unterminatedGuard guard (1 + front.count '\n')))
      (stands : text.toList = front ++ ("endmodule".toList ++ rest)) :
      Points text (.unterminatedGuard guard (1 + front.count '\n'))
  | openGuardAtEnd {guard : String} (scanned : ending text = .complete)
      (inner : Innermost (tokens text) guard) :
      Points text (.unterminatedGuard guard (1 + text.toList.count '\n'))
  /-- Only behind another head can there be blanks between the match and its direction. -/
  | unreadableHead {state : State} {token : Token} {direction : Direction} {head : String}
      {front gap rest : List Char} (found : FoundBehind text state front token)
      (refused : FirstRefused text token
        (.unknownPortFormat direction.keyword head (1 + front.count '\n')))
      (outward : direction ≠ .into)
      (stands : text.toList = front ++ (gap ++ (direction.keyword.toList ++ rest)))
      (blank : Gap gap) (opens : state = .module ∧ gap = [] ∨ state = .modulePort) :
      Points text (.unknownPortFormat direction.keyword head (1 + front.count '\n'))
  | lexical {scanner : Scanner} {character : Char} {front rest : List Char}
      (reached : (Scanner.start text).Reaches table scanner)
      (remains : scanner.rest = character :: rest)
      (stands : text.toList = front ++ character :: rest)
      (unmatched : ∀ rule ∈ table scanner.state, ∀ found,
        rule.pattern.match? (character :: rest) = some found → found.taken = 0)
      (visible : isBlank character = false) :
      Points text (.lexical scanner.state (byteCount front) (1 + front.count '\n'))

variable {text : String} {state : State} {rule : Rule} {token : Token} {before after : List Token}
  {taken rest : List Char} {writes : Pattern.Writes}

/-- A token is a match of a rule of its state, which begins at its offset. -/
theorem exists_match (split : tokens text = before ++ token :: after) :
    ∃ state front rule taken rest writes, FoundBehind text state front token ∧
      rule ∈ table state ∧ rule.action = some token.action ∧
      text.toList = front ++ (taken ++ rest) ∧
      lineAt text token.offset = 1 + front.count '\n' ∧
      rule.pattern.Takes none taken rest writes ∧
      token.groups = writes.apply (List.replicate rule.pattern.captureCount none) := by
  obtain ⟨scanner, lexeme, next, reached, moved, meant, _⟩ := Scanner.exists_of_tokens split
  obtain ⟨front, whole, place⟩ := reached.stands
  obtain ⟨rule, taken, writes, moves⟩ := Scanner.exists_movesBy moved
  have found : FoundBehind text scanner.state front token :=
    ⟨scanner, _, next, reached, rfl, whole, moved, meant⟩
  obtain ⟨action, means, rfl⟩ := Option.map_eq_some_iff.1 meant
  refine ⟨_, front, rule, taken, _, writes, found, moves.listed, moves.action.trans means,
    moves.source ▸ whole, ?_, moves.takes, moves.groups⟩
  show lineAt text lexeme.offset = 1 + front.count '\n'
  rw [moves.offset, ← lineAt_byteCount whole, ← place]

theorem pattern_of_guardExit (listed : rule ∈ table state) (acts : rule.action = some .guardExit) :
    rule.pattern = guardExit := by
  have same : rulesFor .guardExit = List.replicate 4 ⟨guardExit, some .guardExit, none⟩ := rfl
  rw [eq_of_rulesFor same listed acts]

theorem pattern_of_portStart (listed : rule ∈ table state) (acts : rule.action = some .portStart) :
    state = .module ∧ rule.pattern = portHead ∨
      state = .modulePort ∧
        rule.pattern = .sequence [blanks, portHead, blanks, .optional (symbol ',')] := by
  have all : ∀ rule ∈ table state, rule.action = some .portStart →
      state = .module ∧ rule.pattern = portHead ∨
        state = .modulePort ∧
          rule.pattern = .sequence [blanks, portHead, blanks, .optional (symbol ',')] := by
    cases state <;>
      simp [table, rootRules, moduleRules, parameterRules, portRules, commentRules, guards,
        openComment, skip]
  exact all rule listed acts

theorem takes_word {word : List Char} {behind : Pattern}
    (takes : (Pattern.andThen (.literal word) behind).Takes none taken rest writes) :
    ∃ more, taken = word ++ more := by
  obtain ⟨_, more, _, _, rfl, _, spelled, _⟩ := takes.of_andThen
  exact ⟨more, by rw [spelled.of_literal]⟩

theorem Refused.points {error : ParseError} (split : tokens text = before ++ token :: after)
    (unrefused : Unrefused text before) (refused : Refused text before token error) :
    Points text error := by
  obtain ⟨state, front, rule, taken, rest, writes, found, listed, acts, stands, line, takes,
    groups⟩ := exists_match split
  have first : FirstRefused text token error := ⟨before, after, split, unrefused, refused⟩
  cases refused with
  | surplusExit exit surplus =>
    rw [exit] at acts
    rw [pattern_of_guardExit listed acts] at takes
    obtain ⟨more, rfl⟩ := takes_word takes
    rw [line] at first ⊢
    exact .surplusExit found first (by rw [stands, List.append_assoc])
  | openGuard stop inner =>
    rw [stop] at acts
    rw [pattern_of_moduleEnd listed acts] at takes
    obtain ⟨more, rfl⟩ := takes_word takes
    rw [line] at first ⊢
    exact .openGuard found first (by rw [stands, List.append_assoc])
  | unreadableHead head unreadable =>
    rw [head] at acts
    rcases pattern_of_portStart listed acts with ⟨inside, pattern⟩ | ⟨inside, pattern⟩
    · rw [pattern] at takes groups
      obtain ⟨direction, _, more, outward, rfl, rfl⟩ := portHead_takes takes
      have named : token.group 0 = direction.keyword := by
        rw [Token.group, Token.group?, groups]
        rfl
      rw [line, named] at first ⊢
      have stands :
          text.toList = front ++ ([] ++ (direction.keyword.toList ++ (more ++ rest))) := by
        rw [stands, List.append_assoc, List.nil_append]
      exact .unreadableHead found first outward stands (List.forall_mem_nil _) (.inl ⟨inside, rfl⟩)
    · rw [pattern] at takes groups
      obtain ⟨gap, _, _, _, rfl, rfl, spaces, behind⟩ := takes.of_andThen
      obtain ⟨_, separator, _, _, rfl, rfl, opens, others⟩ := behind.of_andThen
      obtain ⟨direction, _, more, outward, rfl, rfl⟩ := portHead_takes opens
      have named : token.group 0 = direction.keyword := by
        rw [Token.group, Token.group?, groups, spaces.writes_eq_nil rfl, others.writes_eq_nil rfl]
        rfl
      have blank : Gap gap := by
        cases spaces with
        | most accepted => exact accepted
      have stands : text.toList =
          front ++ (gap ++ (direction.keyword.toList ++ (more ++ (separator ++ rest)))) := by
        simpa only [List.append_assoc] using stands
      rw [line, named] at first ⊢
      exact .unreadableHead found first outward stands blank (.inr inside)

/-- In a list some rule takes blanks. -/
theorem skip_blanks {state : State} (strict : state.strict = true) :
    skip (.run isBlank) ∈ table state := by
  rcases State.eq_of_strict strict with rfl | rfl
  · exact List.mem_of_getLast? rfl
  · exact List.mem_of_getLast? rfl

theorem match?_blanks {character : Char} {rest : List Char} (blank : isBlank character = true) :
    ∃ found, (Pattern.run isBlank).match? (character :: rest) = some found ∧ 0 < found.taken := by
  obtain ⟨gap, core, split, all, ends⟩ := Text.exists_gap (character :: rest)
  have nonempty : gap ≠ [] := by
    rintro rfl
    rw [List.nil_append] at split
    have visible := ends character (split ▸ rfl)
    rw [blank] at visible
    contradiction
  rw [split]
  exact ⟨_, (Pattern.Prefers.run nonempty all ends).match?_eq, byteCount_pos nonempty⟩

theorem points_of_stopped {scanner after : Scanner} {error : ScanError}
    (reached : (Scanner.start text).Reaches table scanner)
    (stopped : scanner.step table = .stopped error after) : Points text (error.within text) := by
  obtain ⟨rfl, strict⟩ := Scanner.strict_of_stopped (reached.nested .outside) stopped
  obtain ⟨_, remains, ⟨none, _⟩ | ⟨_, _, _, _, other, _⟩⟩ := Scanner.first_of_stopped stopped
  case inr => cases other
  obtain ⟨front, whole, place⟩ := reached.stands
  obtain ⟨character, rest, source⟩ := List.exists_cons_of_ne_nil remains
  rw [source] at whole none
  have unmatched : ∀ rule ∈ table scanner.state, ∀ found,
      rule.pattern.match? (character :: rest) = some found → found.taken = 0 := by
    intro rule listed found matched
    by_contra taken
    exact firstMatch_ne_none listed matched (Nat.pos_of_ne_zero taken) none
  rw [ScanError.within, place, lineAt_byteCount whole]
  refine .lexical reached source whole unmatched (Bool.eq_false_iff.2 fun blank => ?_)
  obtain ⟨found, matched, nonempty⟩ := match?_blanks blank
  exact Nat.ne_of_gt nonempty (unmatched _ (skip_blanks strict) found matched)

/-- Every error points at the line of what is wrong: the directive that closes no guard, the end of
a module or text with a guard left open, a character other than a blank that no rule takes, or the
head that cannot be read. Such a head counts from where the blanks in front of it begin unless it
opens its list. -/
theorem points_of_parse {error : ParseError} (failed : parse text = .error error) :
    Points text error := by
  cases fails_of_parse failed with
  | token split first refused => exact refused.points split first
  | scan unrefused ends =>
    obtain ⟨scanner, after, reached, stopped⟩ := Scanner.exists_stopped ends
    exact points_of_stopped reached stopped
  | openGuard unrefused scanned inner =>
    have atEnd : lineAt text text.utf8ByteSize = 1 + text.toList.count '\n' := by
      rw [← byteCount_toList]
      exact lineAt_byteCount (List.append_nil _).symm
    rw [atEnd]
    exact .openGuardAtEnd scanned inner

/-- A further head, with a line break and blanks in front of it. -/
private theorem parse_further :
    parse "module m(input a,\n  output [1:0][2:0][3:0] b\n);\nendmodule\n" =
      .error (.unknownPortFormat "output" "[1:0][2:0][3:0] b" 1) := by
  decide +kernel

theorem points_of_parse_further :
    parse "module m(input a,\n  output [1:0][2:0][3:0] b\n);\nendmodule\n" =
        .error (.unknownPortFormat "output" "[1:0][2:0][3:0] b" 1) ∧
      Points "module m(input a,\n  output [1:0][2:0][3:0] b\n);\nendmodule\n"
        (.unknownPortFormat "output" "[1:0][2:0][3:0] b" 1) :=
  ⟨parse_further, points_of_parse parse_further⟩

/-- The line of a further head is not always that of its direction. -/
theorem not_points_at_direction :
    parse ("module m(input a,\n  " ++ ("output" ++ " [1:0][2:0][3:0] b\n);\nendmodule\n")) =
        .error (.unknownPortFormat "output" "[1:0][2:0][3:0] b" 1) ∧
      1 ≠ 1 + "module m(input a,\n  ".toList.count '\n' := by
  have joined : "module m(input a,\n  " ++ ("output" ++ " [1:0][2:0][3:0] b\n);\nendmodule\n") =
      "module m(input a,\n  output [1:0][2:0][3:0] b\n);\nendmodule\n" := by
    decide +kernel
  exact ⟨joined ▸ parse_further, by decide⟩

end VerilogInterface
