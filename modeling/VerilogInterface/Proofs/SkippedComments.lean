import VerilogInterface.Proofs.Calls
import VerilogInterface.Proofs.Comments
import VerilogInterface.Proofs.WordRuns

/-! Comments are skipped exactly. A comment over lines ends at the first end mark behind its
opening, whatever its body holds, and a comment on a line ends with the line; behind either the scan
is in the states that it was in before. -/

namespace VerilogInterface

open Text Verilog Pattern

/-- The next end mark is the one behind the body. -/
def ClosesFirst (body behind : List Char) : Prop :=
  ∀ front later, body ++ '*' :: '/' :: behind = front ++ '*' :: '/' :: later →
    body.length ≤ front.length

def commentBlock (body : List Char) : List Char := '/' :: '*' :: body ++ ['*', '/']

def commentLine (body : List Char) : List Char := '/' :: '/' :: body ++ ['\n']

/-- A body without an end mark, also none made of its last character and the star behind it, is
closed by the mark behind it. -/
theorem closesFirst_of_not_infix {body : List Char} (none : ¬ ['*', '/'] <:+: body ++ ['*'])
    (behind : List Char) : ClosesFirst body behind := by
  intro front later same
  by_contra early
  have one : front ++ ['*', '/'] <+: body ++ '*' :: '/' :: behind := ⟨later, by simp [same]⟩
  have two : body ++ ['*'] <+: body ++ '*' :: '/' :: behind := ⟨'/' :: behind, by simp⟩
  have inside : front ++ ['*', '/'] <+: body ++ ['*'] := by
    refine List.prefix_of_prefix_length_le one two ?_
    simp only [List.length_append, List.length_cons, List.length_nil]
    omega
  exact none ((List.suffix_append front _).isInfix.trans inside.isInfix)

theorem ClosesFirst.behind {taken body behind : List Char}
    (first : ClosesFirst (taken ++ body) behind) : ClosesFirst body behind := by
  intro front later same
  have early := first (taken ++ front) later (by simp [same])
  simp only [List.length_append] at early
  omega

/-- What cannot go on behind a text cannot begin with it. -/
theorem Pattern.Bars.behind_literal {second : Pattern} {expected rest : List Char}
    (none : second.Bars rest) :
    (Pattern.andThen (.literal expected) second).Bars (expected ++ rest) := by
  intro previous taken behind writes split takes
  obtain ⟨some, more, written, others, rfl, rfl, one, two⟩ := takes.of_andThen
  rw [one.of_literal, List.append_assoc] at split
  exact none _ more behind others (List.append_cancel_left split) two

namespace Scanner

structure Skips (scanner : Scanner) : Prop where
  closed : ∀ body behind, scanner.rest = commentBlock body ++ behind → ClosesFirst body behind →
    ∃ inside,
      scanner.next table =
        (some (.ok ⟨.commentStart, [], scanner.position, scanner.position + 2⟩), inside) ∧
      inside.next table =
        (some (.ok ⟨.commentEnd, [], scanner.position + 2 + byteCount body,
            scanner.position + byteCount (commentBlock body)⟩),
          scanner.past (commentBlock body) behind)
  /-- A comment that is not closed runs to the end of the text. -/
  unclosed : ∀ body, scanner.rest = '/' :: '*' :: body → ¬ ['*', '/'] <:+: body →
    ∃ inside last,
      scanner.next table =
        (some (.ok ⟨.commentStart, [], scanner.position, scanner.position + 2⟩), inside) ∧
      inside.next table = (none, last) ∧
      last.failed = false ∧ last.rest = [] ∧
      last.position = scanner.position + byteCount scanner.rest
  line : ∀ body behind, scanner.rest = commentLine body ++ behind → '\n' ∉ body →
    body.head? ≠ some '#' →
    ∃ lexeme, scanner.step table = .moved lexeme (scanner.past (commentLine body) behind) ∧
      lexeme.token? = none

variable {scanner after : Scanner} {lexeme : Lexeme} {token : Token} {body behind rest : List Char}
  {outer : List State}

theorem next_of_silent (moved : scanner.step table = .moved lexeme after)
    (silent : lexeme.token? = none) : scanner.next table = after.next table := by
  rw [next_of_moved moved, silent]

theorem next_of_token (moved : scanner.step table = .moved lexeme after)
    (meant : lexeme.token? = some token) : scanner.next table = (some (.ok token), after) := by
  rw [next_of_moved moved, meant]

section
variable (inside : scanner.entered = .blockComment :: outer) (working : scanner.failed = false)
include inside working

theorem step_commentEnd (split : scanner.rest = '*' :: '/' :: rest) :
    scanner.step table = .moved
      ⟨.blockComment, some .commentEnd, [], scanner.position, scanner.position + 2⟩
      { scanner with rest, position := scanner.position + 2, entered := outer } := by
  have state : scanner.state = .blockComment := by rw [Scanner.state, inside]; rfl
  have listed : (table scanner.state)[0]? = some ⟨commentEnd, some .commentEnd, some .pop⟩ := by
    rw [state]
    rfl
  have first : ∀ rule ∈ (table scanner.state).take 0, rule.pattern.Bars scanner.rest :=
    fun _ member => absurd member List.not_mem_nil
  have moved := moved_of_rule 0 listed first .literal (by decide) working split
    (by rw [inside]; rfl)
  rw [state] at moved
  exact moved

/-- Inside a comment a star that ends nothing is passed over by itself, anything else up to the
next star. -/
theorem exists_step_inside (some : scanner.rest ≠ []) (goes : ¬ ['*', '/'] <+: scanner.rest) :
    ∃ lexeme taken rest, scanner.rest = taken ++ rest ∧ taken ≠ [] ∧
      (taken = ['*'] ∨ '*' ∉ taken) ∧ lexeme.token? = none ∧
      scanner.step table = .moved lexeme (scanner.past taken rest) := by
  have state : scanner.state = .blockComment := by rw [Scanner.state, inside]; rfl
  have listed : (table scanner.state)[1]? =
      .some (skip (.orElse (run (allBut '*')) (.one fun _ => true))) := by
    rw [state]
    rfl
  have bars : ∀ rule ∈ (table scanner.state).take 1, rule.pattern.Bars scanner.rest := by
    rw [state]
    refine List.forall_mem_singleton.2 (.literal ?_)
    rw [Bool.eq_false_iff, ne_eq, List.isPrefixOf_iff_prefix]
    exact goes
  obtain ⟨first, others, split⟩ := List.exists_cons_of_ne_nil some
  by_cases star : first = '*'
  · subst star
    have barred : (run (allBut '*')).Bars (['*'] ++ others) := .of_begins rfl rfl
    have taken := List.cons_ne_nil '*' []
    exact ⟨_, ['*'], others, split, taken, .inl rfl, rfl,
      moved_of_rule 1 listed bars (.latter barred (.one rfl)) taken working split rfl⟩
  · have accepted : allBut '*' first = true := bne_iff_ne.2 star
    obtain ⟨taken, rest, whole, nonempty, all, ends⟩ := exists_run accepted others
    have absent : '*' ∉ taken := fun member => absurd (all '*' member) (by decide)
    exact ⟨_, taken, rest, split.trans whole, nonempty, .inr absent, rfl,
      moved_of_rule 1 listed bars (.former (.run nonempty all ends)) nonempty working
        (split.trans whole) rfl⟩

/-- Inside a comment the next token is the end mark behind the body. -/
theorem next_of_body (split : scanner.rest = body ++ '*' :: '/' :: behind)
    (first : ClosesFirst body behind) :
    scanner.next table =
      (some (.ok ⟨.commentEnd, [], scanner.position + byteCount body,
          scanner.position + byteCount body + 2⟩),
        { scanner with
          rest := behind, position := scanner.position + byteCount body + 2,
          entered := outer }) := by
  induction length : body.length using Nat.strongRecOn generalizing scanner body with
  | ind _ ih =>
    subst length
    by_cases empty : body = []
    · subst empty
      exact next_of_token (step_commentEnd inside working split) rfl
    have some := List.length_pos_iff.2 empty
    have goes : ¬ ['*', '/'] <+: scanner.rest := by
      rintro ⟨later, closes⟩
      have early := first [] later (split.symm.trans closes.symm)
      exact absurd early (Nat.not_le_of_lt some)
    obtain ⟨lexeme, taken, rest, split', nonempty, alone, silent, moved⟩ :=
      exists_step_inside inside working (by simp [split]) goes
    obtain ⟨more, rfl⟩ : ∃ more, body = taken ++ more := by
      rcases alone with rfl | absent
      · obtain ⟨character, more, rfl⟩ := List.exists_cons_of_ne_nil empty
        rw [split] at split'
        cases (List.cons.inj split').1
        exact ⟨more, rfl⟩
      · exact exists_of_before absent (split.symm.trans split')
    have onward : rest = more ++ '*' :: '/' :: behind := by
      rw [split', List.append_assoc] at split
      exact List.append_cancel_left split
    have shorter : more.length < (taken ++ more).length := by
      have longer := List.length_pos_iff.2 nonempty
      rw [List.length_append]
      omega
    have later := @ih _ shorter (scanner.past taken rest) _ inside working onward first.behind rfl
    rw [next_of_silent moved silent, later, byteCount_append, ← Nat.add_assoc]
    rfl

/-- A comment without an end mark runs to the end of the text. -/
theorem next_of_unclosed (goes : ¬ ['*', '/'] <:+: scanner.rest) :
    scanner.next table = (none, scanner.past scanner.rest []) := by
  induction length : scanner.rest.length using Nat.strongRecOn generalizing scanner with
  | ind _ ih =>
    subst length
    by_cases empty : scanner.rest = []
    · rw [next_of_over (.inr empty), past, empty]
      cases scanner
      cases empty
      rfl
    obtain ⟨lexeme, taken, rest, split, nonempty, _, silent, moved⟩ :=
      exists_step_inside inside working empty fun closes => goes closes.isInfix
    have shorter : rest.length < scanner.rest.length := by
      have longer := List.length_pos_iff.2 nonempty
      rw [split, List.length_append]
      omega
    have further : ¬ ['*', '/'] <:+: rest := by
      intro closes
      rw [split] at goes
      exact goes (closes.trans (List.suffix_append taken rest).isInfix)
    have later := @ih _ shorter (scanner.past taken rest) inside working further rfl
    have whole := past_past scanner taken rest []
    rw [List.append_nil, ← split] at whole
    rw [next_of_silent moved silent, later, ← whole]
    rfl

end

/-- In front of a comment no rule before the one for comments applies. -/
theorem exists_openComment {state : State} (plain : state ≠ .blockComment) :
    ∃ index, (table state)[index]? = some openComment ∧
      ∀ rule ∈ (table state).take index,
        rule.pattern.nullable = false ∧ rule.pattern.begins '/' = false := by
  cases state with
  | root => exact ⟨3, rfl, by decide⟩
  | module => exact ⟨8, rfl, by decide⟩
  | parameters => exact ⟨6, rfl, by decide⟩
  | modulePort => exact ⟨6, rfl, by decide⟩
  | blockComment => exact absurd rfl plain

theorem step_opening (plain : scanner.state ≠ .blockComment) (working : scanner.failed = false)
    (split : scanner.rest = '/' :: '*' :: rest) :
    scanner.step table = .moved
      ⟨scanner.state, some .commentStart, [], scanner.position, scanner.position + 2⟩
      { scanner with
        rest, position := scanner.position + 2,
        entered := .blockComment :: scanner.entered } := by
  obtain ⟨index, listed, others⟩ := exists_openComment plain
  have bars := bars_of_begins others ('*' :: rest)
  rw [← split] at bars
  exact moved_of_rule index listed bars .literal (by decide) working split rfl

/-- In front of a comment on a line that is no documentation no rule before the one for such
comments applies. -/
theorem exists_lineComment {state : State} {first : Char} (plain : state ≠ .blockComment)
    (bare : first ≠ '#') (rest : List Char) :
    ∃ index, (table state)[index]? = some (skip Verilog.lineComment) ∧
      ∀ rule ∈ (table state).take index, rule.pattern.Bars ('/' :: '/' :: first :: rest) := by
  have opening : openComment.pattern.Bars ('/' :: '/' :: first :: rest) := .literal rfl
  have label : sectionLabel.Bars ('/' :: '/' :: first :: rest) := by
    refine .of_first (.literal ?_)
    simp [List.isPrefixOf, bare.symm]
  have documented : documentation.Bars (['/', '/'] ++ first :: rest) := by
    have marks : (run (only '#')).Bars (first :: rest) :=
      .of_begins rfl (by simp [run, begins, only, bare])
    exact .behind_literal (.of_first marks)
  have early (rules : List Rule)
      (others : ∀ rule ∈ rules, rule.pattern.nullable = false ∧ rule.pattern.begins '/' = false) :=
    bars_of_begins others ('/' :: first :: rest)
  cases state with
  | root =>
    exact ⟨5, rfl, List.forall_mem_append.2 ⟨early (rootRules.take 3) (by decide),
      List.forall_mem_cons.2 ⟨opening, List.forall_mem_singleton.2 documented⟩⟩⟩
  | module =>
    exact ⟨11, rfl, List.forall_mem_append.2 ⟨early (moduleRules.take 8) (by decide),
      List.forall_mem_cons.2 ⟨opening,
        List.forall_mem_cons.2 ⟨label, List.forall_mem_singleton.2 documented⟩⟩⟩⟩
  | parameters =>
    exact ⟨8, rfl, List.forall_mem_append.2 ⟨early (parameterRules.take 6) (by decide),
      List.forall_mem_cons.2 ⟨opening, List.forall_mem_singleton.2 documented⟩⟩⟩
  | modulePort =>
    exact ⟨9, rfl, List.forall_mem_append.2 ⟨early (portRules.take 6) (by decide),
      List.forall_mem_cons.2 ⟨opening,
        List.forall_mem_cons.2 ⟨label, List.forall_mem_singleton.2 documented⟩⟩⟩⟩
  | blockComment => exact absurd rfl plain

theorem exists_step_line (plain : scanner.state ≠ .blockComment) (working : scanner.failed = false)
    (split : scanner.rest = commentLine body ++ behind) (inLine : '\n' ∉ body)
    (bare : body.head? ≠ some '#') :
    ∃ lexeme, scanner.step table = .moved lexeme (scanner.past (commentLine body) behind) ∧
      lexeme.token? = none := by
  obtain ⟨first, rest, further, other⟩ :
      ∃ first rest, body ++ '\n' :: behind = first :: rest ∧ first ≠ '#' := by
    cases body with
    | nil => exact ⟨'\n', behind, rfl, by decide⟩
    | cons first rest => exact ⟨first, _, rfl, fun same => bare (congrArg some same)⟩
  obtain ⟨index, listed, bars⟩ := exists_lineComment plain other rest
  have whole : scanner.rest = '/' :: '/' :: first :: rest := by
    rw [split, ← further]
    simp [commentLine]
  rw [← whole] at bars
  have all : ∀ character ∈ body, allBut '\n' character = true :=
    fun character member => bne_iff_ne.2 fun same => inLine (same ▸ member)
  have marks : (exactly "//").Prefers none ['/', '/'] ((body ++ ['\n']) ++ behind) [] := .literal
  have prefers : Verilog.lineComment.Prefers none (commentLine body) behind [] :=
    .andThen marks (.andThen (.most all (.cons rfl behind)) (.former .literal))
  exact ⟨_, moved_of_rule index listed bars prefers nofun working split rfl, rfl⟩

/-- Where a scan has stopped a rule is missing, so it does not face a comment. -/
theorem working_of_reaches {text : String} (reached : (Scanner.start text).Reaches table scanner)
    (goes : ∀ other : Scanner, other.failed = false → other.state = scanner.state →
      other.rest = scanner.rest → ∃ lexeme after, other.step table = .moved lexeme after) :
    scanner.failed = false := by
  cases reached with
  | here => rfl
  | moved _ moved => exact working_of_moved moved
  | @stopped middle _ error before stopped =>
    obtain ⟨working, _, ⟨_, _, rfl⟩ | ⟨_, _, _, _, rfl, _⟩⟩ := first_of_stopped stopped
    · obtain ⟨_, _, moved⟩ := goes middle working rfl rfl
      cases stopped.symm.trans moved
    · exact absurd stopped (step_ne_underflow (before.nested .outside))

theorem working_of_opening (plain : scanner.state ≠ .blockComment)
    (standing : scanner.failed = false ∨ ∃ text, (Scanner.start text).Reaches table scanner)
    (opens : scanner.rest = '/' :: '*' :: rest) : scanner.failed = false := by
  refine standing.elim id fun ⟨text, reached⟩ => working_of_reaches reached ?_
  intro other working state same
  exact ⟨_, _, step_opening (state ▸ plain) working (same.trans opens)⟩

end Scanner

open Scanner in
/-- Every scan that stands in front of a comment skips it, whatever is in the comment. -/
theorem skips_comments {scanner : Scanner} (plain : scanner.state ≠ .blockComment)
    (standing : scanner.failed = false ∨ ∃ text, (Scanner.start text).Reaches table scanner) :
    scanner.Skips where
  closed body behind split first := by
    have opens : scanner.rest = '/' :: '*' :: (body ++ '*' :: '/' :: behind) := by
      rw [split]
      simp [commentBlock]
    have working := working_of_opening plain standing opens
    let inside : Scanner :=
      { scanner with
        rest := body ++ '*' :: '/' :: behind, position := scanner.position + 2,
        entered := .blockComment :: scanner.entered }
    have closes := @next_of_body inside _ _ _ rfl working rfl first
    refine ⟨inside, next_of_token (step_opening plain working opens) rfl, closes.trans ?_⟩
    have bytes : byteCount (commentBlock body) = 2 + byteCount body + 2 := by
      rw [commentBlock, byteCount_append]
      show 1 + (1 + byteCount body) + 2 = _
      omega
    simp only [inside, past, bytes, Nat.add_assoc]
  unclosed body split goes := by
    have working := working_of_opening plain standing split
    refine ⟨_, _, next_of_token (step_opening plain working split) rfl,
      next_of_unclosed rfl working goes, working, rfl, ?_⟩
    have bytes : byteCount scanner.rest = 2 + byteCount body := by
      rw [split]
      show 1 + (1 + byteCount body) = _
      omega
    simp only [past, bytes, Nat.add_assoc]
  line body behind split inLine bare := by
    have working : scanner.failed = false := by
      rcases standing with working | ⟨text, reached⟩
      · exact working
      apply working_of_reaches reached
      intro other working state rest
      obtain ⟨lexeme, moved, _⟩ :=
        exists_step_line (state ▸ plain) working (rest.trans split) inLine bare
      exact ⟨lexeme, _, moved⟩
    exact exists_step_line plain working split inLine bare

/-- A comment in a list of ports, with stars, slashes and an opening in its body. -/
theorem skips_stars :
    let scanner : Scanner :=
      { rest := "/*/ //**\n* /*/ /* */".toList, position := 7, entered := [.modulePort, .module] }
    scanner.state ≠ .blockComment ∧ scanner.failed = false ∧ scanner.Skips ∧
      ∃ inside : Scanner,
        inside.next table =
          (some (.ok ⟨.commentEnd, [], 19, 21⟩),
            ⟨" /* */".toList, 21, [.modulePort, .module], false⟩) := by
  intro scanner
  have plain : scanner.state ≠ .blockComment := by decide
  have skips : scanner.Skips := skips_comments plain (.inl rfl)
  have first : ClosesFirst "/ //**\n* /".toList " /* */".toList :=
    closesFirst_of_not_infix (by decide +kernel) _
  obtain ⟨inside, _, closed⟩ := skips.closed _ _ (by decide +kernel) first
  refine ⟨plain, rfl, skips, inside, closed.trans ?_⟩
  decide +kernel

end VerilogInterface
