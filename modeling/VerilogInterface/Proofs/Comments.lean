import VerilogInterface.Proofs.Gaps

/-! Comments over lines in the midst of a text. Nothing comes of their tokens, and behind one the scan
is in the states that it was in before. So going on in front of a comment comes to the same as going
on behind anything else in its place that means nothing either. -/

namespace VerilogInterface

open Text Verilog Pattern

variable {shown : Type} {before comment after : String}

theorem opening_eq {state : State} {rule : Rule} (listed : rule ∈ table state)
    (opens : rule.action = some .commentStart) : rule.pattern = commentStart := by
  have same : rulesFor .commentStart = List.replicate 4 openComment := rfl
  rw [eq_of_rulesFor same listed opens]
  rfl

namespace Scanner

variable {scanner next : Scanner} {lexeme : Lexeme} {token : Token} {earlier later : List Token}
  {outer : List State}

theorem state_ne (plain : scanner.entered.head? ≠ some .blockComment) :
    scanner.state ≠ .blockComment := by
  intro inside
  rw [state] at inside
  cases entered : scanner.entered with
  | nil =>
    rw [entered] at inside
    cases inside
  | cons state outer =>
    rw [entered] at plain inside
    exact plain (congrArg some inside)

theorem exists_opening (moved : scanner.step table = .moved lexeme next)
    (means : lexeme.action = some .commentStart) : ∃ more, scanner.rest = '/' :: '*' :: more := by
  obtain ⟨rule, taken, _, moves⟩ := exists_movesBy moved
  have takes := moves.takes
  rw [opening_eq moves.listed (moves.action.trans means)] at takes
  have split := moves.source
  rw [takes.of_literal] at split
  exact ⟨_, split⟩

/-- Every token was found by a step. -/
theorem exists_of_tokens (found : scanner.tokens = earlier ++ token :: later) :
    ∃ here lexeme after, scanner.Reaches table here ∧ here.step table = .moved lexeme after ∧
      lexeme.token? = some token ∧ after.tokens = later := by
  induction scanner using scan_induction generalizing earlier with
  | ended scanner ended =>
    rw [(tokens_of_ended ended).1] at found
    simp at found
  | stopped scanner error after stopped =>
    rw [(tokens_of_stopped stopped).1] at found
    simp at found
  | moved scanner lexeme after moved ih =>
    have onward {earlier : List Token} (found : after.tokens = earlier ++ token :: later) :
        ∃ here lexeme after, scanner.Reaches table here ∧ here.step table = .moved lexeme after ∧
          lexeme.token? = some token ∧ after.tokens = later := by
      obtain ⟨here, lexeme', after', reaches, rest⟩ := ih found
      exact ⟨here, lexeme', after', .trans (.moved .here moved) reaches, rest⟩
    rw [(tokens_of_moved moved).1] at found
    cases meant : lexeme.token? with
    | none =>
      rw [meant] at found
      exact onward found
    | some first =>
      rw [meant, Option.toList_some, List.singleton_append] at found
      cases earlier with
      | nil =>
        obtain ⟨rfl, rest⟩ := List.cons.inj found
        exact ⟨scanner, lexeme, after, .here, moved, meant, rest⟩
      | cons _ earlier => exact onward (List.cons.inj found).2

/-- The next token inside a comment ends it, and nothing comes of what is before that. -/
theorem exists_behind_comment (view : ParseError → shown) (text : String)
    (nested : Nested scanner.entered)
    (inside : scanner.entered = .blockComment :: outer) (working : scanner.failed = false)
    (found : scanner.tokens = token :: later) :
    ∃ beyond, scanner.Reaches table beyond ∧ beyond.failed = false ∧ beyond.entered = outer ∧
      beyond.position = token.stop ∧ scanner.outlook view text = beyond.outlook view text := by
  induction scanner using scan_induction with
  | ended scanner ended =>
    rw [(tokens_of_ended ended).1] at found
    cases found
  | stopped scanner error after stopped =>
    rw [(tokens_of_stopped stopped).1] at found
    cases found
  | moved scanner lexeme after moved ih =>
    have shift := shift_of_step nested moved
    have nested' := nested.shift shift
    have working' := working_of_moved moved
    rw [(tokens_of_moved moved).1] at found
    rw [inside] at shift
    rcases shift.of_inComment with ⟨silent, same⟩ | ⟨means, same⟩
    · rw [Lexeme.token?, silent] at found
      obtain ⟨beyond, reaches, rest, entered, place, onward⟩ := ih nested' same working' found
      exact ⟨beyond, .trans (.moved .here moved) reaches, rest, entered, place,
        (outlook_of_silent moved silent).trans onward⟩
    · have meant : lexeme.token? = some
          { action := .commentEnd, groups := lexeme.groups, offset := lexeme.offset,
            stop := lexeme.stop } := by
        rw [Lexeme.token?, means]
        rfl
      rw [meant] at found
      cases found
      refine ⟨after, .moved .here moved, working', same, (onward_of_moved moved).2.2.1.symm, ?_⟩
      funext assembly
      rw [outlook_of_token moved meant]
      rfl

/-- The scan of a text that is in the states at the beginning of its second part. -/
def between (before after : String) (entered : List State) : Scanner :=
  { rest := after.toList, position := before.utf8ByteSize, entered }

theorem stands_between (before after : String) (entered : List State) :
    (between before after entered).Stands (before ++ after) := by
  refine ⟨before.toList, String.toList_append, ?_⟩
  rw [byteCount_toList]
  rfl

/-- What is before only matters for the lines of errors. -/
theorem outlook_between {front front' : String}
    (breaks : front'.toList.count '\n' = front.toList.count '\n') (after : String)
    (entered : List State) :
    (between front' after entered).outlook ParseError.located (front' ++ after) =
      (between front after entered).outlook ParseError.located (front ++ after) :=
  Resumes.outlook_eq ⟨rfl, rfl, rfl, front.toList, front'.toList, String.toList_append,
    String.toList_append, (byteCount_toList front).symm, (byteCount_toList front').symm, breaks⟩

theorem outlook_kind (text : String) (scanner : Scanner) (assembly : Assembly) :
    scanner.outlook ParseError.kind text assembly =
      (scanner.outlook ParseError.located text assembly).mapError Prod.fst := by
  rw [outlook, outlook]
  cases assembly.read text scanner <;> rfl

end Scanner

def commented (before comment after : String) : String := before ++ comment ++ after

def spaced (before after : String) : String := before ++ " " ++ after

def Commented (before comment after : String) : Prop :=
  ∃ earlier start stop later,
    tokens (commented before comment after) = earlier ++ start :: stop :: later ∧
    start.action = .commentStart ∧ start.offset = before.utf8ByteSize ∧
    stop.action = .commentEnd ∧ stop.stop = (before ++ comment).utf8ByteSize

structure Facing (before comment after : String) (target : Scanner) : Prop where
  reached : (Scanner.start (commented before comment after)).Reaches table target
  working : target.failed = false
  plain : target.state ≠ .blockComment
  rest : target.rest = comment.toList ++ after.toList
  opens : ∃ more, comment.toList ++ after.toList = '/' :: '*' :: more
  /-- Going on comes to the same as going on behind the comment. -/
  onward : target.outlook ParseError.located (commented before comment after) =
    (Scanner.between (before ++ comment) after target.entered).outlook ParseError.located
      (commented before comment after)

theorem Commented.exists_facing (commented : Commented before comment after) :
    ∃ target, Facing before comment after target := by
  obtain ⟨earlier, start, stop, later, found, opens, begins, _, ends⟩ := commented
  obtain ⟨target, lexeme, inside, reached, moved, meant, others⟩ :=
    @Scanner.exists_of_tokens (.start (commented before comment after)) _ _ _ found
  obtain ⟨meaning, means, rfl⟩ := Option.map_eq_some_iff.1 meant
  cases opens
  have nested : Nested target.entered := reached.nested .outside
  have shift := Scanner.shift_of_step nested moved
  have nested' := nested.shift shift
  rw [means] at shift
  obtain ⟨plain, same⟩ := shift.of_openComment
  obtain ⟨beyond, later, working, entered, place, onward⟩ :=
    Scanner.exists_behind_comment ParseError.located (commented before comment after) nested' same
      (Scanner.working_of_moved moved) others
  obtain ⟨_, begin, _, _⟩ := Scanner.onward_of_moved moved
  have rest : target.rest = comment.toList ++ after.toList := by
    have stands := reached.stands
    rw [commented, String.append_assoc] at stands
    rw [stands.rest_eq (begin.symm.trans begins), String.toList_append]
  have behind : beyond = Scanner.between (before ++ comment) after target.entered := by
    have stands := ((reached.moved moved).trans later).stands
    exact (Scanner.stands_between _ _ _).eq stands (stands.rest_eq (place.trans ends)) entered working
  have opened : lexeme.token? =
      some ⟨.commentStart, lexeme.groups, lexeme.offset, lexeme.stop⟩ := by
    rw [Lexeme.token?, means]
    rfl
  refine ⟨target, reached, (Scanner.first_of_moved moved).1, Scanner.state_ne plain, rest, ?_, ?_⟩
  · rw [← rest]
    exact Scanner.exists_opening moved means
  · funext assembly
    rw [Scanner.outlook_of_token moved opened, ← behind, ← onward]
    rfl

/-- The scan behind the space that stands in the place of a comment, in the states in front of the
comment. -/
def resumed (before after : String) (target : Scanner) : Scanner :=
  .between (before ++ " ") after target.entered

theorem stands_resumed (before after : String) (target : Scanner) :
    (resumed before after target).Stands (spaced before after) :=
  Scanner.stands_between _ _ _

namespace Facing

variable {target : Scanner} (facing : Facing before comment after target)
include facing

/-- What comes of going on in front of a comment on one line is what comes of going on behind a
space. -/
theorem outlook_eq (line : '\n' ∉ comment.toList) :
    (resumed before after target).outlook ParseError.kind (spaced before after) =
      target.outlook ParseError.kind (commented before comment after) := by
  have breaks : (before ++ " ").toList.count '\n' = (before ++ comment).toList.count '\n' := by
    rw [String.toList_append, String.toList_append, List.count_append, List.count_append,
      List.count_eq_zero.2 line]
    rfl
  funext assembly
  rw [Scanner.outlook_kind, Scanner.outlook_kind, facing.onward, resumed, spaced, commented,
    Scanner.outlook_between breaks]

/-- Blanks in front of the space are passed over with it. -/
theorem outlook_eq_of_gap {other : Scanner} {gap : List Char} (line : '\n' ∉ comment.toList)
    (reached : (Scanner.start (spaced before after)).Reaches table other)
    (working : other.failed = false) (entered : other.entered = target.entered) (all : Gap gap)
    (split : other.rest = gap ++ ' ' :: after.toList) :
    other.outlook ParseError.kind (spaced before after) =
      target.outlook ParseError.kind (commented before comment after) := by
  have blank : Gap [' '] := List.forall_mem_singleton.2 rfl
  have plain : other.state ≠ .blockComment := by
    rw [Scanner.state, entered]
    exact facing.plain
  have split' : other.rest = gap ++ [' '] ++ after.toList := by
    rw [split, List.append_assoc]
    rfl
  have same : other.past (gap ++ [' ']) after.toList = resumed before after target :=
    (stands_resumed before after target).eq (reached.stands.past split') rfl entered working
  rw [← facing.outlook_eq line, ← same]
  exact Scanner.outlook_gap _ working plain (all.append blank) split'

/-- Blanks in front of the comment are passed over. -/
theorem of_gap (view : ParseError → shown) (text : String) {scanner : Scanner} {gap : List Char}
    (onward : scanner.Reaches table target) (plain : scanner.state ≠ .blockComment) (all : Gap gap)
    (split : scanner.rest = gap ++ target.rest) :
    target.entered = scanner.entered ∧ scanner.outlook view text = target.outlook view text := by
  cases gap with
  | nil =>
    rw [onward.eq_of_rest facing.working split]
    exact ⟨rfl, rfl⟩
  | cons blank gap =>
    obtain ⟨more, opens⟩ := facing.opens
    have slash : target.rest = '/' :: '*' :: more := facing.rest.trans opens
    have other : scanner ≠ target := by
      rintro rfl
      have same := congrArg List.length split
      rw [List.length_append, List.length_cons] at same
      omega
    obtain ⟨_, silent, moved⟩ := Scanner.step_gap_marked (onward.working facing.working) plain all
      (List.cons_ne_nil _ _) (slash ▸ .cons rfl _) ⟨'/', by decide, by rw [slash]; rfl⟩ split
    obtain ⟨_, _, moved', later⟩ := onward.exists_moved facing.working other
    cases moved.symm.trans moved'
    have same := later.eq_of_rest facing.working rfl
    rw [Scanner.outlook_of_silent moved silent, same]
    exact ⟨(congrArg Scanner.entered same).symm, rfl⟩

end Facing

end VerilogInterface
