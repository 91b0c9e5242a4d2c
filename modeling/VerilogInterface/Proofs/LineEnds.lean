import VerilogInterface.Proofs.Lookahead

/-! Patterns that run to the end of a line. They take one line break, as the last character, so at
the end of a line they either match what is there or look no further. -/

namespace VerilogInterface.Pattern

open Text

def blind : Pattern → Bool
  | .andThen first second | .orElse first second => first.blind && second.blind
  | .rounds body | .capture _ body => body.blind
  | .wordEdge | .textEnd => false
  | _ => true

def behindLine (characters : List Char) : List Char := (characters.dropWhile (· != '\n')).tail

/-- The pattern takes no line break until it runs to the end of the line. -/
inductive ToLineEnd : Pattern → Prop where
  | lineEnd : ToLineEnd Verilog.lineEnd
  | after {first second : Pattern} (blind : first.blind = true)
      (inLine : first.mayTake '\n' = false) (onward : ToLineEnd second) :
      ToLineEnd (.andThen first second)

variable {pattern first second : Pattern} {previous : Option Char}
  {taken more rest part characters : List Char} {writes : Writes}

theorem Takes.anywhere (takes : pattern.Takes previous taken rest writes)
    (blind : pattern.blind = true) (before : Option Char) (behind : List Char) :
    pattern.Takes before taken behind writes := by
  induction takes generalizing before behind with
  | nothing => exact .nothing
  | one accepted => exact .one accepted
  | literal => exact .literal
  | most accepted => exact .most accepted
  | fewest accepted => exact .fewest accepted
  | andThen _ _ ihOne ihTwo =>
    obtain ⟨left, right⟩ := (Bool.and_eq_true _ _).mp blind
    exact .andThen (ihOne left _ _) (ihTwo right _ _)
  | former _ ih => exact .former (ih ((Bool.and_eq_true _ _).mp blind).1 _ _)
  | latter _ ih => exact .latter (ih ((Bool.and_eq_true _ _).mp blind).2 _ _)
  | noRound => exact .noRound
  | round _ _ ihOne ihAgain => exact .round (ihOne blind _ _) (ihAgain blind _ _)
  | capture _ ih => exact .capture (ih blind _ _)
  | wordEdge | textEnd => contradiction

theorem behindLine_append (inLine : '\n' ∉ part) (rest : List Char) :
    behindLine (part ++ rest) = behindLine rest := by
  rw [behindLine, List.dropWhile_append_of_pos]
  · rfl
  · intro character member
    rw [bne_iff_ne]
    rintro rfl
    exact inLine member

def Consumes (pattern : Pattern) (characters : List Char) : Prop :=
  ∃ found, pattern.match? characters = some found ∧ found.rest = []

theorem Takes.consumes (takes : pattern.Takes none characters [] writes)
    (all : ∀ taken rest writes, characters = taken ++ rest → pattern.Takes none taken rest writes →
      rest = []) : pattern.Consumes characters := by
  have source : (pattern.start characters).rest = characters ++ [] := (List.append_nil _).symm
  obtain ⟨next, reached, _⟩ := takes.exists_outcome rfl source
  rw [Consumes, match?_eq_head?]
  cases found : pattern.outcomes (pattern.start characters) with
  | nil =>
    rw [found] at reached
    contradiction
  | cons first others =>
    have member : first ∈ pattern.outcomes (pattern.start characters) := by
      rw [found]
      exact List.mem_cons_self
    obtain ⟨taken, rest, written, takes', moves⟩ := outcome_takes member
    exact ⟨_, rfl, moves.rest.trans (all taken rest written moves.source takes')⟩

namespace ToLineEnd

/-- What is left is told by the text alone, whichever way the pattern matched. -/
theorem rest_eq (line : ToLineEnd pattern) (takes : pattern.Takes previous taken rest writes) :
    rest = behindLine (taken ++ rest) := by
  induction line generalizing previous taken writes with
  | lineEnd =>
    rcases takes.of_orElse with lineBreak | ended
    · rw [lineBreak.of_literal]
      rfl
    · cases ended
      rfl
  | @after first second _ inLine _ ih =>
    obtain ⟨some, more, _, _, rfl, _, one, two⟩ := takes.of_andThen
    have plain : '\n' ∉ some := by
      intro member
      rw [one.mayTake member] at inLine
      contradiction
    rw [List.append_assoc, behindLine_append plain]
    exact ih two

/-- A match up to a line break ends there, whatever stands behind. -/
theorem takes_part (line : ToLineEnd pattern)
    (takes : pattern.Takes previous (part ++ more) rest writes) (last : part.getLast? = some '\n') :
    more = [] ∧ ∃ written, pattern.Takes previous part [] written := by
  generalize split : part ++ more = taken at takes
  induction line generalizing previous part taken writes with
  | lineEnd =>
    rcases takes.of_orElse with lineBreak | ended
    · rw [lineBreak.of_literal] at split
      cases part with
      | nil => contradiction
      | cons first part =>
        obtain ⟨rfl, none⟩ := List.cons.inj split
        obtain ⟨rfl, rfl⟩ := List.append_eq_nil_iff.1 none
        exact ⟨rfl, _, .former .literal⟩
    · cases ended
      cases (List.append_eq_nil_iff.1 split).1
      contradiction
  | @after first second blind inLine _ ih =>
    obtain ⟨some, further, _, _, rfl, _, one, two⟩ := takes.of_andThen
    rcases List.append_eq_append_iff.1 split with ⟨middle, front, _⟩ | ⟨middle, rfl, behind⟩
    · rw [one.mayTake_part front (List.mem_of_getLast? last)] at inLine
      contradiction
    · have none : middle ≠ [] := by
        rintro rfl
        rw [List.append_nil] at last
        rw [one.mayTake (List.mem_of_getLast? last)] at inLine
        contradiction
      rw [List.getLast?_append_of_ne_nil _ none] at last
      obtain ⟨ended, _, onward⟩ := ih last _ behind.symm two
      exact ⟨ended, _, .andThen (one.anywhere blind _ _) onward⟩

theorem within_or_consumes (line : ToLineEnd pattern) (last : characters.getLast? = some '\n') :
    pattern.Within characters ∨ pattern.Consumes characters := by
  by_cases within : pattern.Within characters
  · exact .inl within
  · simp only [Within, not_forall, not_not] at within
    obtain ⟨more, behind, writes, takes⟩ := within
    obtain ⟨_, written, whole⟩ := line.takes_part takes last
    refine .inr (whole.consumes ?_)
    intro taken rest writes split takes'
    have ended := line.rest_eq whole
    rw [List.append_nil, split] at ended
    exact (line.rest_eq takes').trans ended.symm

end ToLineEnd

end VerilogInterface.Pattern
