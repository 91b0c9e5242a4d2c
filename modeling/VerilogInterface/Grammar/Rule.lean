import VerilogInterface.Grammar.State
import VerilogInterface.Pattern

/-! Rules pair a pattern with what its match means and where the scan goes next. In each state the
first rule with a match that takes at least one character applies. Nothing else is asked of a
pattern than where its match ends, so the rules may have patterns of any kind. -/

namespace VerilogInterface

/-- Patterns of this kind can be tried at the front of a text. A match ends between two characters. -/
class Matcher (kind : Type) where
  match? : kind → List Char → Option Pattern.Match
  splits : ∀ {pattern : kind} {characters : List Char} {found : Pattern.Match},
    match? pattern characters = some found →
      ∃ taken, characters = taken ++ found.rest ∧ found.taken = Text.byteCount taken

instance : Matcher Pattern where
  match? := Pattern.match?
  splits := Pattern.match?_splits

/-- A change of surroundings. -/
inductive Transition where
  | push (state : State)
  | pop
deriving DecidableEq, Repr

/-- A rule without an action skips what it matches. -/
structure Rule (kind : Type := Pattern) where
  pattern : kind
  action : Option Action := none
  transition : Option Transition := none

abbrev RuleTable (kind : Type := Pattern) := State → List (Rule kind)

/-- Rules listed for one state in several places follow each other. -/
def RuleTable.ofLists {kind : Type} (lists : List (State × List (Rule kind))) : RuleTable kind :=
  fun state => (lists.filter (·.1 == state)).flatMap (·.2)

variable {kind : Type} [Matcher kind]

/-- The first rule with a match that is not empty, together with that match. -/
def firstMatch (characters : List Char) : List (Rule kind) → Option (Rule kind × Pattern.Match)
  | [] => none
  | rule :: others =>
    match Matcher.match? rule.pattern characters with
    | some found => if 0 < found.taken then some (rule, found) else firstMatch characters others
    | none => firstMatch characters others

theorem firstMatch_cons (characters : List Char) (rule : Rule) (others : List Rule) :
    firstMatch characters (rule :: others) =
      match rule.pattern.match? characters with
      | some found => if 0 < found.taken then some (rule, found) else firstMatch characters others
      | none => firstMatch characters others := rfl

theorem firstMatch_eq_some {characters : List Char} {rules : List (Rule kind)} {rule : Rule kind}
    {found : Pattern.Match} (first : firstMatch characters rules = some (rule, found)) :
    rule ∈ rules ∧ Matcher.match? rule.pattern characters = some found ∧ 0 < found.taken := by
  induction rules with
  | nil => contradiction
  | cons candidate others ih =>
    rw [firstMatch] at first
    split at first
    · next matched =>
      split at first
      · next nonempty =>
        cases first
        exact ⟨List.mem_cons_self, matched, nonempty⟩
      · exact (ih first).imp_left (List.mem_cons_of_mem _)
    · exact (ih first).imp_left (List.mem_cons_of_mem _)

/-- A match that took at least one byte leaves fewer characters. -/
theorem length_rest_lt_of_match? {pattern : kind} {characters : List Char} {found : Pattern.Match}
    (matched : Matcher.match? pattern characters = some found) (nonempty : 0 < found.taken) :
    found.rest.length < characters.length := by
  obtain ⟨taken, rfl, bytes⟩ := Matcher.splits matched
  cases taken with
  | nil =>
    rw [bytes] at nonempty
    exact absurd nonempty (Nat.lt_irrefl 0)
  | cons character taken =>
    rw [List.length_append, List.length_cons]
    omega

end VerilogInterface
