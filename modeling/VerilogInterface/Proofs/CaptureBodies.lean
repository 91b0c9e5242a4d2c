import VerilogInterface.Proofs.Captures
import VerilogInterface.Proofs.Pauses
import VerilogInterface.Proofs.WordRuns

/-! What a captured text can be. Each text of a token was taken by a pattern that some capture of
its rule stands around, so whatever these few patterns have in common holds for the texts of all
tokens with one meaning: most of them stay on one line, and names and values are not empty and begin
and end with no blank. -/

namespace VerilogInterface

open Text

def Text.InLine (text : String) : Prop := '\n' ∉ text.toList

instance (text : String) : Decidable (InLine text) := inferInstanceAs (Decidable (_ ∉ _))

namespace Pattern

def bodies (index : Nat) : Pattern → List Pattern
  | .andThen first second | .orElse first second => first.bodies index ++ second.bodies index
  | .rounds body => body.bodies index
  | .capture other body => (if other = index then [body] else []) ++ body.bodies index
  | _ => []

variable {pattern : Pattern} {previous : Option Char} {taken rest : List Char} {writes : Writes}
  {index : Nat} {written : String}

theorem Takes.exists_body (takes : pattern.Takes previous taken rest writes)
    (member : (index, written) ∈ writes) :
    ∃ body ∈ pattern.bodies index, ∃ before behind inner,
      body.Takes before written.toList behind inner := by
  induction takes with
  | nothing | one | literal | most | fewest | noRound | wordEdge | textEnd => contradiction
  | andThen _ _ ihOne ihTwo =>
    rcases List.mem_append.1 member with first | second
    · obtain ⟨body, listed, takes⟩ := ihOne first
      exact ⟨body, List.mem_append_left _ listed, takes⟩
    · obtain ⟨body, listed, takes⟩ := ihTwo second
      exact ⟨body, List.mem_append_right _ listed, takes⟩
  | former _ ih =>
    obtain ⟨body, listed, takes⟩ := ih member
    exact ⟨body, List.mem_append_left _ listed, takes⟩
  | latter _ ih =>
    obtain ⟨body, listed, takes⟩ := ih member
    exact ⟨body, List.mem_append_right _ listed, takes⟩
  | round _ _ ihOne ihAgain => exact (List.mem_append.1 member).elim ihOne ihAgain
  | @capture other body _ _ _ _ inner ih =>
    rcases List.mem_append.1 member with within | last
    · obtain ⟨body, listed, takes⟩ := ih within
      exact ⟨body, List.mem_append_right _ listed, takes⟩
    · obtain ⟨rfl, rfl⟩ := Prod.mk.inj (List.mem_singleton.1 last)
      rw [String.toList_ofList, bodies, if_pos rfl]
      exact ⟨body, List.mem_append_left _ List.mem_cons_self, _, _, _, inner⟩

/-- What stands in a list after writing was written or stood there before. -/
theorem Writes.mem_of_apply {groups : List (Option String)}
    (found : (Writes.apply writes groups)[index]? = some (some written)) :
    (index, written) ∈ writes ∨ groups[index]? = some (some written) := by
  induction writes generalizing groups with
  | nil => exact .inr found
  | cons write writes ih =>
    rcases ih found with later | before
    · exact .inl (.tail _ later)
    · rw [List.getElem?_set] at before
      split at before
      · next same =>
        split at before
        · obtain rfl := Option.some.inj (Option.some.inj before)
          exact .inl (same ▸ List.mem_cons_self)
        · contradiction
      · exact .inr before

/-- A match takes something, and no blank first or last. -/
def tight (pattern : Pattern) : Bool :=
  !pattern.nullable && blankCodes.all fun code =>
    !pattern.begins (Char.ofNat code) && !pattern.ends (Char.ofNat code)

theorem Takes.tight (takes : pattern.Takes previous taken rest writes)
    (tight : pattern.tight = true) : taken ≠ [] ∧ Trimmed taken := by
  obtain ⟨some, blanks⟩ := (Bool.and_eq_true _ _).mp tight
  have sides {character : Char} (blank : isBlank character = true) :
      pattern.begins character = false ∧ pattern.ends character = false := by
    have neither := List.all_eq_true.1 blanks _ (toNat_of_isBlank blank)
    rw [Char.ofNat_toNat] at neither
    simpa using neither
  refine ⟨fun empty => ?_, fun first head => ?_, fun last final => ?_⟩
  · rw [takes.nullable empty] at some
    contradiction
  · by_contra blank
    have never := (sides (Bool.not_eq_false _ ▸ blank)).1
    rw [takes.begins head] at never
    contradiction
  · by_contra blank
    have never := (sides (Bool.not_eq_false _ ▸ blank)).2
    rw [takes.ends final] at never
    contradiction

end Pattern

def Verilog.bodiesFor (action : Action) (index : Nat) : List Pattern :=
  (rulesFor action).flatMap (·.pattern.bodies index)

namespace Token

variable {text found : String} {token : Token} {index : Nat}

theorem exists_body (member : token ∈ tokens text) (captured : token.group? index = some found) :
    ∃ body ∈ Verilog.bodiesFor token.action index, ∃ before behind writes,
      body.Takes before found.toList behind writes := by
  obtain ⟨rule, listed, _, _, _, takes, groups⟩ := Token.matched member
  have there : token.groups[index]? = some (some found) := Option.join_eq_some_iff.1 captured
  rw [groups] at there
  rcases Pattern.Writes.mem_of_apply there with written | absent
  · obtain ⟨body, around, takes⟩ := takes.exists_body written
    exact ⟨body, List.mem_flatMap.2 ⟨rule, listed, around⟩, takes⟩
  · obtain ⟨_, none⟩ := List.getElem?_eq_some_iff.1 absent
    rw [List.getElem_replicate] at none
    contradiction

/-- The text is on one line if none of its patterns takes a line break. -/
theorem inLine_group (member : token ∈ tokens text)
    (inLine : ∀ body ∈ Verilog.bodiesFor token.action index, body.mayTake '\n' = false) :
    InLine (token.group index) := by
  cases captured : token.group? index with
  | none =>
    rw [group, captured]
    exact List.not_mem_nil
  | some found =>
    obtain ⟨body, around, _, _, _, takes⟩ := exists_body member captured
    rw [group, captured]
    exact takes.lacks (inLine body around)

theorem tidy_group (member : token ∈ tokens text) (captured : token.group? index = some found)
    (tight : ∀ body ∈ Verilog.bodiesFor token.action index, body.tight = true) : Tidy found := by
  obtain ⟨body, around, _, _, _, takes⟩ := exists_body member captured
  obtain ⟨some, trimmed⟩ := takes.tight (tight body around)
  exact ⟨fun empty => some (congrArg String.toList empty), trimmed⟩

end Token

end VerilogInterface
