import VerilogInterface.Proofs.Partings

/-! How far a search looks. A pattern that cannot take all the characters at hand, whatever stands
behind them, matches there in the same way with and without more text behind. -/

namespace VerilogInterface.Pattern

open Text

variable {pattern : Pattern} {characters : List Char}

/-- However the text goes on, the pattern cannot take all these characters. -/
def Within (pattern : Pattern) (characters : List Char) : Prop :=
  ∀ more behind writes, ¬ pattern.Takes none (characters ++ more) behind writes

/-- More text behind changes nothing about a match that cannot take all there is before it. -/
theorem Within.match?_append (within : pattern.Within characters) (extra : List Char) :
    pattern.match? (characters ++ extra) =
      (pattern.match? characters).map fun found => { found with rest := found.rest ++ extra } := by
  have short {extra : List Char} {found : Match}
      (matched : pattern.match? (characters ++ extra) = some found) :
      extra.length < found.rest.length := by
    obtain ⟨taken, writes, split, _, takes, _⟩ := match?_takes matched
    by_contra near
    have long : characters.length ≤ taken.length := by
      have same := congrArg List.length split
      rw [List.length_append, List.length_append] at same
      omega
    obtain ⟨more, rfl⟩ : characters <+: taken :=
      List.prefix_of_prefix_length_le ⟨extra, rfl⟩ ⟨found.rest, split.symm⟩ long
    exact within more found.rest writes takes
  rcases List.eq_nil_or_concat characters with rfl | ⟨front, last, rfl⟩
  · have none (extra : List Char) : pattern.match? extra = none := by
      rw [Option.eq_none_iff_forall_ne_some]
      intro found matched
      obtain ⟨taken, writes, _, _, takes, _⟩ := match?_takes matched
      exact within taken found.rest writes takes
    rw [none, none]
    rfl
  · -- the two texts part in front of the last character, which no match takes
    have parted : front.concat last ++ extra = front ++ last :: extra := by simp
    have alone : front.concat last = front ++ [last] := List.concat_eq_append
    rcases pattern.match?_beside ⟨[last], last :: extra, by simp, rfl⟩ front with
      same | ⟨found, matched, less⟩ | ⟨found, matched, less⟩
    · rw [parted, alone]
      generalize pattern.match? (front ++ [last]) = one at same
      generalize pattern.match? (front ++ last :: extra) = two at same
      cases same with
      | none => rfl
      | @some found other beside =>
        obtain ⟨⟨behind, rest, rest'⟩, taken, groups⟩ := beside
        have longer : other.rest = found.rest ++ extra := by
          rw [rest, rest']
          simp
        rw [Option.map_some, ← longer, ← taken, ← groups]
    · rw [← alone, ← List.append_nil (front.concat last)] at matched
      have far := short matched
      simp only [List.length_singleton] at less
      exact absurd far (Nat.not_lt_of_le (Nat.le_of_lt_succ less))
    · rw [← parted] at matched
      have far := short matched
      simp only [List.length_cons] at less
      omega

def mayTake : Pattern → Char → Bool
  | .one accept, character | .most accept, character | .fewest accept, character =>
    accept character
  | .literal characters, character => characters.contains character
  | .andThen first second, character | .orElse first second, character =>
    first.mayTake character || second.mayTake character
  | .rounds body, character | .capture _ body, character => body.mayTake character
  | _, _ => false

/-- Whether a match can take the character and a line break that does not come before it. -/
def beforeBreak : Pattern → Char → Bool
  | .one accept, character => character == '\n' && accept '\n'
  | .andThen first second, character =>
    first.beforeBreak character || second.beforeBreak character ||
      (first.mayTake character && second.mayTake '\n')
  | .orElse first second, character => first.beforeBreak character || second.beforeBreak character
  | .capture _ body, character => body.beforeBreak character
  | pattern, character => pattern.mayTake character && pattern.mayTake '\n'

namespace Takes

variable {previous : Option Char} {taken rest : List Char} {writes : Writes} {character : Char}

theorem mayTake (takes : pattern.Takes previous taken rest writes) (member : character ∈ taken) :
    pattern.mayTake character = true := by
  induction takes with
  | nothing | noRound | wordEdge | textEnd => contradiction
  | one accepted =>
    cases List.mem_singleton.1 member
    exact accepted
  | literal => exact List.contains_iff_mem.2 member
  | most accepted | fewest accepted => exact accepted character member
  | andThen _ _ ihOne ihTwo =>
    rw [Pattern.mayTake, Bool.or_eq_true]
    exact (List.mem_append.1 member).imp ihOne ihTwo
  | former _ ih =>
    rw [Pattern.mayTake, Bool.or_eq_true]
    exact .inl (ih member)
  | latter _ ih =>
    rw [Pattern.mayTake, Bool.or_eq_true]
    exact .inr (ih member)
  | round _ _ ihOne ihAgain => exact (List.mem_append.1 member).elim ihOne ihAgain
  | capture _ ih => exact ih member

theorem mayTake_part {part more : List Char} (takes : pattern.Takes previous taken rest writes)
    (split : taken = part ++ more) (member : character ∈ part) : pattern.mayTake character = true :=
  takes.mayTake (by rw [split]; exact List.mem_append_left _ member)

/-- What a match takes up to a line break it may take before a line break. -/
theorem beforeBreak {part more : List Char} (takes : pattern.Takes previous taken rest writes)
    (split : taken = part ++ more) (last : part.getLast? = some '\n') (member : character ∈ part) :
    pattern.beforeBreak character = true := by
  induction pattern generalizing previous taken rest writes part more with
  | nothing | literal | most | fewest | rounds | wordEdge | textEnd =>
    exact (Bool.and_eq_true _ _).mpr
      ⟨takes.mayTake_part split member, takes.mayTake_part split (List.mem_of_getLast? last)⟩
  | one accept =>
    cases takes with
    | @one _ only _ _ accepted =>
      have all : ∀ inner ∈ part, inner = only := by
        intro inner inside
        have listed : inner ∈ [only] := by
          rw [split]
          exact List.mem_append_left _ inside
        exact List.mem_singleton.1 listed
      cases all character member
      cases all '\n' (List.mem_of_getLast? last)
      exact accepted
  | capture index body ih =>
    obtain ⟨_, _, inner⟩ := takes.of_capture
    exact ih inner split last member
  | orElse first second ihFirst ihSecond =>
    rw [Pattern.beforeBreak, Bool.or_eq_true]
    exact takes.of_orElse.imp (ihFirst · split last member) (ihSecond · split last member)
  | andThen first second ihFirst ihSecond =>
    obtain ⟨some, further, _, _, rfl, _, one, two⟩ := takes.of_andThen
    rw [Pattern.beforeBreak, Bool.or_eq_true, Bool.or_eq_true, Bool.and_eq_true]
    rcases List.append_eq_append_iff.1 split with ⟨middle, rfl, behind⟩ | ⟨middle, front, _⟩
    · by_cases none : middle = []
      · rw [none, List.append_nil] at last member
        exact .inl (.inl (ihFirst one (List.append_nil _).symm last member))
      · rw [List.getLast?_append_of_ne_nil _ none] at last
        rcases List.mem_append.1 member with inFirst | inSecond
        · exact .inr ⟨one.mayTake inFirst, two.mayTake_part behind (List.mem_of_getLast? last)⟩
        · exact .inl (.inr (ihSecond two behind last inSecond))
    · exact .inl (.inl (ihFirst one front last member))

end Takes

/-- A pattern stays within characters that end a line if it cannot take one of them before a line
break. -/
theorem Within.of_beforeBreak {character : Char} (last : characters.getLast? = some '\n')
    (member : character ∈ characters) (never : pattern.beforeBreak character = false) :
    pattern.Within characters := by
  intro more behind writes takes
  have may := takes.beforeBreak rfl last member
  rw [never] at may
  contradiction

end VerilogInterface.Pattern
