import Mathlib.Data.List.Induction
import VerilogInterface.Proofs.Splits
import VerilogInterface.Scanner

/-! Conditional guards in a list of tokens. Which guards are open is told by counting how many the
tokens open and close; the open guards themselves form a stack whose top is the innermost. -/

namespace VerilogInterface

def opened (tokens : List Token) : Nat := tokens.countP (·.action == .guardEnter)

def closed (tokens : List Token) : Nat := tokens.countP (·.action == .guardExit)

/-- Nowhere have more guards been closed than opened. -/
def NoSurplus (tokens : List Token) : Prop := ∀ part, part <+: tokens → closed part ≤ opened part

structure Balanced (tokens : List Token) : Prop where
  noSurplus : NoSurplus tokens
  even : closed tokens = opened tokens

/-- A guard as it is kept: its directive and the macro it tests. -/
def Token.guard (token : Token) : String := token.group 0 ++ "=" ++ token.group 1

/-- The guard is open after the tokens, and every guard opened later is closed again. -/
def Innermost (tokens : List Token) (guard : String) : Prop :=
  ∃ before enter after, tokens = before ++ enter :: after ∧ enter.action = .guardEnter ∧
    enter.guard = guard ∧ Balanced after

/-- The innermost guard open after the tokens, or none if all of them are closed. -/
def Guarded (tokens : List Token) : Option String → Prop
  | some guard => Innermost tokens guard
  | none => Balanced tokens

/-- The open guards after one more token, innermost first. -/
def Token.guards (token : Token) (outer : List String) : List String :=
  match token.action with
  | .guardEnter => token.guard :: outer
  | .guardExit => outer.tail
  | _ => outer

def openGuards (tokens : List Token) : List String :=
  tokens.foldl (fun guards token => token.guards guards) []

/-- The guards of a stack are open after the tokens, each inside the next. -/
def Encloses : List String → List Token → Prop
  | [], tokens => Balanced tokens
  | guard :: outer, tokens => ∃ before enter after, tokens = before ++ enter :: after ∧
      enter.action = .guardEnter ∧ enter.guard = guard ∧ Balanced after ∧ Encloses outer before

@[simp]
theorem opened_append (first second : List Token) :
    opened (first ++ second) = opened first + opened second := List.countP_append

@[simp]
theorem closed_append (first second : List Token) :
    closed (first ++ second) = closed first + closed second := List.countP_append

@[simp]
theorem opened_cons (token : Token) (tokens : List Token) :
    opened (token :: tokens) = opened tokens + if token.action = .guardEnter then 1 else 0 := by
  simp [opened, List.countP_cons]

@[simp]
theorem closed_cons (token : Token) (tokens : List Token) :
    closed (token :: tokens) = closed tokens + if token.action = .guardExit then 1 else 0 := by
  simp [closed, List.countP_cons]

theorem NoSurplus.of_prefix {first tokens : List Token} (paired : NoSurplus tokens)
    (beginning : first <+: tokens) : NoSurplus first :=
  fun part inside => paired part (inside.trans beginning)

theorem NoSurplus.concat {tokens : List Token} {token : Token} (paired : NoSurplus tokens)
    (enough : closed (tokens ++ [token]) ≤ opened (tokens ++ [token])) :
    NoSurplus (tokens ++ [token]) := by
  intro part inside
  rcases List.prefix_concat_iff.1 inside with rfl | earlier
  · exact enough
  · exact paired part earlier

theorem NoSurplus.append {first second : List Token} (paired : NoSurplus first)
    (later : NoSurplus second) : NoSurplus (first ++ second) := by
  induction second using List.reverseRecOn with
  | nil => simpa using paired
  | append_singleton second token ih =>
    rw [← List.append_assoc]
    have whole := later _ (List.prefix_refl _)
    have start := paired _ (List.prefix_refl _)
    refine (ih (later.of_prefix (List.prefix_append _ _))).concat ?_
    simp only [closed_append, opened_append] at whole ⊢
    omega

namespace Balanced

theorem nil : Balanced [] where
  noSurplus part inside := by
    rw [List.prefix_nil.1 inside]
    exact Nat.le_refl 0
  even := rfl

theorem append {first second : List Token} (balanced : Balanced first) (later : Balanced second) :
    Balanced (first ++ second) :=
  ⟨balanced.noSurplus.append later.noSurplus, by simp [balanced.even, later.even]⟩

theorem singleton {token : Token} (enter : token.action ≠ .guardEnter)
    (exit : token.action ≠ .guardExit) : Balanced [token] :=
  ⟨nil.noSurplus.concat (by simp [enter, exit, nil.even]), by simp [enter, exit, nil.even]⟩

theorem enclose {enter exit : Token} {tokens : List Token} (balanced : Balanced tokens)
    (opens : enter.action = .guardEnter) (closes : exit.action = .guardExit) :
    Balanced (enter :: tokens ++ [exit]) := by
  have paired : NoSurplus ([enter] ++ tokens) :=
    NoSurplus.append (nil.noSurplus.concat (by simp [opens, nil.even])) balanced.noSurplus
  have none := nil.even
  have even := balanced.even
  refine ⟨paired.concat ?_, ?_⟩
  · simp [opens, closes]
    omega
  · simp [opens, closes]
    omega

end Balanced

private theorem Balanced.not_open {enter : Token} {before after : List Token}
    (balanced : Balanced (before ++ enter :: after)) (opens : enter.action = .guardEnter)
    (later : Balanced after) : False := by
  have early := balanced.noSurplus before (List.prefix_append _ _)
  have total := balanced.even
  have rest := later.even
  simp [opens] at total
  omega

/-- There is one innermost guard at most: a guard opened after it would stay open. -/
theorem Innermost.unique {tokens : List Token} {first second : String}
    (one : Innermost tokens first) (other : Innermost tokens second) : first = second := by
  obtain ⟨before, enter, after, rfl, opens, rfl, balanced⟩ := one
  obtain ⟨before', enter', after', same, opens', rfl, balanced'⟩ := other
  rcases split_apart same with ⟨_, rfl, _⟩ | ⟨between, _, rfl⟩ | ⟨between, _, rfl⟩
  · rfl
  · exact (balanced.not_open opens' balanced').elim
  · exact (balanced'.not_open opens balanced).elim

theorem Innermost.closed_lt {tokens : List Token} {guard : String} (inner : Innermost tokens guard)
    (paired : NoSurplus tokens) : closed tokens < opened tokens := by
  obtain ⟨before, enter, after, rfl, opens, _, balanced⟩ := inner
  have early := paired before (List.prefix_append _ _)
  have even := balanced.even
  simp [opens]
  omega

namespace Encloses

variable {stack : List String} {tokens : List Token}

theorem append {more : List Token} (encloses : Encloses stack tokens) (balanced : Balanced more) :
    Encloses stack (tokens ++ more) := by
  cases stack with
  | nil => exact Balanced.append encloses balanced
  | cons guard outer =>
    obtain ⟨before, enter, after, rfl, opens, same, inner, rest⟩ := encloses
    exact ⟨before, enter, after ++ more, by simp, opens, same, inner.append balanced, rest⟩

theorem enter {token : Token} (encloses : Encloses stack tokens)
    (opens : token.action = .guardEnter) : Encloses (token.guard :: stack) (tokens ++ [token]) :=
  ⟨tokens, token, [], rfl, opens, rfl, .nil, encloses⟩

theorem exit {token : Token} {guard : String} (encloses : Encloses (guard :: stack) tokens)
    (closes : token.action = .guardExit) : Encloses stack (tokens ++ [token]) := by
  obtain ⟨before, enter, after, rfl, opens, _, inner, rest⟩ := encloses
  simpa using rest.append (inner.enclose opens closes)

theorem counts (encloses : Encloses stack tokens) :
    opened tokens = closed tokens + stack.length := by
  induction stack generalizing tokens with
  | nil => exact (Balanced.even encloses).symm
  | cons guard outer ih =>
    obtain ⟨before, enter, after, rfl, opens, _, inner, rest⟩ := encloses
    have even := inner.even
    have early := ih rest
    simp [opens]
    omega

theorem guarded (encloses : Encloses stack tokens) : Guarded tokens stack.head? := by
  cases stack with
  | nil => exact encloses
  | cons guard outer =>
    obtain ⟨before, enter, after, split, opens, same, inner, _⟩ := encloses
    exact ⟨before, enter, after, split, opens, same, inner⟩

end Encloses

theorem openGuards_concat (tokens : List Token) (token : Token) :
    openGuards (tokens ++ [token]) = token.guards (openGuards tokens) := by
  simp [openGuards]

/-- Where no guard closes in vain, the stack holds exactly the open guards. -/
theorem openGuards_encloses {tokens : List Token} (paired : NoSurplus tokens) :
    Encloses (openGuards tokens) tokens := by
  induction tokens using List.reverseRecOn with
  | nil => exact Balanced.nil
  | append_singleton tokens token ih =>
    have before := ih (paired.of_prefix (List.prefix_append _ _))
    rw [openGuards_concat, Token.guards]
    split
    · next opens => exact before.enter opens
    · next closes =>
      have enough := paired _ (List.prefix_refl _)
      have counts := before.counts
      cases stack : openGuards tokens with
      | nil =>
        have none := Balanced.nil.even
        rw [stack] at counts
        simp [closes] at enough counts
        omega
      | cons guard outer =>
        rw [stack] at before
        exact before.exit closes
    · next enter exit => exact before.append (.singleton enter exit)

/-- The innermost guard of the stack is the innermost guard that the tokens leave open. -/
theorem guarded_head?_openGuards {tokens : List Token} (paired : NoSurplus tokens) :
    Guarded tokens (openGuards tokens).head? := (openGuards_encloses paired).guarded

theorem even_of_not_innermost {tokens : List Token} (paired : NoSurplus tokens)
    (outside : ∀ guard, ¬ Innermost tokens guard) : closed tokens = opened tokens := by
  have guarded := guarded_head?_openGuards paired
  cases stack : (openGuards tokens).head? with
  | none =>
    rw [stack] at guarded
    exact guarded.even
  | some guard =>
    rw [stack] at guarded
    exact (outside guard guarded).elim

end VerilogInterface
