import VerilogInterface.Proofs.Returns

/-! Which patterns treat a text alike with and without carriage returns in front of its line breaks.
What a pattern needs of the patterns behind it is computed from the pattern, and a pattern with a
demand that is met finds the same match in both texts. -/

namespace VerilogInterface.Pattern

open Text

variable {same : String → String → Prop} {characters : List Char} {cursor other next : Cursor}
  {continuation onward : Cursor → Option Cursor} {pattern first second body : Pattern}

/-- What a pattern needs of what follows it, where it can end inside a line break. -/
inductive Demand where
  | free
  /-- What follows never fails, or it fails inside line breaks. -/
  | settled
  | total
  | refusing
deriving DecidableEq

namespace Demand

def Met : Demand → (Cursor → Option Cursor) → Prop
  | free, _ => True
  | settled, onward => Total onward ∨ Refusing onward
  | total, onward => Total onward
  | refusing, onward => Refusing onward

def join : Demand → Demand → Option Demand
  | free, demand | demand, free => some demand
  | settled, demand | demand, settled => some demand
  | total, total => some total
  | refusing, refusing => some refusing
  | total, refusing | refusing, total => none

/-- Steps that leave what remains in place do not change what is met. -/
theorem Met.precompose {demand : Demand} (met : demand.Met onward) (change : Cursor → Cursor)
    (keeps : ∀ next rest, next.rest = '\n' :: rest → (change next).rest = '\n' :: rest) :
    demand.Met (onward <| change ·) := by
  have total (all : Total onward) : Total (onward <| change ·) := fun next => all (change next)
  have refusing (none : Refusing onward) : Refusing (onward <| change ·) :=
    fun next rest source => none (change next) rest (keeps next rest source)
  cases demand with
  | free => trivial
  | settled => exact met.imp total refusing
  | total => exact total met
  | refusing => exact refusing met

theorem met_of_join {one two demand : Demand} (joined : join one two = some demand)
    (met : demand.Met onward) : one.Met onward ∧ two.Met onward := by
  cases one <;> cases two <;> cases joined <;>
    simp_all [Met]

end Demand

def refuses (pattern : Pattern) : Bool := !pattern.nullable && !pattern.begins '\n'

theorem search_of_refuses (refuses : pattern.refuses = true) {rest : List Char}
    (source : next.rest = '\n' :: rest) (onward : Cursor → Option Cursor) :
    pattern.search next onward = none := by
  obtain ⟨some, other⟩ := (Bool.and_eq_true _ _).mp refuses
  exact (Bars.of_begins (by simpa using some) (by simpa using other)).search_eq_none source onward

theorem refusing_of_refuses (refuses : pattern.refuses = true) (onward : Cursor → Option Cursor) :
    Refusing (pattern.search · onward) :=
  fun _ _ source => search_of_refuses refuses source onward

theorem total_of_unfailing (unfailing : pattern.unfailing = true) (total : Total onward) :
    Total (pattern.search · onward) := by
  intro cursor
  obtain ⟨next, others, found⟩ := List.exists_cons_of_ne_nil (outcomes_ne_nil unfailing cursor)
  show (pattern.search cursor onward).isSome = true
  rw [← findSome?_outcomes, found]
  exact List.findSome?_isSome_iff.2 ⟨next, List.mem_cons_self, total next⟩

/-- Wherever the demand is met, a search for the one pattern and a search for the other at aligned
cursors go the same way. -/
def Simulates (same : String → String → Prop) (characters : List Char) (pattern mirror : Pattern)
    (demand : Demand) : Prop :=
  ∀ continuation onward, Agree same characters continuation onward → demand.Met onward →
    Agree same characters (pattern.search · continuation) (mirror.search · onward)

theorem agree_orElse {first' second' : Pattern}
    (one : Agree same characters (first.search · continuation) (first'.search · onward))
    (two : Agree same characters (second.search · continuation) (second'.search · onward)) :
    Agree same characters ((Pattern.orElse first second).search · continuation)
      ((Pattern.orElse first' second').search · onward) := by
  intro cursor other aligned
  show Option.Rel _ ((Pattern.orElse first second).search cursor _)
    ((Pattern.orElse first' second').search other _)
  rw [search_orElse, search_orElse]
  exact rel_or (one cursor other aligned) (two cursor other aligned)

namespace Simulates

variable {mirror first' second' body' : Pattern} {before behind demand : Demand}

theorem andThen (one : Simulates same characters first first' before)
    (two : Simulates same characters second second' behind)
    (met : ∀ onward, demand.Met onward → behind.Met onward ∧ before.Met (second'.search · onward)) :
    Simulates same characters (.andThen first second) (.andThen first' second') demand := by
  intro continuation onward agree given
  obtain ⟨last, middle⟩ := met onward given
  exact one _ _ (two _ _ agree last) middle

theorem orElse (one : Simulates same characters first first' before)
    (two : Simulates same characters second second' behind)
    (met : ∀ onward, demand.Met onward → before.Met onward ∧ behind.Met onward) :
    Simulates same characters (.orElse first second) (.orElse first' second') demand := by
  intro continuation onward agree given
  obtain ⟨left, right⟩ := met onward given
  exact agree_orElse (one _ _ agree left) (two _ _ agree right)

theorem capture (plain : ∀ taken, same (String.ofList taken) (String.ofList (crlf taken)))
    (simulates : Simulates same characters body body' demand) (index : Nat) :
    Simulates same characters (.capture index body) (.capture index body') demand := by
  intro continuation onward agree met cursor other aligned
  refine simulates _ _ ?_ ?_ cursor other aligned
  · intro next next' later
    exact agree _ _ (aligned.remember plain later index)
  · exact met.precompose _ fun next rest source => source

theorem rounds {demand : Demand} (simulates : Simulates same characters body body demand)
    (agree : Agree same characters continuation onward)
    (met : demand = .free ∨ demand = .refusing ∧ body.refuses = true ∧ Refusing onward) :
    Agree same characters ((Pattern.rounds body).search · continuation)
      ((Pattern.rounds body).search · onward) := by
  intro cursor other aligned
  generalize length : cursor.rest.length = size
  induction size using Nat.strongRecOn generalizing cursor other with
  | ind size ih =>
    show Option.Rel _ ((Pattern.rounds body).search cursor _) ((Pattern.rounds body).search other _)
    rw [search_rounds, search_rounds]
    refine rel_or (simulates _ _ ?_ ?_ cursor other aligned) (agree cursor other aligned)
    · intro next next' later
      rcases aligned.ahead_or later with ⟨between, rest, bytes, bytes'⟩ | ⟨back, back'⟩
      · cases between with
        | nil =>
          show Option.Rel _ (if _ then _ else none) (if _ then _ else none)
          rw [if_neg (by simp [bytes, byteCount]), if_neg (by simp [bytes', byteCount])]
          exact .none
        | cons character between =>
          have some : character :: between ≠ [] := List.cons_ne_nil _ _
          have onward := byteCount_pos some
          have onward' := byteCount_pos (mt crlf_eq_nil_iff.1 some)
          show Option.Rel _ (if _ then _ else none) (if _ then _ else none)
          rw [if_pos (by omega), if_pos (by omega)]
          refine ih next.rest.length ?_ next next' later rfl
          rw [← length, rest, List.length_append, List.length_cons]
          omega
      · show Option.Rel _ (if _ then _ else none) (if _ then _ else none)
        rw [if_neg (Nat.lt_asymm back), if_neg (Nat.lt_asymm back')]
        exact .none
    · rcases met with rfl | ⟨rfl, refuses, refusing⟩
      · trivial
      · intro next rest source
        show (if _ then _ else none) = none
        rw [search_rounds, search_of_refuses refuses source, refusing next rest source]
        split <;> rfl

end Simulates

def takesBreak : Pattern → Bool
  | .one accept => accept '\r' && accept '\n'
  | _ => false

def runsOn : Pattern → Bool
  | .most accept => accept '\r' && accept '\n'
  | _ => false

def demand : Pattern → Option Demand
  | .nothing | .wordEdge | .textEnd => some .free
  | .one accept =>
    if accept '\n' then none else if accept '\r' then some .refusing else some .free
  | .literal spelled => if spelled.contains '\n' || spelled.contains '\r' then none else some .free
  | .most accept =>
    match accept '\r', accept '\n' with
    | true, true => some .settled
    | true, false => some .refusing
    | false, true => none
    | false, false => some .free
  | .fewest accept =>
    match accept '\r', accept '\n' with
    | true, _ => some .refusing
    | false, true => none
    | false, false => some .free
  | .orElse first second =>
    match first.demand, second.demand with
    | some left, some right => left.join right
    | _, _ => none
  | .rounds body =>
    match body.demand with
    | some .free => some .free
    | some .refusing => if body.refuses then some .refusing else none
    | _ => none
  | .capture _ body => body.demand
  | .andThen first second =>
    if first.takesBreak && second.runsOn then some .settled
    else
      match first.demand, second.demand with
      | some .free, some behind => some behind
      | some .refusing, some behind => if second.refuses then some behind else none
      | some .settled, some behind =>
        if second.refuses then some behind
        else if second.unfailing then behind.join .total
        else none
      | some .total, some behind => if second.unfailing then behind.join .total else none
      | _, _ => none

section Known

variable {demand : Demand} {accept : Char → Bool}

namespace Simulates

theorem one (known : (Pattern.one accept).demand = some demand) :
    Simulates same characters (.one accept) (.one accept) demand := by
  intro continuation onward agree met
  rw [Pattern.demand] at known
  split at known
  · contradiction
  · next breaks =>
    refine agree.one (by simpa using breaks) fun starts => ?_
    rw [if_pos starts] at known
    cases known
    exact met

theorem literal {spelled : List Char} (known : (Pattern.literal spelled).demand = some demand) :
    Simulates same characters (.literal spelled) (.literal spelled) demand := by
  intro continuation onward agree met
  rw [Pattern.demand] at known
  split at known
  · contradiction
  · next absent =>
    simp only [Bool.or_eq_true, List.contains_iff_mem, not_or] at absent
    exact agree.literal absent.1 absent.2

theorem most (known : (Pattern.most accept).demand = some demand) :
    Simulates same characters (.most accept) (.most accept) demand := by
  intro continuation onward agree met
  rw [Pattern.demand] at known
  split at known
  · next starts breaks =>
    cases known
    exact agree.most (by simp [starts]) fun _ => met.imp_left fun total => ⟨breaks, total⟩
  · next starts breaks =>
    cases known
    exact agree.most (fun _ => breaks) fun _ => .inr met
  · contradiction
  · next starts breaks => exact agree.most (fun _ => breaks) (by simp [starts])

theorem fewest (known : (Pattern.fewest accept).demand = some demand) :
    Simulates same characters (.fewest accept) (.fewest accept) demand := by
  intro continuation onward agree met
  rw [Pattern.demand] at known
  split at known
  · next starts =>
    cases known
    exact agree.fewest (by simp [starts]) fun _ => met
  · contradiction
  · next starts breaks => exact agree.fewest (fun _ => breaks) (by simp [starts])

theorem rounds_of_demand
    (inner : ∀ {demand}, body.demand = some demand → Simulates same characters body body demand)
    (known : (Pattern.rounds body).demand = some demand) :
    Simulates same characters (.rounds body) (.rounds body) demand := by
  intro continuation onward agree met
  rw [Pattern.demand] at known
  split at known
  · next free => exact (inner free).rounds agree (.inl rfl)
  · next refusing =>
    split at known
    · next refuses =>
      cases known
      exact (inner refusing).rounds agree (.inr ⟨rfl, refuses, met⟩)
    · contradiction
  · contradiction

/-- One character of a line break and as many as possible behind it. -/
theorem run (takes : first.takesBreak = true) (runs : second.runsOn = true) :
    Simulates same characters (.andThen first second) (.andThen first second) .settled := by
  cases first with
  | one accept =>
    cases second with
    | most others =>
      obtain ⟨starts, breaks⟩ := (Bool.and_eq_true _ _).mp takes
      obtain ⟨starts', breaks'⟩ := (Bool.and_eq_true _ _).mp runs
      exact fun continuation onward agree met => agree.run starts breaks starts' breaks' met
    | _ => contradiction
  | _ => contradiction

/-- What the second pattern does in front of a line break meets the demand of the first. -/
theorem andThen_of_demand
    (one : ∀ {demand}, first.demand = some demand → Simulates same characters first first demand)
    (two : ∀ {demand}, second.demand = some demand →
      Simulates same characters second second demand)
    (known : (Pattern.andThen first second).demand = some demand) :
    Simulates same characters (.andThen first second) (.andThen first second) demand := by
  have joined {before behind : Demand} (unfailing : second.unfailing = true)
      (given : ∀ {onward}, Total onward → before.Met onward)
      (known : behind.join .total = some demand) (onward : Cursor → Option Cursor)
      (met : demand.Met onward) : behind.Met onward ∧ before.Met (second.search · onward) := by
    obtain ⟨last, total⟩ := Demand.met_of_join known met
    exact ⟨last, given (total_of_unfailing unfailing total)⟩
  rw [Pattern.demand] at known
  split at known
  · next whole =>
    obtain ⟨takes, runs⟩ := (Bool.and_eq_true _ _).mp whole
    cases known
    exact run takes runs
  split at known
  · next before after =>
    cases known
    exact .andThen (one before) (two after) fun onward met => ⟨met, trivial⟩
  · next before after =>
    split at known
    · next refuses =>
      cases known
      exact .andThen (one before) (two after)
        fun onward met => ⟨met, refusing_of_refuses refuses onward⟩
    · contradiction
  · next before after =>
    split at known
    · next refuses =>
      cases known
      exact .andThen (one before) (two after)
        fun onward met => ⟨met, .inr (refusing_of_refuses refuses onward)⟩
    · split at known
      · next unfailing => exact .andThen (one before) (two after) (joined unfailing .inl known)
      · contradiction
  · next before after =>
    split at known
    · next unfailing => exact .andThen (one before) (two after) (joined unfailing id known)
    · contradiction
  · contradiction

end Simulates

theorem simulates_of_demand
    (plain : ∀ taken, same (String.ofList taken) (String.ofList (crlf taken)))
    (known : pattern.demand = some demand) :
    Simulates same characters pattern pattern demand := by
  induction pattern generalizing demand with
  | nothing => exact fun continuation onward agree _ => agree
  | wordEdge => exact fun continuation onward agree _ => agree.wordEdge
  | textEnd => exact fun continuation onward agree _ => agree.textEnd
  | one accept => exact .one known
  | literal spelled => exact .literal known
  | most accept => exact .most known
  | fewest accept => exact .fewest known
  | capture index body ih => exact (ih known).capture plain index
  | rounds body ih => exact .rounds_of_demand ih known
  | andThen first second ihFirst ihSecond => exact .andThen_of_demand ihFirst ihSecond known
  | orElse first second ihFirst ihSecond =>
    rw [Pattern.demand] at known
    split at known
    · next left right one two =>
      exact .orElse (ihFirst one) (ihSecond two) fun onward met => Demand.met_of_join known met
    · contradiction

end Known

end VerilogInterface.Pattern
