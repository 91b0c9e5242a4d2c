import VerilogInterface.Proofs.Outcomes

/-! Searches in a text and in the same text with carriage returns in front of its line breaks. The
two stay aligned from one character of the text to the next; a search of the second text can also
stop inside a line break, and must not succeed from there where the first search fails. -/

namespace VerilogInterface

namespace Text

def crlf : List Char → List Char
  | [] => []
  | character :: rest =>
    if character = '\n' then '\r' :: '\n' :: crlf rest else character :: crlf rest

@[simp]
theorem crlf_nil : crlf [] = [] := rfl

@[simp]
theorem crlf_break (rest : List Char) : crlf ('\n' :: rest) = '\r' :: '\n' :: crlf rest := rfl

theorem crlf_cons {character : Char} (plain : character ≠ '\n') (rest : List Char) :
    crlf (character :: rest) = character :: crlf rest := by
  rw [crlf, if_neg plain]

theorem crlf_append (first second : List Char) :
    crlf (first ++ second) = crlf first ++ crlf second := by
  induction first with
  | nil => rfl
  | cons character first ih =>
    rw [List.cons_append, crlf, crlf, ih]
    split <;> rfl

theorem crlf_eq_nil_iff {characters : List Char} : crlf characters = [] ↔ characters = [] := by
  cases characters with
  | nil => simp
  | cons character rest =>
    rw [crlf]
    split <;> simp

theorem firstBytes_zero (characters : List Char) : firstBytes 0 characters = [] := by
  cases characters <;> rfl

theorem byteCount_pos_iff {characters : List Char} :
    0 < byteCount characters ↔ characters ≠ [] := by
  constructor
  · rintro positive rfl
    exact Nat.lt_irrefl 0 positive
  · exact byteCount_pos

end Text

namespace Pattern

open Text

variable {same : String → String → Prop} {characters : List Char} {cursor other next : Cursor}
  {continuation onward : Cursor → Option Cursor} {pattern first second body : Pattern}
  {accept : Char → Bool}

structure Aligned (same : String → String → Prop) (characters : List Char)
    (cursor other : Cursor) : Prop where
  taken : ∃ taken, characters = taken ++ cursor.rest ∧ cursor.taken = byteCount taken ∧
    other.taken = byteCount (crlf taken)
  rest : other.rest = crlf cursor.rest
  previous : other.previous = cursor.previous
  captures : List.Forall₂ (Option.Rel same) (cursor.captures.map captured)
    (other.captures.map captured)

private theorem forall₂_set {α : Type} {relation : α → α → Prop} {list list' : List α}
    (all : List.Forall₂ relation list list') (index : Nat) {entry entry' : α}
    (here : relation entry entry') :
    List.Forall₂ relation (list.set index entry) (list'.set index entry') := by
  induction all generalizing index with
  | nil => exact .nil
  | cons head tail ih =>
    cases index with
    | zero => exact .cons here tail
    | succ index => exact .cons head (ih index)

namespace Aligned

theorem start (same : String → String → Prop) (characters : List Char) (pattern : Pattern) :
    Aligned same characters (pattern.start characters) (pattern.start (crlf characters)) where
  taken := ⟨[], rfl, rfl, rfl⟩
  rest := rfl
  previous := rfl
  captures := by
    simp only [Pattern.start, List.map_replicate]
    induction pattern.captureCount with
    | zero => exact .nil
    | succ count ih => exact .cons .none ih

variable (aligned : Aligned same characters cursor other)
include aligned

theorem nil (ended : cursor.rest = []) : other.rest = [] := by
  rw [aligned.rest, ended, crlf_nil]

theorem advance {character : Char} {rest : List Char} (source : cursor.rest = character :: rest)
    (plain : character ≠ '\n') :
    other.rest = character :: crlf rest ∧
      Aligned same characters (cursor.advance character rest)
        (other.advance character (crlf rest)) := by
  obtain ⟨taken, split, bytes, bytes'⟩ := aligned.taken
  refine ⟨by rw [aligned.rest, source, crlf_cons plain],
    ⟨taken ++ [character], ?_, ?_, ?_⟩, rfl, rfl, aligned.captures⟩
  · rw [split, source, List.append_assoc]
    rfl
  · rw [byteCount_append, ← bytes]
    rfl
  · rw [crlf_append, byteCount_append, ← bytes', crlf_cons plain]
    rfl

theorem breakLine {rest : List Char} (source : cursor.rest = '\n' :: rest) :
    other.rest = '\r' :: '\n' :: crlf rest ∧
      Aligned same characters (cursor.advance '\n' rest)
        ((other.advance '\r' ('\n' :: crlf rest)).advance '\n' (crlf rest)) := by
  obtain ⟨taken, split, bytes, bytes'⟩ := aligned.taken
  refine ⟨by rw [aligned.rest, source, crlf_break],
    ⟨taken ++ ['\n'], ?_, ?_, ?_⟩, rfl, rfl, aligned.captures⟩
  · rw [split, source, List.append_assoc]
    rfl
  · rw [byteCount_append, ← bytes]
    rfl
  · rw [crlf_append, byteCount_append, ← bytes']
    rfl

/-- Of two aligned pairs one lies ahead of the other, in both texts by what is taken between. -/
theorem ahead_or {after after' : Cursor} (later : Aligned same characters after after') :
    (∃ between, cursor.rest = between ++ after.rest ∧
      after.taken = cursor.taken + byteCount between ∧
      after'.taken = other.taken + byteCount (crlf between)) ∨
    (after.taken < cursor.taken ∧ after'.taken < other.taken) := by
  obtain ⟨taken, split, bytes, bytes'⟩ := aligned.taken
  obtain ⟨taken', split', further, further'⟩ := later.taken
  have forward (between : List Char) (longer : taken' = taken ++ between)
      (rest : cursor.rest = between ++ after.rest) :
      ∃ between, cursor.rest = between ++ after.rest ∧
        after.taken = cursor.taken + byteCount between ∧
        after'.taken = other.taken + byteCount (crlf between) := by
    refine ⟨between, rest, ?_, ?_⟩
    · rw [further, bytes, longer, byteCount_append]
    · rw [further', bytes', longer, crlf_append, byteCount_append]
  rcases List.append_eq_append_iff.1 (split.symm.trans split') with
    ⟨between, longer, rest⟩ | ⟨between, shorter, rest⟩
  · exact .inl (forward between longer rest)
  · cases between with
    | nil => exact .inl (forward [] (by simpa using shorter.symm) rest.symm)
    | cons character between =>
      have some : character :: between ≠ [] := List.cons_ne_nil _ _
      have positive := byteCount_pos some
      have positive' := byteCount_pos (mt crlf_eq_nil_iff.1 some)
      refine .inr ⟨?_, ?_⟩
      · rw [further, bytes, shorter, byteCount_append]
        omega
      · rw [further', bytes', shorter, crlf_append, byteCount_append]
        omega

theorem setCapture (index : Nat) {text text' : List Char × Nat}
    (here : Option.Rel same (captured (some text)) (captured (some text'))) :
    Aligned same characters
      { cursor with captures := cursor.captures.set index (some text) }
      { other with captures := other.captures.set index (some text') } := by
  refine ⟨aligned.taken, aligned.rest, aligned.previous, ?_⟩
  rw [List.map_set, List.map_set]
  exact forall₂_set aligned.captures index here

theorem remember (plain : ∀ taken, same (String.ofList taken) (String.ofList (crlf taken)))
    {after after' : Cursor} (later : Aligned same characters after after') (index : Nat) :
    Aligned same characters (after.remember index cursor) (after'.remember index other) := by
  refine later.setCapture index (.some ?_)
  rcases aligned.ahead_or later with ⟨between, rest, bytes, bytes'⟩ | ⟨back, back'⟩
  · simp only [bytes, bytes', Nat.add_sub_cancel_left, aligned.rest, rest, crlf_append,
      firstBytes_append]
    exact plain between
  · simp only [Nat.sub_eq_zero_of_le (Nat.le_of_lt back),
      Nat.sub_eq_zero_of_le (Nat.le_of_lt back'), firstBytes_zero]
    exact plain []

end Aligned

def Agree (same : String → String → Prop) (characters : List Char)
    (continuation onward : Cursor → Option Cursor) : Prop :=
  ∀ cursor other, Aligned same characters cursor other →
    Option.Rel (Aligned same characters) (continuation cursor) (onward other)

def Total (onward : Cursor → Option Cursor) : Prop := ∀ next, (onward next).isSome = true

/-- The continuation fails in front of a line break, and so inside one. -/
def Refusing (onward : Cursor → Option Cursor) : Prop :=
  ∀ next rest, next.rest = '\n' :: rest → onward next = none

theorem Total.isSome_furthestFirst (total : Total onward) (cursor : Cursor) (rest : List Char) :
    ((cursor.furthestFirst accept rest []).findSome? onward).isSome = true :=
  List.findSome?_isSome_iff.2 ⟨cursor, mem_furthestFirst_self accept cursor rest, total cursor⟩

section
variable {left right left' right' : Option Cursor} {relation : Cursor → Cursor → Prop}

theorem rel_or (one : Option.Rel relation left left') (two : Option.Rel relation right right') :
    Option.Rel relation (left.or right) (left'.or right') := by
  cases one with
  | some same => exact .some same
  | none => exact two

theorem rel_or_of_isSome (one : Option.Rel relation left left') (some : left'.isSome = true) :
    Option.Rel relation (left.or right) (left'.or right') := by
  cases one with
  | some same => exact .some same
  | none => contradiction

theorem rel_ite {condition : Prop} [Decidable condition] (one : Option.Rel relation left left') :
    Option.Rel relation (if condition then left else none) (if condition then left' else none) := by
  split
  · exact one
  · exact .none

end

theorem nearestFirst_cons (cursor : Cursor) (character : Char) (rest : List Char) :
    cursor.nearestFirst accept continuation (character :: rest) =
      (continuation cursor).or
        (if accept character then
          (cursor.advance character rest).nearestFirst accept continuation rest
        else none) := by
  rw [Cursor.nearestFirst]
  cases continuation cursor <;> rfl

namespace Agree

variable (agree : Agree same characters continuation onward)
include agree

/-- Inside a line break the second search either stops short, or it has already succeeded. -/
theorem most (noStart : accept '\r' = false → accept '\n' = false)
    (inside : accept '\r' = true → accept '\n' = true ∧ Total onward ∨ Refusing onward) :
    Agree same characters ((Pattern.most accept).search · continuation)
      ((Pattern.most accept).search · onward) := by
  intro cursor other aligned
  show Option.Rel _ ((cursor.furthestFirst accept cursor.rest []).findSome? continuation)
    ((other.furthestFirst accept other.rest []).findSome? onward)
  generalize source : cursor.rest = rest
  induction rest generalizing cursor other with
  | nil =>
    rw [aligned.nil source]
    simpa [Cursor.furthestFirst] using agree cursor other aligned
  | cons character rest ih =>
    by_cases lineBreak : character = '\n'
    · subst lineBreak
      obtain ⟨source', later⟩ := aligned.breakLine source
      have further := ih _ _ later rfl
      have here := agree cursor other aligned
      rw [source', Cursor.furthestFirst_cons, Cursor.furthestFirst_cons, Cursor.furthestFirst_cons]
      cases starts : accept '\r' with
      | false => simpa [starts, noStart starts] using here
      | true =>
        simp only [if_true, List.findSome?_append, List.findSome?_singleton]
        rcases inside starts with ⟨ends, total⟩ | refusing
        · rw [if_pos ends, if_pos ends, Option.or_assoc]
          exact rel_or_of_isSome further (total.isSome_furthestFirst _ _)
        · rw [refusing _ (crlf rest) rfl, Option.or_none]
          refine rel_or ?_ here
          split
          · exact further
          · exact .none
    · obtain ⟨source', later⟩ := aligned.advance source lineBreak
      have further := ih _ _ later rfl
      rw [source', Cursor.furthestFirst_cons, Cursor.furthestFirst_cons, List.findSome?_append,
        List.findSome?_append]
      refine rel_or ?_ (by simpa using agree cursor other aligned)
      split
      · exact further
      · exact .none

theorem fewest (noStart : accept '\r' = false → accept '\n' = false)
    (inside : accept '\r' = true → Refusing onward) :
    Agree same characters ((Pattern.fewest accept).search · continuation)
      ((Pattern.fewest accept).search · onward) := by
  intro cursor other aligned
  show Option.Rel _ (cursor.nearestFirst accept continuation cursor.rest)
    (other.nearestFirst accept onward other.rest)
  generalize source : cursor.rest = rest
  induction rest generalizing cursor other with
  | nil =>
    rw [aligned.nil source]
    exact agree cursor other aligned
  | cons character rest ih =>
    have here := agree cursor other aligned
    by_cases lineBreak : character = '\n'
    · subst lineBreak
      obtain ⟨source', later⟩ := aligned.breakLine source
      rw [source', nearestFirst_cons, nearestFirst_cons, nearestFirst_cons]
      refine rel_or here ?_
      cases starts : accept '\r' with
      | false =>
        rw [noStart starts]
        exact .none
      | true =>
        rw [inside starts _ (crlf rest) rfl, Option.none_or, if_pos rfl]
        exact rel_ite (ih _ _ later rfl)
    · obtain ⟨source', later⟩ := aligned.advance source lineBreak
      rw [source', nearestFirst_cons, nearestFirst_cons]
      exact rel_or here (rel_ite (ih _ _ later rfl))

theorem one (breaks : accept '\n' = false) (inside : accept '\r' = true → Refusing onward) :
    Agree same characters ((Pattern.one accept).search · continuation)
      ((Pattern.one accept).search · onward) := by
  intro cursor other aligned
  show Option.Rel _ ((Pattern.one accept).search cursor continuation)
    ((Pattern.one accept).search other onward)
  rw [search, search]
  cases source : cursor.rest with
  | nil =>
    rw [aligned.nil source]
    exact .none
  | cons character rest =>
    by_cases lineBreak : character = '\n'
    · subst lineBreak
      rw [(aligned.breakLine source).1]
      show Option.Rel _ (if accept '\n' then _ else none) (if accept '\r' then _ else none)
      rw [if_neg (by simp [breaks])]
      split
      · next starts =>
        rw [inside starts _ (crlf rest) rfl]
        exact .none
      · exact .none
    · obtain ⟨source', later⟩ := aligned.advance source lineBreak
      rw [source']
      exact rel_ite (agree _ _ later)

theorem literal {spelled : List Char} (plain : '\n' ∉ spelled) (solid : '\r' ∉ spelled) :
    Agree same characters ((Pattern.literal spelled).search · continuation)
      ((Pattern.literal spelled).search · onward) := by
  intro cursor other aligned
  show Option.Rel _ ((cursor.literal? spelled).bind continuation)
    ((other.literal? spelled).bind onward)
  induction spelled generalizing cursor other with
  | nil => exact agree cursor other aligned
  | cons expected spelled ih =>
    rw [Cursor.literal?, Cursor.literal?]
    cases source : cursor.rest with
    | nil =>
      rw [aligned.nil source]
      exact .none
    | cons character rest =>
      by_cases lineBreak : character = '\n'
      · subst lineBreak
        rw [(aligned.breakLine source).1]
        have one : '\n' ≠ expected := by
          rintro rfl
          exact plain List.mem_cons_self
        have two : '\r' ≠ expected := by
          rintro rfl
          exact solid List.mem_cons_self
        simp only [one, two, if_false]
        exact .none
      · obtain ⟨source', later⟩ := aligned.advance source lineBreak
        rw [source']
        show Option.Rel _ (Option.bind (if character = expected then _ else none) _)
          (Option.bind (if character = expected then _ else none) _)
        split
        · exact ih (List.not_mem_of_not_mem_cons plain) (List.not_mem_of_not_mem_cons solid) _ _
            later
        · exact .none

theorem wordEdge : Agree same characters (Pattern.wordEdge.search · continuation)
    (Pattern.wordEdge.search · onward) := by
  intro cursor other aligned
  have edge : other.atWordEdge = cursor.atWordEdge := by
    rw [Cursor.atWordEdge, Cursor.atWordEdge, aligned.previous]
    cases source : cursor.rest with
    | nil => rw [aligned.nil source]
    | cons character rest =>
      by_cases lineBreak : character = '\n'
      · subst lineBreak
        rw [(aligned.breakLine source).1]
        rfl
      · rw [(aligned.advance source lineBreak).1]
  show Option.Rel _ (if cursor.atWordEdge then _ else none) (if other.atWordEdge then _ else none)
  rw [edge]
  exact rel_ite (agree cursor other aligned)

theorem textEnd : Agree same characters (Pattern.textEnd.search · continuation)
    (Pattern.textEnd.search · onward) := by
  intro cursor other aligned
  have ended : other.rest.isEmpty = cursor.rest.isEmpty := by
    rw [aligned.rest, Bool.eq_iff_iff, List.isEmpty_iff, List.isEmpty_iff, crlf_eq_nil_iff]
  show Option.Rel _ (if cursor.rest.isEmpty then _ else none)
    (if other.rest.isEmpty then _ else none)
  rw [ended]
  exact rel_ite (agree cursor other aligned)

/-- A run that takes line breaks takes them whole. -/
theorem run {others : Char → Bool} (starts : accept '\r' = true) (breaks : accept '\n' = true)
    (starts' : others '\r' = true) (breaks' : others '\n' = true)
    (settled : Total onward ∨ Refusing onward) :
    Agree same characters ((Pattern.andThen (.one accept) (.most others)).search · continuation)
      ((Pattern.andThen (.one accept) (.most others)).search · onward) := by
  have most : Agree same characters ((Pattern.most others).search · continuation)
      ((Pattern.most others).search · onward) :=
    agree.most (by simp [starts']) fun _ => settled.imp_left fun total => ⟨breaks', total⟩
  intro cursor other aligned
  show Option.Rel _
    ((Pattern.one accept).search cursor fun next => (Pattern.most others).search next continuation)
    ((Pattern.one accept).search other fun next => (Pattern.most others).search next onward)
  rw [search, search]
  cases source : cursor.rest with
  | nil =>
    rw [aligned.nil source]
    exact .none
  | cons character rest =>
    by_cases lineBreak : character = '\n'
    · subst lineBreak
      obtain ⟨source', later⟩ := aligned.breakLine source
      have further := most _ _ later
      rw [source']
      show Option.Rel _ (if accept '\n' then _ else none) (if accept '\r' then _ else none)
      rw [if_pos breaks, if_pos starts]
      show Option.Rel _ _
        (List.findSome? onward (Cursor.furthestFirst others _ ('\n' :: crlf rest) []))
      rw [Cursor.furthestFirst_cons, if_pos breaks', List.findSome?_append,
        List.findSome?_singleton]
      rcases settled with total | refusing
      · rw [← Option.or_none (o := (Pattern.most others).search _ continuation)]
        exact rel_or_of_isSome further (total.isSome_furthestFirst _ _)
      · rw [refusing _ (crlf rest) rfl, Option.or_none]
        exact further
    · obtain ⟨source', later⟩ := aligned.advance source lineBreak
      rw [source']
      exact rel_ite (most _ _ later)

end Agree

end Pattern

end VerilogInterface
