import VerilogInterface.Proofs.AnsiHeads
import VerilogInterface.Proofs.Preference

/-! What the patterns of the grammar take where an interface is written. A name ends at the first
character that is no part of a word, and that is also where the keywords around it end. -/

namespace VerilogInterface.Ansi

open Pattern Verilog Text

variable {previous : Option Char} {rest : List Char}

theorem endsBlanks_identifier (identifier : Identifier) (rest : List Char) :
    Ends isBlank (identifier.text.toList ++ rest) := by
  obtain ⟨first, others, same, net⟩ := identifier.exists_cons
  rw [same]
  exact .cons (isBlank_of_netCharacter net) _

theorem prefers_space (ends : Ends isBlank rest) : blanks.Prefers previous [' '] rest [] :=
  .most (List.all_eq_true.1 (by decide)) ends

theorem prefers_no_blank (ends : Ends isBlank rest) : blanks.Prefers previous [] rest [] :=
  .most nofun ends

theorem prefers_blanks {gap : List Char} (space : gap = [] ∨ gap = [' ']) (ends : Ends isBlank rest) :
    blanks.Prefers previous gap rest [] := by
  rcases space with rfl | rfl
  · exact prefers_no_blank ends
  · exact prefers_space ends

theorem prefers_word (identifier : Identifier) (ends : Ends isWord rest) (index : Nat) :
    (Pattern.capture index word).Prefers previous identifier.text.toList rest
      [(index, identifier.text)] :=
  (Prefers.capture (.run identifier.nonempty (fun _ => identifier.isWord) ends)).cast rfl
    (by rw [String.ofList_toList]; rfl)

theorem prefers_gap (ends : Ends isBlank rest) :
    (Pattern.run isBlank).Prefers previous [' '] rest [] :=
  .run nofun (List.all_eq_true.1 (by decide)) ends

theorem moduleStart_prefers (identifier : Identifier) (ends : Ends isBlank rest) :
    moduleStart.Prefers previous ("module ".toList ++ identifier.text.toList ++ [' ']) rest
      [(0, identifier.text)] := by
  have name := endsBlanks_identifier identifier (' ' :: rest)
  have behind : Ends isWord (' ' :: rest) := .cons (by decide) rest
  exact .cast (.chain .literal (.chain (prefers_gap name) (.chain (prefers_word identifier behind 0)
    (prefers_space ends) rfl) (by simp)) rfl) (by simp) rfl

theorem prefers_wordEdge (inside : previous.any isWord = true) (ends : Ends isWord rest) :
    Pattern.wordEdge.Prefers previous [] rest [] := by
  refine .wordEdge ?_
  cases rest with
  | nil => simp [inside]
  | cons next rest => simp [inside, ends next rfl]

theorem moduleEnd_prefers (ends : Ends isWord rest) :
    moduleEnd.Prefers previous "endmodule".toList rest [] :=
  .chain .literal (prefers_wordEdge rfl ends) rfl

theorem takes_oneOf {texts : List String} {taken : List Char} {writes : Writes}
    (takes : (oneOf (texts.map exactly)).Takes previous taken rest writes) :
    taken ∈ texts.map String.toList := by
  induction texts with
  | nil =>
    cases takes with
    | one accepted => contradiction
  | cons text texts ih =>
    cases texts with
    | nil =>
      rw [takes.of_literal]
      exact List.mem_singleton_self _
    | cons next texts =>
      rcases Takes.of_orElse takes with here | later
      · rw [here.of_literal]
        exact List.mem_cons_self
      · exact List.mem_cons_of_mem _ (ih later)

/-- The pattern can match at a word edge only. -/
def NeedsEdge (pattern : Pattern) : Prop :=
  ∀ previous taken rest writes, pattern.Takes previous taken rest writes →
    previous.any isWord ≠ (taken ++ rest).head?.any isWord

theorem needsEdge_wordEdge : NeedsEdge .wordEdge := by
  intro previous taken rest writes takes
  cases takes with
  | wordEdge edge => exact edge

theorem needsEdge_andThen (second : Pattern) : NeedsEdge (.andThen .wordEdge second) := by
  intro previous _ rest writes takes
  obtain ⟨taken, more, _, _, rfl, _, edge, _⟩ := takes.of_andThen
  cases edge with
  | wordEdge edge => exact edge

def Spells (pattern : Pattern) (texts : List String) : Prop :=
  ∀ previous taken rest writes, pattern.Takes previous taken rest writes →
    taken ∈ texts.map String.toList

theorem spells_oneOf (texts : List String) (index : Nat) :
    Spells (.capture index (oneOf (texts.map exactly))) texts := by
  intro previous taken rest writes takes
  obtain ⟨_, _, inner⟩ := takes.of_capture
  exact takes_oneOf inner

theorem spells_exactly (text : String) : Spells (exactly text) [text] := by
  intro previous taken rest writes takes
  rw [takes.of_literal]
  exact List.mem_singleton_self _

/-- A name is none of the words that it is not equal to, however they begin. -/
theorem bars_words {texts : List String} {first second : Pattern} (spells : Spells first texts)
    (words : texts.all (fun text => !text.toList.isEmpty && text.toList.all isWord) = true)
    (edge : NeedsEdge second) (identifier : Identifier) (other : identifier.text ∉ texts)
    (ends : Ends isWord rest) :
    (Pattern.andThen first second).Bars (identifier.text.toList ++ rest) := by
  have listed : identifier.text.toList ∉ texts.map String.toList := by
    intro member
    obtain ⟨text, listed, same⟩ := List.mem_map.1 member
    rw [String.toList_inj] at same
    exact other (same ▸ listed)
  exact Bars.words spells (by simpa using words) edge (fun _ => identifier.isWord) ends listed

namespace Parameters

variable (parameters : Parameters)

def qualifierText : List Char := (parameters.qualifier.map (·.keyword.toList)).getD []

def spacing : List Char := if parameters.qualifier.isSome then [' '] else []

def rangeText : List Char :=
  (parameters.range.map fun range => '[' :: range.text.toList ++ [']']).getD []

/-- What the keyword of a parameter list takes: a space behind a range is left over. -/
def opening : List Char :=
  "parameter ".toList ++ (parameters.qualifierText ++ (parameters.spacing ++ parameters.rangeText))

def gap : List Char := if parameters.range.isSome then [' '] else []

theorem toList_head : parameters.head.toList = parameters.opening ++ parameters.gap := by
  unfold head opening gap qualifierText spacing rangeText
  cases parameters.qualifier <;> cases parameters.range <;> simp [bracketed]

def qualifierWrites : Writes :=
  parameters.qualifier.toList.map fun qualifier => (0, qualifier.keyword)

def rangeWrites : Writes := parameters.range.toList.map fun range => (1, bracketed range.text)

def writes : Writes := parameters.qualifierWrites ++ parameters.rangeWrites

end Parameters

theorem prefers_absent {body : Pattern} (bars : body.Bars rest) :
    (optional body).Prefers previous [] rest [] :=
  .latter bars .nothing

def qualifiers : List String := ["signed", "integer", "realtime", "real", "time"]

theorem prefers_qualifier (qualifier : Qualifier) (rest : List Char) :
    (oneOf (qualifiers.map exactly)).Prefers previous qualifier.keyword.toList (' ' :: rest) [] := by
  cases qualifier with
  | signed => exact .former .literal
  | integer => exact .latter (.literal rfl) (.former .literal)
  | realtime => exact .latter (.literal rfl) (.latter (.literal rfl) (.former .literal))
  | real =>
    exact .latter (.literal rfl) (.latter (.literal rfl) (.latter (.literal rfl)
      (.former .literal)))
  | time =>
    exact .latter (.literal rfl) (.latter (.literal rfl) (.latter (.literal rfl)
      (.latter (.literal rfl) .literal)))

def qualifierPart : Pattern :=
  Pattern.sequence [.capture 0 (oneOf (qualifiers.map exactly)), .wordEdge]

theorem prefers_qualifierPart (qualifier : Qualifier) (rest : List Char) :
    qualifierPart.Prefers previous qualifier.keyword.toList (' ' :: rest)
      [(0, qualifier.keyword)] := by
  have inside : (qualifier.keyword.toList.getLast?.or previous).any isWord = true := by
    cases qualifier <;> rfl
  have behind : Ends isWord (' ' :: rest) := .cons (by decide) rest
  exact .cast (.chain (.capture (prefers_qualifier qualifier rest))
    (prefers_wordEdge inside behind) rfl) (by simp) (by simp)

theorem qualifierPart_bars (identifier : Identifier) (ends : Ends isWord rest) :
    qualifierPart.Bars (identifier.text.toList ++ rest) := by
  refine bars_words (spells_oneOf _ _) (by decide) needsEdge_wordEdge identifier ?_ ends
  intro listed
  exact identifier.free (by revert listed; simp [qualifiers, reserved]; tauto)

theorem prefers_range (content : Run (allBut ']')) :
    (Pattern.capture 1 range).Prefers previous ('[' :: content.text.toList ++ [']']) rest
      [(1, bracketed content.text)] := by
  have closes : Ends (allBut ']') (']' :: rest) := .cons (by decide) _
  have brackets : range.Prefers previous ('[' :: content.text.toList ++ [']']) rest [] :=
    .cast (.chain .literal (.chain (.run content.some content.all closes) .literal rfl) rfl)
      (by simp) rfl
  refine (Prefers.capture brackets).cast rfl ?_
  have same : String.ofList ('[' :: content.text.toList ++ [']']) = bracketed content.text := by
    rw [← String.toList_inj]
    simp [bracketed]
  rw [same]
  rfl

theorem range_bars (identifier : Identifier) (rest : List Char) :
    (Pattern.capture 1 range).Bars (identifier.text.toList ++ rest) := by
  obtain ⟨first, others, same, net⟩ := identifier.exists_cons
  rw [same]
  refine .of_begins rfl ?_
  have other : first ≠ '[' := by
    rintro rfl
    exact absurd net (by decide)
  simp [range, symbol, Pattern.sequence, Pattern.begins, Pattern.nullable, other.symm]

namespace Parameters

variable (parameters : Parameters) {behind : List Char}

theorem qualifier_prefers (bars : qualifierPart.Bars behind) :
    (optional qualifierPart).Prefers previous parameters.qualifierText
      (parameters.spacing ++ behind) parameters.qualifierWrites := by
  unfold qualifierText spacing qualifierWrites
  cases parameters.qualifier with
  | none => exact prefers_absent bars
  | some qualifier => exact .former (prefers_qualifierPart qualifier behind)

theorem qualifierText_ends (ends : Ends isBlank behind) :
    Ends isBlank (parameters.qualifierText ++ (parameters.spacing ++ behind)) := by
  unfold qualifierText spacing
  cases parameters.qualifier with
  | none => exact ends
  | some qualifier =>
    intro next first
    cases qualifier <;> cases first <;> decide

theorem spacing_prefers (ends : Ends isBlank behind) :
    blanks.Prefers previous parameters.spacing behind [] := by
  refine prefers_blanks ?_ ends
  unfold spacing
  cases parameters.qualifier with
  | none => exact .inl rfl
  | some qualifier => exact .inr rfl

theorem range_prefers (name : Identifier) (rest : List Char) :
    (optional (.capture 1 Verilog.range)).Prefers previous parameters.rangeText
      (parameters.gap ++ (name.text.toList ++ rest)) parameters.rangeWrites := by
  unfold rangeText gap rangeWrites
  cases parameters.range with
  | none => exact prefers_absent (range_bars name rest)
  | some content => exact .former (prefers_range content)

theorem rangeText_ends (name : Identifier) (rest : List Char) :
    Ends isBlank (parameters.rangeText ++ (parameters.gap ++ (name.text.toList ++ rest))) := by
  unfold rangeText gap
  cases parameters.range with
  | none => exact endsBlanks_identifier name rest
  | some content => exact .cons (by decide) _

theorem rangeText_bars (name : Identifier) (ends : Ends isWord rest) :
    qualifierPart.Bars
      (parameters.rangeText ++ (parameters.gap ++ (name.text.toList ++ rest))) := by
  unfold rangeText gap
  cases parameters.range with
  | none => exact qualifierPart_bars name ends
  | some content => exact .of_begins rfl rfl

end Parameters

/-- The keyword of a parameter list takes everything up to the first name, except for a space
behind a range. -/
theorem parameterHead_prefers (parameters : Parameters) (rest : List Char) :
    parameterHead.Prefers previous parameters.opening
      (parameters.gap ++ (parameters.first.name.text.toList ++ ' ' :: rest))
      parameters.writes := by
  have edge : Ends isWord (' ' :: rest) := .cons (by decide) rest
  have ends := parameters.rangeText_ends parameters.first.name (' ' :: rest)
  have bars := parameters.rangeText_bars parameters.first.name edge
  have range (previous : Option Char) :=
    @Parameters.range_prefers previous parameters parameters.first.name (' ' :: rest)
  exact .cast (.chain .literal (.chain (prefers_wordEdge rfl (.cons (by decide) _))
    (.chain (prefers_space (parameters.qualifierText_ends ends))
      (.chain (parameters.qualifier_prefers bars)
        (.chain (parameters.spacing_prefers ends) (range _) rfl) (by simp)) (by simp)) rfl) rfl)
    rfl rfl

theorem parameterHead_bars (name : Identifier) (ends : Ends isWord rest) :
    parameterHead.Bars (name.text.toList ++ rest) := by
  have edge := needsEdge_andThen (Pattern.sequence [blanks, optional qualifierPart, blanks,
    optional (.capture 1 range)])
  have other : name.text ∉ ["parameter"] := fun listed => name.free (by simp_all [reserved])
  exact bars_words (spells_exactly _) (by decide) edge name other ends

def Marks (mark : Char) : Prop := mark = ',' ∨ mark = ')'

variable {mark : Char}

theorem Marks.ends {accept : Char → Bool} (marks : Marks mark) (comma : accept ',' = false)
    (parenthesis : accept ')' = false) (rest : List Char) : Ends accept (mark :: rest) := by
  rcases marks with rfl | rfl
  · exact .cons comma rest
  · exact .cons parenthesis rest

def piecesText (pieces : List (Run spaceOrTab × Run valueCharacter)) : List Char :=
  pieces.flatMap fun (gap, piece) => gap.text.toList ++ piece.text.toList

theorem not_valueCharacter_of_spaceOrTab {character : Char} (space : spaceOrTab character = true) :
    valueCharacter character = false := by
  simp only [spaceOrTab, Bool.or_eq_true, beq_iff_eq] at space
  rcases space with rfl | rfl <;> decide

theorem piece_ends (marks : Marks mark) (pieces : List (Run spaceOrTab × Run valueCharacter))
    (rest : List Char) :
    Ends valueCharacter (piecesText pieces ++ mark :: rest) := by
  intro next first
  cases pieces with
  | nil =>
    rcases marks with rfl | rfl <;> cases first <;> decide
  | cons pair pieces =>
    obtain ⟨gap, piece⟩ := pair
    obtain ⟨blank, others, same⟩ := List.exists_cons_of_ne_nil gap.some
    simp only [piecesText, List.flatMap_cons, same] at first
    cases first
    exact not_valueCharacter_of_spaceOrTab (gap.all next (by simp [same]))

theorem pieces_exhaust (marks : Marks mark) (pieces : List (Run spaceOrTab × Run valueCharacter))
    (rest : List Char) : ∀ previous,
    Exhausts (.andThen (.run spaceOrTab) valuePart) previous (piecesText pieces) (mark :: rest)
      [] := by
  induction pieces with
  | nil =>
    intro previous
    refine .stop (.of_begins rfl ?_)
    rcases marks with rfl | rfl <;> rfl
  | cons pair pieces ih =>
    intro previous
    obtain ⟨gap, piece⟩ := pair
    have begins :
        Ends spaceOrTab (piece.text.toList ++ (piecesText pieces ++ mark :: rest)) := by
      obtain ⟨begins, others, same⟩ := List.exists_cons_of_ne_nil piece.some
      rw [same]
      have inside := piece.all begins (by simp [same])
      refine .cons ?_ _
      by_contra space
      rw [not_valueCharacter_of_spaceOrTab (by simpa using space)] at inside
      contradiction
    have round : (Pattern.andThen (.run spaceOrTab) valuePart).Prefers previous
        (gap.text.toList ++ piece.text.toList) (piecesText pieces ++ mark :: rest) [] :=
      .chain (.run gap.some gap.all begins)
        (.run piece.some piece.all (piece_ends marks pieces rest)) rfl
    exact .round round (by simp [gap.some]) (ih _)

theorem value_prefers (marks : Marks mark) (value : Value) (rest : List Char) :
    (Pattern.orElse
      (Pattern.sequence [symbol '"', .most fun inner => inner != '"' && inner != '\n', symbol '"'])
      (.andThen valuePart (.rounds (.andThen (.run spaceOrTab) valuePart)))).Prefers previous
      value.text.toList (mark :: rest) [] := by
  cases value with
  | quoted content plain =>
    have inside : ∀ inner ∈ content.toList, (inner != '"' && inner != '\n') = true := by
      simpa using plain
    have ends : Ends (fun inner => inner != '"' && inner != '\n') ('"' :: mark :: rest) :=
      .cons (by decide) _
    exact .former (.cast (.chain .literal (.chain (.most inside ends) .literal rfl) rfl)
      (by simp [Value.text]) rfl)
  | pieces first unquoted others =>
    have text : (Value.pieces first unquoted others).text.toList =
        first.text.toList ++ piecesText others := by
      simp [Value.text, piecesText, String.toList_join, List.flatMap_map]
    obtain ⟨begins, more, same⟩ := List.exists_cons_of_ne_nil first.some
    have other : begins ≠ '"' := by
      rintro rfl
      exact unquoted (by rw [same]; rfl)
    rw [text]
    refine .latter ?_ ?_
    · rw [same]
      refine .of_begins rfl ?_
      simp [symbol, Pattern.sequence, Pattern.begins, Pattern.nullable, other.symm]
    · exact .chain (.run first.some first.all (piece_ends marks others rest))
        (pieces_exhaust marks others rest _).prefers rfl

theorem value_begins (value : Value) (rest : List Char) :
    Ends isBlank (value.text.toList ++ rest) := by
  cases value with
  | quoted content plain =>
    simp only [Value.text, String.toList_append]
    exact .cons (by decide) _
  | pieces first unquoted others =>
    obtain ⟨begins, more, same⟩ := List.exists_cons_of_ne_nil first.some
    have inside := first.all begins (by simp [same])
    simp only [Value.text, String.toList_append, same]
    simp only [valueCharacter, Bool.not_eq_true', Bool.or_eq_false_iff] at inside
    exact .cons inside.2 _

theorem endsBlanks_mark (marks : Marks mark) (rest : List Char) : Ends isBlank (mark :: rest) :=
  marks.ends (by decide) (by decide) rest

theorem parameterItem_prefers {gap : List Char} (space : gap = [] ∨ gap = [' '])
    (assignment : Assignment) (marks : Marks mark) (rest : List Char) :
    parameterItem.Prefers previous (gap ++ assignment.text.toList) (mark :: rest)
      [(0, assignment.name.text), (1, assignment.value.text)] := by
  have equals (rest : List Char) : Ends isBlank ('=' :: rest) := .cons (by decide) _
  have name := endsBlanks_identifier assignment.name
    (' ' :: '=' :: ' ' :: (assignment.value.text.toList ++ mark :: rest))
  have value := value_begins assignment.value (mark :: rest)
  have same : String.ofList assignment.value.text.toList = assignment.value.text := by simp
  exact .cast (.chain (prefers_blanks space name)
    (.chain (prefers_word assignment.name (.cons (by decide) _) 0)
      (.chain (prefers_space (equals _)) (.chain .literal (.chain (prefers_space value)
        (.chain (.capture (value_prefers marks assignment.value rest))
          (prefers_no_blank (endsBlanks_mark marks rest)) rfl) (by simp)) rfl) rfl) rfl) (by simp))
    (by simp [Assignment.text]) (by rw [same]; rfl)

def directions : List String := ["input", "inout", "output"]

theorem prefers_direction {direction : Direction} (outward : direction ≠ .into) (rest : List Char) :
    (oneOf (directions.map exactly)).Prefers previous direction.keyword.toList rest [] := by
  cases direction with
  | into => exact (outward rfl).elim
  | input => exact .former .literal
  | inout => exact .latter (.literal rfl) (.former .literal)
  | output => exact .latter (.literal rfl) (.latter (.literal rfl) .literal)

theorem portHead_prefers (ports : Ports) (ends : Ends continuesHead rest) :
    portHead.Prefers previous (ports.direction.keyword.toList ++ ' ' :: ports.head.toList) rest
      [(0, ports.direction.keyword), (1, " " ++ ports.head)] := by
  obtain ⟨first, others, same, kind⟩ := head_begins ports
  have inside := head_all ports
  have starts : (startsHead first || first == '`') = true := by
    rcases kind with net | rfl
    · simp only [netCharacter, startsHead, Bool.or_eq_true] at net ⊢
      tauto
    · decide
  have solid : spaceOrTab first = false := by
    by_contra space
    simp only [spaceOrTab, Bool.not_eq_false, Bool.or_eq_true, beq_iff_eq] at space
    rcases space with rfl | rfl <;> revert kind <;> decide
  have edge : (ports.direction.keyword.toList.getLast?.or previous).any isWord = true := by
    cases ports.direction <;> rfl
  have text : String.ofList (' ' :: ports.head.toList) = " " ++ ports.head := by
    rw [← String.toList_inj]
    simp
  have more := fun character member => inside character (same ▸ List.mem_cons_of_mem first member)
  rw [← text, same]
  have line (previous : Option Char) :
      (Pattern.sequence [.most spaceOrTab, .one fun inner => startsHead inner || inner == '`',
        .most continuesHead]).Prefers previous (' ' :: first :: others) rest [] := by
    have space : (Pattern.most spaceOrTab).Prefers previous [' '] (first :: (others ++ rest)) [] :=
      .most (List.all_eq_true.1 (by decide)) (.cons solid _)
    exact .chain space (.chain (.one starts) (.most more ends) rfl) rfl
  have behind : Ends isWord (' ' :: first :: (others ++ rest)) := .cons (by decide) _
  exact .cast (.chain (.capture (prefers_direction ports.outward _))
    (.chain (prefers_wordEdge edge behind) (.capture (.former (line _))) rfl) rfl)
    (by simp) (by simp)

/-- What closes an item of a port list: a comma, or nothing at the end of the list. -/
inductive Closes : List Char → List Char → Prop where
  | comma (rest : List Char) : Closes [','] rest
  | last (rest : List Char) : Closes [] (')' :: rest)

variable {closing : List Char}

theorem Closes.ends {accept : Char → Bool} (closes : Closes closing rest)
    (comma : accept ',' = false) (parenthesis : accept ')' = false) :
    Ends accept (closing ++ rest) := by
  cases closes with
  | comma => exact .cons comma rest
  | last behind => exact .cons parenthesis behind

theorem Closes.prefers (closes : Closes closing rest) :
    (Pattern.sequence [blanks, optional (symbol ',')]).Prefers previous closing rest [] := by
  cases closes with
  | comma =>
    exact .chain (prefers_no_blank (endsBlanks_mark (.inl rfl) rest)) (.former .literal) rfl
  | last rest =>
    exact .chain (prefers_no_blank (endsBlanks_mark (.inr rfl) rest))
      (prefers_absent (.literal rfl)) rfl

theorem portName_prefers (name : Identifier) (closes : Closes closing rest) :
    portName.Prefers previous (' ' :: name.text.toList ++ closing) rest [(0, name.text)] := by
  have edge : Ends isWord (closing ++ rest) := closes.ends (by decide) (by decide)
  exact .chain (prefers_space (endsBlanks_identifier name (closing ++ rest)))
    (.chain (prefers_word name edge 0) closes.prefers rfl) (by simp)

theorem portStart_prefers (ports : Ports) (closes : Closes closing rest) :
    (Pattern.sequence [blanks, portHead, blanks, optional (symbol ',')]).Prefers previous
      (' ' :: (ports.direction.keyword.toList ++ ' ' :: ports.head.toList) ++ closing) rest
      [(0, ports.direction.keyword), (1, " " ++ ports.head)] := by
  have keyword (rest : List Char) : Ends isBlank (ports.direction.keyword.toList ++ rest) := by
    intro next first
    cases direction : ports.direction <;> rw [direction] at first <;> cases first <;> decide
  have head := @portHead_prefers (some ' ') _ ports (closes.ends (by decide) (by decide))
  exact .chain (prefers_space (keyword (' ' :: ports.head.toList ++ (closing ++ rest))))
    (.chain head closes.prefers rfl) (by simp)

theorem portHead_bars (name : Identifier) (ends : Ends isWord rest) :
    portHead.Bars (name.text.toList ++ rest) := by
  refine bars_words (spells_oneOf directions 0) (by decide) (needsEdge_andThen _) name ?_ ends
  intro listed
  exact name.free (by revert listed; simp [directions, reserved]; tauto)

end VerilogInterface.Ansi
