import Mathlib.Data.List.Basic
import VerilogInterface.Proofs.PathOrder

/-! What paths lead through. The components of a path are its beginning and the steps behind it, and
continuing a path appends steps. So a path still begins like another when it is continued, and where
it leads follows from its components. -/

namespace VerilogInterface

theorem Text.pieces_ne_nil (separator : Char) (characters : List Char) :
    pieces separator characters ≠ [] := by
  unfold pieces
  split
  · exact List.cons_ne_nil _ _
  · split
    · exact List.cons_ne_nil _ _
    · split <;> exact List.cons_ne_nil _ _

namespace Path

variable {path other : Path} {names : List String}

/-- A text that stands for itself as a component of a path, as the name of an entry does. -/
def IsName (text : String) : Prop := inner? text = some (.name text)

instance (text : String) : Decidable (IsName text) := inferInstanceAs (Decidable (_ = _))

theorem inner?_cases (piece : String) :
    inner? piece = none ∧ (piece = "" ∨ piece = ".") ∨ inner? piece = some .parent ∨
      inner? piece = some (.name piece) := by
  unfold inner?
  split
  · exact .inl ⟨rfl, .inl rfl⟩
  · exact .inl ⟨rfl, .inr rfl⟩
  · exact .inr (.inl rfl)
  · exact .inr (.inr rfl)

theorem filterMap_names (named : ∀ name ∈ names, IsName name) :
    names.filterMap inner? = names.map .name := by
  induction names with
  | nil => rfl
  | cons name names ih =>
    have here : inner? name = some (.name name) := named name List.mem_cons_self
    rw [List.filterMap_cons_some here, ih fun name member => named name (.tail _ member),
      List.map_cons]

def lead (path : Path) : List Component :=
  if path.isAbsolute then [.root]
  else if path.pieces.head? = some "." then [.current]
  else []

def steps (path : Path) : List Component := path.pieces.filterMap inner?

theorem components_eq (path : Path) : path.components = path.lead ++ path.steps := by
  obtain ⟨pieces⟩ := path
  unfold components lead steps isAbsolute
  dsimp only
  split
  · rfl
  · rfl
  · next absolute dotted =>
    rw [if_neg, if_neg, List.nil_append]
    · intro head
      obtain ⟨rest, given⟩ := List.head?_eq_some_iff.1 head
      exact dotted rest given
    · split
      · next piece rest => exact absurd rfl (absolute piece rest)
      · exact Bool.false_ne_true

theorem isAbsolute_cons (first : String) (rest : List String) :
    isAbsolute ⟨first :: rest⟩ = true ↔ first = "" ∧ rest ≠ [] := by
  unfold isAbsolute
  constructor
  · intro absolute
    split at absolute
    · next piece rest given =>
      obtain ⟨rfl, rfl⟩ := List.cons.inj given
      exact ⟨rfl, List.cons_ne_nil _ _⟩
    · contradiction
  · rintro ⟨rfl, more⟩
    obtain ⟨second, rest, rfl⟩ := List.exists_cons_of_ne_nil more
    rfl

theorem isAbsolute_single (text : String) : isAbsolute ⟨[text]⟩ = false := by
  apply Bool.eq_false_iff.2
  intro absolute
  exact ((isAbsolute_cons text []).1 absolute).2 rfl

theorem lead_cons (first : String) (rest : List String) :
    lead ⟨first :: rest⟩ =
      if first = "" ∧ rest ≠ [] then [.root] else if first = "." then [.current] else [] := by
  simp only [lead, isAbsolute_cons, List.head?_cons, Option.some.injEq]

/-- Only a blank path has no components. -/
theorem pieces_of_components (none : path.components = []) :
    path.pieces = [] ∨ path.pieces = [""] := by
  obtain ⟨pieces⟩ := path
  rw [components_eq] at none
  obtain ⟨plain, still⟩ := List.append_eq_nil_iff.1 none
  cases pieces with
  | nil => exact .inl rfl
  | cons first rest =>
    have absent : inner? first = .none := List.filterMap_eq_nil_iff.1 still first List.mem_cons_self
    rw [lead_cons] at plain
    rcases inner?_cases first with ⟨_, rfl | rfl⟩ | kind | kind
    · by_cases more : rest = []
      · exact .inr (more ▸ rfl)
      · rw [if_pos ⟨rfl, more⟩] at plain
        contradiction
    · contradiction
    · rw [absent] at kind
      contradiction
    · rw [absent] at kind
      contradiction

theorem ofString_pieces_ne_nil (text : String) : (ofString text).pieces ≠ [] := by
  simpa only [ofString, ne_eq, List.map_eq_nil_iff] using Text.pieces_ne_nil '/' text.toList

/-- Only the empty text spells the empty path. -/
theorem ofString_pieces_ne_blank {text : String} (some : text ≠ "") :
    (ofString text).pieces ≠ [""] := by
  intro blank
  have pieces : (Text.pieces '/' text.toList).map String.ofList = [""] := blank
  cases characters : text.toList with
  | nil => exact some (String.toList_eq_nil_iff.1 characters)
  | cons first rest =>
    rw [characters, Text.pieces] at pieces
    split at pieces
    · have none := (List.cons.inj pieces).2
      exact Text.pieces_ne_nil '/' rest (List.map_eq_nil_iff.1 none)
    · split at pieces <;> exact absurd (List.cons.inj pieces).1 (by simp)

/-- A path is continued behind its pieces, or in place of an empty last one. -/
theorem join_cases (path : Path) (relative : other.isAbsolute = false) :
    ∃ kept, path.join other = ⟨kept ++ other.pieces⟩ ∧
      (path.pieces = kept ∨ path.pieces = kept ++ [""]) := by
  unfold join
  rw [if_neg (Bool.eq_false_iff.1 relative)]
  split
  · next final =>
    obtain ⟨kept, split⟩ := List.getLast?_eq_some_iff.1 final
    exact ⟨kept, by rw [split, List.dropLast_concat], .inr split⟩
  · exact ⟨path.pieces, rfl, .inl rfl⟩

/-- The continuation of a path without components stands for itself. -/
theorem join_of_components (none : path.components = []) (relative : other.isAbsolute = false) :
    path.join other = other := by
  obtain ⟨pieces⟩ := path
  unfold join
  rw [if_neg (Bool.eq_false_iff.1 relative)]
  rcases pieces_of_components none with rfl | rfl <;> rfl

theorem steps_join (path : Path) (relative : other.isAbsolute = false) :
    (path.join other).steps = path.steps ++ other.steps := by
  obtain ⟨kept, joined, whole | whole⟩ := join_cases path relative
  · simp only [steps, joined, whole, List.filterMap_append]
  · have blank : [""].filterMap inner? = [] := rfl
    simp only [steps, joined, whole, List.filterMap_append, blank, List.append_nil]

theorem lead_join (relative : other.isAbsolute = false) (spelled : other.pieces ≠ [])
    (started : path.components ≠ []) : (path.join other).lead = path.lead := by
  obtain ⟨pieces⟩ := path
  obtain ⟨kept, joined, whole⟩ := join_cases ⟨pieces⟩ relative
  cases kept with
  | nil => rcases whole with rfl | rfl <;> exact absurd rfl started
  | cons first rest =>
    have longer : rest ++ other.pieces ≠ [] := by
      intro none
      exact spelled (List.append_eq_nil_iff.1 none).2
    rw [joined, List.cons_append, lead_cons]
    rcases whole with rfl | rfl
    · have same : (first = "" ∧ rest ≠ []) ↔ first = "" := by
        refine ⟨And.left, fun empty => ⟨empty, ?_⟩⟩
        rintro rfl
        exact started (empty ▸ rfl)
      rw [lead_cons]
      simp only [longer, ne_eq, not_false_eq_true, and_true, same]
    · rw [List.cons_append, lead_cons]
      simp only [longer, ne_eq, not_false_eq_true, and_true, List.append_eq_nil_iff,
        List.cons_ne_self, and_false]

theorem components_join (relative : other.isAbsolute = false) (spelled : other.pieces ≠ [])
    (started : path.components ≠ []) :
    (path.join other).components = path.components ++ other.steps := by
  rw [components_eq, lead_join relative spelled started, steps_join path relative,
    components_eq path, List.append_assoc]

theorem isAbsolute_iff_lead : path.isAbsolute = true ↔ path.lead = [.root] := by
  unfold lead
  split
  · next absolute => simp only [absolute]
  · next relative =>
    split <;> simp [relative]

theorem isAbsolute_child (spelled : path.pieces ≠ [""]) (name : String) :
    (path.child name).isAbsolute = path.isAbsolute := by
  have relative := isAbsolute_single name
  by_cases started : path.components = []
  · obtain ⟨pieces⟩ := path
    obtain rfl : pieces = [] := (pieces_of_components started).resolve_right spelled
    rw [child, join_of_components started relative, relative]
    rfl
  · have lead := lead_join relative (List.cons_ne_nil name []) started
    rw [Bool.eq_iff_iff, isAbsolute_iff_lead, isAbsolute_iff_lead, child, lead]

theorem components_prefix_child (path : Path) (name : String) :
    path.components <+: (path.child name).components := by
  by_cases started : path.components = []
  · rw [started]
    exact List.nil_prefix
  · exact ⟨_, (components_join (isAbsolute_single name) (List.cons_ne_nil _ _) started).symm⟩

theorem components_name {name : String} (named : IsName name) :
    components ⟨[name]⟩ = [.name name] := by
  have steps : steps ⟨[name]⟩ = [.name name] := List.filterMap_cons_some named
  rw [components_eq, steps, lead_cons, if_neg, if_neg, List.nil_append]
  · rintro rfl
    contradiction
  · exact fun both => both.2 rfl

theorem components_child {name : String} (named : IsName name) (path : Path) :
    (path.child name).components = path.components ++ [.name name] := by
  have relative := isAbsolute_single name
  by_cases started : path.components = []
  · rw [started, List.nil_append, ← components_name named]
    exact congrArg components (join_of_components started relative)
  · have steps : steps ⟨[name]⟩ = [.name name] := List.filterMap_cons_some named
    rw [← steps]
    exact components_join relative (List.cons_ne_nil _ _) started

/-- Continues a path with the names of entries, outermost first. -/
def descend (path : Path) (names : List String) : Path := names.foldl child path

theorem components_descend (named : ∀ name ∈ names, IsName name) (path : Path) :
    (path.descend names).components = path.components ++ names.map .name := by
  induction names generalizing path with
  | nil => exact (List.append_nil _).symm
  | cons name names ih =>
    have here := components_child (named name List.mem_cons_self) path
    calc (path.descend (name :: names)).components
        = (path.child name).components ++ names.map Component.name :=
          ih (fun name member => named name (.tail _ member)) (path.child name)
      _ = path.components ++ (name :: names).map .name := by
          rw [here, List.append_assoc, List.singleton_append, List.map_cons]

theorem startsWith_iff {path beginning : Path} :
    path.startsWith beginning = true ↔ beginning.components <+: path.components :=
  List.isPrefixOf_iff_prefix

theorem startsWith_child {path beginning : Path} (starts : path.startsWith beginning = true)
    (name : String) : (path.child name).startsWith beginning = true :=
  startsWith_iff.2 ((startsWith_iff.1 starts).trans (components_prefix_child path name))

theorem startsWith_congr (same : path.same other = true) (beginning : Path) :
    path.startsWith beginning = other.startsWith beginning := by
  rw [startsWith, startsWith, same_iff.1 same]

theorem isVerilog_of_last (last : path.components.getLast? = other.components.getLast?) :
    path.isVerilog = other.isVerilog := by
  have names : path.fileName? = other.fileName? := by rw [fileName?, fileName?, last]
  rw [isVerilog, isVerilog, extension?, extension?, names]

def Component.enter (place : List String) : Component → List String
  | .root => []
  | .current => place
  | .parent => place.dropLast
  | .name text => place ++ [text]

theorem placeFrom_eq_steps (path : Path) (place : List String) :
    path.placeFrom place =
      path.steps.foldl Component.enter (if path.isAbsolute then [] else place) := by
  unfold placeFrom steps
  generalize (if path.isAbsolute then [] else place) = start, path.pieces = pieces
  induction pieces generalizing start with
  | nil => rfl
  | cons piece pieces ih =>
    rw [List.foldl_cons, ih]
    rcases inner?_cases piece with ⟨kind, _⟩ | kind | kind
    · rw [List.filterMap_cons_none kind, kind]
    · rw [List.filterMap_cons_some kind, kind]
      rfl
    · rw [List.filterMap_cons_some kind, kind]
      rfl

theorem placeFrom_eq (path : Path) (place : List String) :
    path.placeFrom place = path.components.foldl Component.enter place := by
  have start : path.lead.foldl Component.enter place = if path.isAbsolute then [] else place := by
    unfold lead
    split
    · rfl
    · split <;> rfl
  rw [placeFrom_eq_steps, components_eq, List.foldl_append, start]

theorem foldl_enter_names (place names : List String) :
    (names.map .name).foldl Component.enter place = place ++ names := by
  induction names generalizing place with
  | nil => exact (List.append_nil place).symm
  | cons name names ih =>
    rw [List.map_cons, List.foldl_cons, ih, Component.enter, List.append_assoc,
      List.singleton_append]

/-- Without a double dot every step is a name. -/
theorem exists_names (downwards : .parent ∉ path.components) :
    ∃ names : List String, path.steps = names.map .name := by
  have downwards : ∀ step ∈ path.steps, step ≠ .parent := by
    intro step member
    rintro rfl
    rw [components_eq] at downwards
    exact downwards (List.mem_append_right _ member)
  unfold steps at downwards ⊢
  generalize path.pieces = pieces at downwards
  induction pieces with
  | nil => exact ⟨[], rfl⟩
  | cons piece pieces ih =>
    rcases inner?_cases piece with ⟨kind, _⟩ | kind | kind
    · rw [List.filterMap_cons_none kind] at downwards ⊢
      exact ih downwards
    · rw [List.filterMap_cons_some kind] at downwards
      exact absurd rfl (downwards .parent List.mem_cons_self)
    · rw [List.filterMap_cons_some kind] at downwards ⊢
      obtain ⟨names, rest⟩ := ih fun step member => downwards step (.tail _ member)
      exact ⟨piece :: names, by rw [rest, List.map_cons]⟩

/-- The names that a path leads through on its own. -/
theorem steps_eq (relative : path.isAbsolute = false) (downwards : .parent ∉ path.components) :
    path.steps = (path.placeFrom []).map .name := by
  obtain ⟨names, steps⟩ := exists_names downwards
  rw [placeFrom_eq_steps, steps, relative, foldl_enter_names]
  rfl

theorem prefix_names_iff {front : List Component} {first second : List String} :
    front ++ first.map .name <+: front ++ second.map .name ↔ first <+: second := by
  rw [List.prefix_append_right_inj]
  constructor
  · rintro ⟨rest, whole⟩
    obtain ⟨before, after, rfl, same, _⟩ := List.map_eq_append_iff.1 whole.symm
    have names := (List.map_inj_right fun _ _ => Component.name.inj).1 same
    exact ⟨after, by rw [names]⟩
  · exact fun starts => starts.map Component.name

theorem placeFrom_congr (same : path.same other = true) (place : List String) :
    path.placeFrom place = other.placeFrom place := by
  rw [placeFrom_eq, placeFrom_eq, same_iff.1 same]

theorem lead_of_relative (relative : path.isAbsolute = false) :
    path.lead = [] ∨ path.lead = [.current] := by
  unfold lead
  rw [if_neg (Bool.eq_false_iff.1 relative)]
  split
  · exact .inr rfl
  · exact .inl rfl

/-- Paths with the same names at their ends are both sources or neither is. -/
theorem isVerilog_of_names {front behind : List Component} (more : names ≠ [])
    (components : path.components = front ++ names.map .name)
    (others : other.components = behind ++ names.map .name) : path.isVerilog = other.isVerilog := by
  have last (start : List Component) :
      (start ++ names.map Component.name).getLast? = (names.map Component.name).getLast? := by
    rw [List.getLast?_append]
    apply Option.or_of_isSome
    exact List.getLast?_isSome.2 fun none => more (List.map_eq_nil_iff.1 none)
  apply isVerilog_of_last
  rw [components, others, last, last]

/-- However relative paths begin, their components are a prefix only if their names are. -/
theorem names_prefix_of_relative {others : List String}
    (relative : path.isAbsolute = false) (alsoRelative : other.isAbsolute = false)
    (starts : path.lead ++ names.map .name <+: other.lead ++ others.map .name) :
    names <+: others := by
  rcases lead_of_relative relative with first | first <;>
    rcases lead_of_relative alsoRelative with second | second <;>
    rw [first, second] at starts
  · exact prefix_names_iff.1 starts
  · cases names with
    | nil => exact List.nil_prefix
    | cons name names => exact nomatch (List.cons_prefix_cons.1 starts).1
  · cases others with
    | nil => exact nomatch List.prefix_nil.1 starts
    | cons name names => exact nomatch (List.cons_prefix_cons.1 starts).1
  · exact prefix_names_iff.1 starts

theorem untilLast_concat {last : String} (named : IsName last) (names : List String) :
    untilLast (names ++ [last]) = names ++ [last] := by
  have kept : (inner? last).isNone = false := Option.isNone_eq_false_iff.2 (named ▸ rfl)
  rw [untilLast, List.reverse_concat, List.dropWhile_cons, kept, if_neg Bool.false_ne_true,
    List.reverse_cons, List.reverse_reverse]

theorem withoutLast?_concat {last : String} (named : IsName last) (names : List String) :
    withoutLast? (names ++ [last]) = some (untilLast names) := by
  rw [withoutLast?, untilLast_concat named, List.reverse_concat]
  exact congrArg (fun kept => some (untilLast kept)) (List.reverse_reverse names)

def through (names : List String) : Path := ⟨"" :: if names.isEmpty then [""] else names⟩

theorem isAbsolute_through (names : List String) : (through names).isAbsolute = true := by
  cases names <;> rfl

theorem steps_through (named : ∀ name ∈ names, IsName name) :
    (through names).steps = names.map .name := by
  cases names with
  | nil => rfl
  | cons first rest => exact filterMap_names named

theorem components_through (named : ∀ name ∈ names, IsName name) :
    (through names).components = .root :: names.map .name := by
  rw [components_eq, steps_through named, lead, if_pos (isAbsolute_through names)]
  rfl

theorem through_downwards (named : ∀ name ∈ names, IsName name) :
    .parent ∉ (through names).components := by
  rw [components_through named]
  simp

theorem placeFrom_through (named : ∀ name ∈ names, IsName name) (place : List String) :
    (through names).placeFrom place = names := by
  rw [placeFrom_eq_steps, steps_through named, isAbsolute_through, if_pos rfl, foldl_enter_names]
  exact List.nil_append names

theorem through_spelled (names : List String) : (through names).pieces ≠ [""] := by
  cases names <;> simp [through]

theorem child_through (named : ∀ name ∈ names, IsName name) (name : String) :
    (through names).child name = ⟨"" :: names ++ [name]⟩ := by
  unfold child join
  rw [if_neg (Bool.eq_false_iff.1 (isAbsolute_single name))]
  rcases List.eq_nil_or_concat' names with rfl | ⟨front, last, rfl⟩
  · rfl
  · have kept : IsName last := named last (List.mem_concat_self)
    have shown : through (front ++ [last]) = ⟨"" :: front ++ [last]⟩ := by
      simp [through]
    rw [shown, if_neg]
    · rfl
    · rw [List.getLast?_concat]
      rintro ⟨⟩
      contradiction

theorem parent?_child_through {name : String} (named : ∀ name ∈ names, IsName name)
    (last : IsName name) :
    ((through names).child name).parent? = some (through names) := by
  have parent : parent? ⟨"" :: names ++ [name]⟩ =
      (withoutLast? (names ++ [name])).map fun kept => ⟨"" :: if kept.isEmpty then [""] else kept⟩ := by
    cases names <;> rfl
  have kept : untilLast names = names := by
    rcases List.eq_nil_or_concat' names with rfl | ⟨front, final, rfl⟩
    · rfl
    · exact untilLast_concat (named final (List.mem_concat_self)) front
  rw [child_through named, parent, withoutLast?_concat last, kept]
  rfl

end Path

end VerilogInterface
