import Mathlib.Data.List.TakeWhile
import VerilogInterface.Project.Root
import VerilogInterface.Proofs.Locating

/-! The search for a project. It walks from an absolute path towards the root by leaving out last
components, so it meets every path from the start upwards, the longer before the shorter. Where a
path leads does not depend on its spelling, so the first project file on the way is the nearest. -/

namespace VerilogInterface

namespace Path

variable {path : Path}

/-- Only pieces that are no components are left out. -/
theorem filterMap_untilLast (pieces : List String) :
    (untilLast pieces).filterMap inner? = pieces.filterMap inner? := by
  let silent := fun piece => (inner? piece).isNone
  have parts : pieces = untilLast pieces ++ (pieces.reverse.takeWhile silent).reverse := by
    rw [untilLast, ← List.reverse_append, List.takeWhile_append_dropWhile, List.reverse_reverse]
  have passed : (pieces.reverse.takeWhile silent).reverse.filterMap inner? = [] := by
    apply List.filterMap_eq_nil_iff.2
    intro piece member
    have none : silent piece = true := List.mem_takeWhile_imp (List.mem_reverse.1 member)
    exact Option.isNone_iff_eq_none.1 none
  conv_rhs => rw [parts, List.filterMap_append, passed, List.append_nil]

theorem withoutLast?_cases (pieces : List String) :
    withoutLast? pieces = none ∧ pieces.filterMap inner? = [] ∨
      ∃ kept last, withoutLast? pieces = some kept ∧
        pieces.filterMap inner? = kept.filterMap inner? ++ [last] := by
  rw [← filterMap_untilLast pieces]
  rcases List.eq_nil_or_concat' (untilLast pieces) with none | ⟨front, last, whole⟩
  · refine .inl ⟨?_, by rw [none]; rfl⟩
    rw [withoutLast?, none]
    rfl
  · have stops := List.head?_dropWhile_not (fun piece => (inner? piece).isNone) pieces.reverse
    have turned : pieces.reverse.dropWhile (fun piece => (inner? piece).isNone) =
        last :: front.reverse := by
      rw [← List.reverse_concat, ← whole, untilLast, List.reverse_reverse]
    rw [turned] at stops
    obtain ⟨component, kind⟩ : ∃ component, inner? last = some component := by
      apply Option.isSome_iff_exists.1
      simpa using stops
    refine .inr ⟨untilLast front, component, ?_, ?_⟩
    · rw [withoutLast?, whole, List.reverse_concat]
      exact congrArg (fun kept => some (untilLast kept)) (List.reverse_reverse front)
    · rw [whole, List.filterMap_append, filterMap_untilLast, List.filterMap_cons_some kind]
      rfl

theorem exists_pieces (absolute : path.isAbsolute = true) :
    ∃ piece rest, path = ⟨"" :: piece :: rest⟩ := by
  obtain ⟨pieces⟩ := path
  cases pieces with
  | nil => contradiction
  | cons first others =>
    obtain ⟨rfl, more⟩ := (isAbsolute_cons first others).1 absolute
    obtain ⟨piece, rest, rfl⟩ := List.exists_cons_of_ne_nil more
    exact ⟨piece, rest, rfl⟩

/-- The parent of an absolute path lacks its last component; only the root has no parent. -/
theorem parent?_cases (absolute : path.isAbsolute = true) :
    path.parent? = none ∧ path.components = [.root] ∨
      ∃ parent last, path.parent? = some parent ∧ parent.isAbsolute = true ∧
        path.components = parent.components ++ [last] := by
  obtain ⟨piece, rest, rfl⟩ := exists_pieces absolute
  rcases withoutLast?_cases (piece :: rest) with ⟨none, blank⟩ | ⟨kept, last, some, parted⟩
  · exact .inl ⟨congrArg (Option.map _) none, congrArg (Component.root :: ·) blank⟩
  · refine .inr ⟨⟨"" :: if kept.isEmpty then [""] else kept⟩, last,
      congrArg (Option.map _) some, ?_, ?_⟩
    · cases kept <;> rfl
    · have parent : components ⟨"" :: if kept.isEmpty then [""] else kept⟩ =
          .root :: kept.filterMap inner? := by
        cases kept <;> rfl
      rw [parent, List.cons_append, ← parted]
      rfl

end Path

namespace Project

variable {disk : Disk} {start root path other : Path} {bound : Nat}

/-- A path from the start upwards: its components begin those of the start. -/
structure Above (start path : Path) : Prop where
  absolute : path.isAbsolute = true
  starts : path.components <+: start.components

/-- The longest path from the start upwards with a project file. -/
structure Nearest (disk : Disk) (start root : Path) : Prop where
  above : Above start root
  stands : disk.exists? (file root) = true
  longest : ∀ other, Above start other → disk.exists? (file other) = true →
    other.components <+: root.components

def Projectless (disk : Disk) (start : Path) : Prop :=
  ∀ path, Above start path → disk.exists? (file path) = false

/-- A project file stands in the directory that the components of the path name. -/
theorem exists?_file (absolute : path.isAbsolute = true) (downwards : .parent ∉ path.components) :
    disk.exists? (file path) =
      (disk.tree.at? (path.placeFrom disk.working ++ [fileName])).isSome := by
  have spelled : path.pieces ≠ [""] := by
    obtain ⟨piece, rest, rfl⟩ := Path.exists_pieces absolute
    simp
  have place : (file path).placeFrom disk.working = path.placeFrom disk.working ++ [fileName] := by
    rw [Path.placeFrom_eq, Path.placeFrom_eq, file, Path.components_child (by decide),
      List.foldl_append]
    rfl
  have got : disk.get? (file path) = disk.tree.at? (path.placeFrom disk.working ++ [fileName]) := by
    cases there : disk.tree.at? (path.placeFrom disk.working ++ [fileName]) with
    | some tree =>
      obtain ⟨entries, inside, listed⟩ := FileTree.directory_of_at? there
      have located := (Disk.get?_eq_some ((Disk.get?_directory_iff spelled downwards).2 inside)).1
      rw [file, Disk.get?_of_locate (Disk.locate_child located inside listed (by decide)), there]
    | none =>
      apply Option.eq_none_iff_forall_ne_some.2
      intro tree got
      have found := (Disk.get?_eq_some got).2
      rw [place, there] at found
      contradiction
  rw [Disk.exists?, got]

theorem exists?_file_congr (absolute : path.isAbsolute = true)
    (alsoAbsolute : other.isAbsolute = true) (downwards : .parent ∉ path.components)
    (same : path.components = other.components) :
    disk.exists? (file path) = disk.exists? (file other) := by
  rw [exists?_file absolute downwards, exists?_file alsoAbsolute (same ▸ downwards),
    Path.placeFrom_congr (Path.same_iff.2 same)]

/-- The walk stays at the root, and goes on from the parent anywhere else. -/
theorem ancestors_cases (absolute : start.isAbsolute = true) :
    (∀ bound, ancestors bound start = [start]) ∧ start.components = [.root] ∨
      ∃ parent last, (∀ bound, ancestors (bound + 1) start = start :: ancestors bound parent) ∧
        parent.isAbsolute = true ∧ start.components = parent.components ++ [last] := by
  rcases Path.parent?_cases absolute with ⟨none, single⟩ | ⟨parent, last, some, higher, parted⟩
  · refine .inl ⟨fun bound => ?_, single⟩
    cases bound with
    | zero => rfl
    | succ bound => rw [ancestors, none]
  · exact .inr ⟨parent, last, fun bound => by rw [ancestors, some], higher, parted⟩

/-- The walk ends by itself: more steps than there are components change nothing. -/
theorem ancestors_of_le (absolute : start.isAbsolute = true)
    (enough : start.components.length ≤ bound) :
    ancestors bound start = ancestors start.components.length start := by
  induction bound generalizing start with
  | zero => rw [Nat.le_zero.1 enough]
  | succ bound ih =>
    rcases ancestors_cases absolute with ⟨stays, _⟩ | ⟨parent, last, onward, higher, parted⟩
    · rw [stays, stays]
    · have length : start.components.length = parent.components.length + 1 := by
        rw [parted, List.length_append, List.length_singleton]
      rw [length, onward, onward, ih higher (by omega)]

theorem above_of_mem_ancestors (absolute : start.isAbsolute = true)
    (member : path ∈ ancestors bound start) : Above start path := by
  have here : Above start start := ⟨absolute, List.prefix_refl _⟩
  induction bound generalizing start with
  | zero => exact List.mem_singleton.1 member ▸ here
  | succ bound ih =>
    rcases ancestors_cases absolute with ⟨stays, _⟩ | ⟨parent, last, onward, higher, parted⟩
    · rw [stays] at member
      exact List.mem_singleton.1 member ▸ here
    · rw [onward] at member
      rcases List.mem_cons.1 member with rfl | later
      · exact here
      · obtain ⟨absolute, starts⟩ := ih higher later ⟨higher, List.prefix_refl _⟩
        refine ⟨absolute, ?_⟩
        rw [parted]
        exact starts.trans (List.prefix_append _ _)

/-- The walk meets the longer paths first. -/
theorem pairwise_ancestors (absolute : start.isAbsolute = true) :
    (ancestors bound start).Pairwise fun earlier later =>
      later.components <+: earlier.components := by
  induction bound generalizing start with
  | zero => exact List.pairwise_singleton _ _
  | succ bound ih =>
    rcases ancestors_cases absolute with ⟨stays, _⟩ | ⟨parent, last, onward, higher, parted⟩
    · rw [stays]
      exact List.pairwise_singleton _ _
    · rw [onward]
      refine List.pairwise_cons.2 ⟨fun path later => ?_, ih higher⟩
      rw [parted]
      exact (above_of_mem_ancestors higher later).starts.trans (List.prefix_append _ _)

/-- With a step for each component the walk meets every path from the start upwards. -/
theorem exists_mem_ancestors (absolute : start.isAbsolute = true)
    (enough : start.components.length ≤ bound) (above : Above start path) :
    ∃ met ∈ ancestors bound start, met.components = path.components := by
  have started : path.components ≠ [] := by
    obtain ⟨piece, rest, rfl⟩ := Path.exists_pieces above.absolute
    exact List.cons_ne_nil _ _
  induction bound generalizing start with
  | zero =>
    have none : start.components = [] := List.eq_nil_of_length_eq_zero (Nat.le_zero.1 enough)
    exact absurd (List.prefix_nil.1 (none ▸ above.starts)) started
  | succ bound ih =>
    have starts := above.starts
    rcases ancestors_cases absolute with ⟨stays, root⟩ | ⟨parent, last, onward, higher, parted⟩
    · rw [← List.nil_append [Path.Component.root]] at root
      rw [root] at starts
      rcases List.prefix_concat_iff.1 starts with same | none
      · exact ⟨start, stays _ ▸ List.mem_cons_self, root.trans same.symm⟩
      · exact absurd (List.prefix_nil.1 none) started
    · rw [onward]
      rw [parted] at starts enough
      rcases List.prefix_concat_iff.1 starts with same | within
      · exact ⟨start, List.mem_cons_self, parted.trans same.symm⟩
      · rw [List.length_append, List.length_singleton] at enough
        obtain ⟨met, member, same⟩ :=
          ih higher (Nat.le_of_succ_le_succ enough) ⟨above.absolute, within⟩
        exact ⟨met, .tail _ member, same⟩

section

variable (absolute : start.isAbsolute = true) (downwards : .parent ∉ start.components)
include absolute downwards

/-- For every path from the start upwards the walk meets one that has a project file exactly if
that path has one. -/
theorem exists_met (disk : Disk) (above : Above start path) :
    ∃ met ∈ ancestors start.components.length start, met.components = path.components ∧
      disk.exists? (file met) = disk.exists? (file path) := by
  obtain ⟨met, member, same⟩ := exists_mem_ancestors absolute (Nat.le_refl _) above
  obtain ⟨metAbsolute, starts⟩ := above_of_mem_ancestors absolute member
  exact ⟨met, member, same, exists?_file_congr metAbsolute above.absolute
    (fun upwards => downwards (starts.subset upwards)) same⟩

theorem nearest_of_find (found : find disk start = .ok root) : Nearest disk start root := by
  unfold find at found
  split at found
  · next met first =>
    obtain rfl := Except.ok.inj found
    obtain ⟨stands, before, after, split, without⟩ := List.find?_eq_some_iff_append.1 first
    have member : met ∈ ancestors start.components.length start := List.mem_of_find?_eq_some first
    refine ⟨above_of_mem_ancestors absolute member, stands, fun other above stands => ?_⟩
    obtain ⟨same, listed, components, alike⟩ := exists_met absolute downwards disk above
    have descending := @pairwise_ancestors start start.components.length absolute
    rw [← components]
    rw [split] at listed descending
    rcases List.mem_append.1 listed with earlier | later
    · have none := without same earlier
      rw [alike, stands] at none
      contradiction
    · rcases List.mem_cons.1 later with rfl | later
      · exact List.prefix_refl _
      · exact (List.pairwise_cons.1 (List.pairwise_append.1 descending).2.1).1 same later
  · contradiction

theorem find_eq_error_iff {cause : ProjectError} :
    find disk start = .error cause ↔ cause = .notFound start ∧ Projectless disk start := by
  constructor
  · intro failed
    unfold find at failed
    split at failed
    · contradiction
    · next none =>
      refine ⟨(Except.error.inj failed).symm, fun path above => ?_⟩
      obtain ⟨met, member, _, alike⟩ := exists_met absolute downwards disk above
      rw [← alike]
      exact Bool.eq_false_iff.2 (List.find?_eq_none.1 none met member)
  · rintro ⟨rfl, projectless⟩
    cases found : find disk start with
    | ok root =>
      have nearest := nearest_of_find absolute downwards found
      have stands := nearest.stands
      rw [projectless root nearest.above] at stands
      contradiction
    | error cause =>
      unfold find at found
      split at found
      · contradiction
      · exact found.symm ▸ rfl

end

structure FindsNearest (disk : Disk) (start : Path) : Prop where
  /-- The walk ends by itself: more steps than there are components change nothing. -/
  ends : ∀ bound, start.components.length ≤ bound →
    ancestors bound start = ancestors start.components.length start
  fails : ∀ cause, find disk start = .error cause ↔ cause = .notFound start ∧ Projectless disk start
  finds : ∀ root, find disk start = .ok root → Nearest disk start root
  unloaded : disk.workingPath = start → Projectless disk start →
    load disk none = .error (.notFound start)
  loads : disk.workingPath = start → ∀ root, find disk start = .ok root →
    load disk none =
      ((Config.load disk (file root)).mapError .config).map fun config => (root, config)

theorem finds_nearest (disk : Disk) (absolute : start.isAbsolute = true)
    (downwards : .parent ∉ start.components) : FindsNearest disk start where
  ends _ := ancestors_of_le absolute
  fails _ := find_eq_error_iff absolute downwards
  finds _ := nearest_of_find absolute downwards
  unloaded here projectless := by
    have failed : find disk disk.workingPath = .error (.notFound start) := by
      rw [here]
      exact (find_eq_error_iff absolute downwards).2 ⟨rfl, projectless⟩
    rw [load, Project.root, failed]
    rfl
  loads here root found := by
    rw [← here] at found
    rw [load, Project.root, found]
    cases loaded : Config.load disk (file root) with
    | ok config => simp [loaded, bind, Except.bind, Except.map, Except.mapError]
    | error cause => simp [loaded, bind, Except.bind, Except.map, Except.mapError]

/-- A project of the given name in a directory of another project. -/
def nested (name : String) : Disk := {
  tree := .directory [("soc", .directory [
    ("vdoc.toml", .file "[project]\nname = \"soc\"\n".toUTF8),
    ("ip", .directory [
      ("vdoc.toml", .file ("[project]\nname = \"" ++ name ++ "\"\n").toUTF8),
      ("rtl", .directory [])])])]
  working := ["soc", "ip", "rtl"] }

/-- The inner project is loaded, or refused if its name is empty; the outer one is not asked. -/
theorem finds_nearest_nested :
    ((nested "ip").workingPath.isAbsolute = true ∧ .parent ∉ (nested "ip").workingPath.components ∧
      Nearest (nested "ip") (nested "ip").workingPath (.ofString "/soc/ip") ∧
      load (nested "ip") none = .ok (.ofString "/soc/ip", { name := "ip" })) ∧
    (nested "").workingPath.isAbsolute = true ∧ .parent ∉ (nested "").workingPath.components ∧
      Nearest (nested "") (nested "").workingPath (.ofString "/soc/ip") ∧
      load (nested "") none = .error (.config .unnamed) := by
  have absolute (name : String) : (nested name).workingPath.isAbsolute = true := rfl
  have downwards (name : String) : .parent ∉ (nested name).workingPath.components := by
    show .parent ∉ (nested "").workingPath.components
    decide
  have found : ∀ name ∈ ["ip", ""],
      find (nested name) (nested name).workingPath = .ok (.ofString "/soc/ip") := by decide +kernel
  constructor
  · have nearest := finds_nearest (nested "ip") (absolute "ip") (downwards "ip")
    have here := found "ip" (by simp)
    refine ⟨absolute _, downwards _, nearest.finds _ here, ?_⟩
    rw [nearest.loads rfl _ here]
    decide +kernel
  · have nearest := finds_nearest (nested "") (absolute "") (downwards "")
    have here := found "" (by simp)
    refine ⟨absolute _, downwards _, nearest.finds _ here, ?_⟩
    rw [nearest.loads rfl _ here]
    decide +kernel

end Project

end VerilogInterface
