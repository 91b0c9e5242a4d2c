import VerilogInterface.Project.Sources
import VerilogInterface.Proofs.Locating
import VerilogInterface.Proofs.PathLists

/-! Which files are the sources of a project. The walk through the directories leaves out what begins
like an excluded path as soon as it meets it; this comes to the same as leaving it out at the end. So
the sources are the Verilog files below the directories that are not excluded, each once, in the order
of their paths, in whatever order the directories list their entries. -/

namespace VerilogInterface

namespace FileTree

variable {pruned : Path → Bool} {path start : Path} {tree other : FileTree}
  {entries : List (String × FileTree)} {names : List String}

theorem mem_sourcesAmong :
    path ∈ sourcesAmong pruned start entries ↔
      ∃ entry ∈ entries, pruned (start.child entry.1) = false ∧
        path ∈ entry.2.sources pruned (start.child entry.1) := by
  induction entries with
  | nil => simp [sourcesAmong]
  | cons first entries ih =>
    rw [sourcesAmong, List.mem_append, ih, List.exists_mem_cons_iff]
    apply or_congr _ Iff.rfl
    cases pruned (start.child first.1) <;> simp

/-- What stands below a pruned path is pruned. -/
def Grows (pruned : Path → Bool) : Prop :=
  ∀ path : Path, pruned path = true → ∀ name, pruned (path.child name) = true

theorem sourcesAmong_of_pruned (grows : Grows pruned) (here : pruned start = true)
    (entries : List (String × FileTree)) : sourcesAmong pruned start entries = [] := by
  apply List.eq_nil_iff_forall_not_mem.2
  intro path member
  obtain ⟨entry, _, kept, _⟩ := mem_sourcesAmong.1 member
  rw [grows start here] at kept
  contradiction

mutual
/-- Leaving out files at the end comes to the same as pruning what stands above them. -/
theorem filter_sources (grows : Grows pruned) (start : Path) :
    ∀ tree : FileTree, (tree.sources (fun _ => false) start).filter (fun path => !pruned path) =
      if pruned start then [] else tree.sources pruned start
  | .file bytes => by
    rw [sources, sources]
    cases kept : pruned start <;> cases start.isVerilog <;> simp [kept]
  | .directory entries => by
    rw [sources, sources, filter_sourcesAmong grows start entries]
    split
    · next here => exact sourcesAmong_of_pruned grows here entries
    · rfl

theorem filter_sourcesAmong (grows : Grows pruned) (start : Path) :
    ∀ entries : List (String × FileTree),
      (sourcesAmong (fun _ => false) start entries).filter (fun path => !pruned path) =
        sourcesAmong pruned start entries
  | [] => rfl
  | (name, tree) :: entries => by
    rw [sourcesAmong, sourcesAmong, if_neg Bool.false_ne_true, List.filter_append,
      filter_sources grows (start.child name) tree, filter_sourcesAmong grows start entries]
end

/-- Without pruning, the walk through a tree finds its Verilog files. -/
theorem Proper.mem_sources (proper : tree.Proper) :
    path ∈ tree.sources (fun _ => false) start ↔
      ∃ names bytes, tree.at? names = some (.file bytes) ∧ path = start.descend names ∧
        path.isVerilog = true := by
  induction proper generalizing start with
  | file bytes =>
    rw [sources]
    constructor
    · intro member
      split at member
      · next verilog =>
        obtain rfl := List.mem_singleton.1 member
        exact ⟨[], bytes, rfl, rfl, verilog⟩
      · contradiction
    · rintro ⟨names, found, there, rfl, verilog⟩
      cases names with
      | nil =>
        have found : (if start.isVerilog then [start] else []) = [start] := if_pos verilog
        rw [found]
        exact List.mem_singleton_self start
      | cons name names => contradiction
  | @directory entries distinct named proper ih =>
    rw [sources, mem_sourcesAmong]
    constructor
    · rintro ⟨⟨name, entry⟩, listed, -, member⟩
      obtain ⟨names, bytes, there, rfl, verilog⟩ := (ih _ listed).1 member
      refine ⟨name :: names, bytes, ?_, rfl, verilog⟩
      rw [FileTree.at?, FileTree.entries, lookup_of_mem distinct listed]
      exact there
    · rintro ⟨names, bytes, there, rfl, verilog⟩
      cases names with
      | nil => exact absurd rfl (ne_nil_of_file there)
      | cons name names =>
        obtain ⟨_, entry, same, listed, further⟩ := at?_cons there
        obtain rfl := FileTree.directory.inj same
        have member := mem_of_lookup listed
        exact ⟨_, member, rfl, (ih _ member).2 ⟨names, bytes, further, rfl, verilog⟩⟩

def content? : FileTree → Option ByteArray
  | file bytes => some bytes
  | directory _ => none

/-- Trees with the same directories and files, in whatever order directories list their entries. -/
def Alike (tree other : FileTree) : Prop :=
  ∀ names, (tree.at? names).map content? = (other.at? names).map content?

theorem Alike.symm (alike : tree.Alike other) : other.Alike tree := fun names => (alike names).symm

theorem Alike.exists_at {entry : FileTree} (alike : tree.Alike other)
    (there : tree.at? names = some entry) :
    ∃ found, other.at? names = some found ∧ found.content? = entry.content? := by
  have same := alike names
  rw [there] at same
  exact Option.map_eq_some_iff.1 same.symm

theorem Alike.file {bytes : ByteArray} (alike : tree.Alike other)
    (there : tree.at? names = some (.file bytes)) : other.at? names = some (.file bytes) := by
  obtain ⟨found, here, content⟩ := alike.exists_at there
  cases found with
  | file others => rw [here, Option.some.inj content]
  | directory entries => contradiction

theorem Alike.directory (alike : tree.Alike other)
    (there : tree.at? names = some (.directory entries)) :
    ∃ others, other.at? names = some (.directory others) := by
  obtain ⟨found, here, content⟩ := alike.exists_at there
  cases found with
  | file bytes => contradiction
  | directory others => exact ⟨others, here⟩

end FileTree

namespace Disk

variable {disk other : Disk} {path : Path}

theorem follow_alike {tree other : FileTree} (alike : tree.Alike other) (place : List String)
    (piece : String) : follow tree place piece = follow other place piece := by
  have same := alike place
  unfold follow
  cases here : tree.at? place with
  | none =>
    rw [here] at same
    rw [Option.map_eq_none_iff.1 same.symm]
  | some found =>
    cases found with
    | file bytes => rw [alike.file here]
    | directory entries =>
      obtain ⟨others, there⟩ := alike.directory here
      rw [there]
      have listed (name : String) : (entries.lookup name).isSome = (others.lookup name).isSome := by
        have next := congrArg Option.isSome (alike (place ++ [name]))
        rw [FileTree.at?_append, FileTree.at?_append, here, there] at next
        simpa only [Option.bind_some, FileTree.at?_single, Option.isSome_map] using next
      dsimp only
      split
      · rfl
      · rw [listed]
      · rfl

theorem locate_alike (alike : disk.tree.Alike other.tree) (working : disk.working = other.working)
    (path : Path) : disk.locate path = other.locate path := by
  have steps : follow disk.tree = follow other.tree :=
    funext fun place => funext fun piece => follow_alike alike place piece
  rw [locate, locate, steps, working]

end Disk

namespace Project

/-- Whether a path begins like one of the excluded paths of a project. -/
def excludes (root : Path) (excluded : List String) (path : Path) : Bool :=
  (excluded.map fun entry => root.join (.ofString entry)).any path.startsWith

theorem excludes_eq_false_iff {root path : Path} {excluded : List String} :
    excludes root excluded path = false ↔
      ∀ entry ∈ excluded, path.startsWith (root.join (.ofString entry)) = false := by
  simp [excludes]

theorem excludes_grows (root : Path) (excluded : List String) :
    FileTree.Grows (excludes root excluded) := by
  intro path here name
  obtain ⟨beginning, listed, starts⟩ := List.any_eq_true.1 here
  exact List.any_eq_true.2 ⟨beginning, listed, Path.startsWith_child starts name⟩

theorem excludes_congr {first second : Path} (same : first.same second = true) (root : Path)
    (excluded : List String) : excludes root excluded first = excludes root excluded second := by
  unfold excludes
  exact congrArg _ (funext fun beginning => Path.startsWith_congr same beginning)

/-- The Verilog files that the walk finds below a path, if it leads to a directory. -/
def below (disk : Disk) (pruned : Path → Bool) (start : Path) : List Path :=
  match disk.get? start with
  | some (.directory entries) => FileTree.sourcesAmong pruned start entries
  | _ => []

theorem sources_eq_sorted (disk : Disk) (root : Path) (directories excluded : List String) :
    sources disk root directories excluded =
      Path.sorted (directories.flatMap fun entry =>
        below disk (excludes root excluded) (root.join (.ofString entry))) := rfl

theorem filter_below {pruned : Path → Bool} (grows : FileTree.Grows pruned) (disk : Disk)
    (start : Path) :
    (below disk (fun _ => false) start).filter (fun path => !pruned path) =
      below disk pruned start := by
  unfold below
  split
  · exact FileTree.filter_sourcesAmong grows start _
  · rfl

/-- Pruning during the walk comes to the same as walking everything and filtering afterwards. -/
theorem sources_eq_filter (disk : Disk) (root : Path) (directories excluded : List String) :
    sources disk root directories excluded =
      (sources disk root directories []).filter fun path => !excludes root excluded path := by
  have respects {first second : Path} (same : first.same second = true) :
      (!excludes root excluded first) = !excludes root excluded second :=
    congrArg _ (excludes_congr same root excluded)
  have none : excludes root [] = fun _ => false := rfl
  have each (entry : String) := filter_below (excludes_grows root excluded) disk
    (root.join (.ofString entry))
  rw [sources_eq_sorted, sources_eq_sorted, Path.filter_sorted respects, List.filter_flatMap, none]
  simp only [each]

theorem mem_below {disk : Disk} (proper : disk.tree.Proper) {start path : Path} :
    path ∈ below disk (fun _ => false) start ↔
      ∃ entries names bytes, disk.get? start = some (.directory entries) ∧
        (FileTree.directory entries).at? names = some (.file bytes) ∧
        path = start.descend names ∧ path.isVerilog = true := by
  unfold below
  split
  · next entries here =>
    have inside : (FileTree.directory entries).Proper := proper.at? (Disk.get?_eq_some here).2
    have walk : path ∈ (FileTree.directory entries).sources (fun _ => false) start ↔ _ :=
      inside.mem_sources
    rw [FileTree.sources] at walk
    rw [walk]
    constructor
    · rintro ⟨names, bytes, there, spelled, verilog⟩
      exact ⟨entries, names, bytes, here, there, spelled, verilog⟩
    · rintro ⟨others, names, bytes, same, there, spelled, verilog⟩
      obtain rfl := FileTree.directory.inj (Option.some.inj (here.symm.trans same))
      exact ⟨names, bytes, there, spelled, verilog⟩
  · next other =>
    constructor
    · intro member
      contradiction
    · rintro ⟨entries, _, _, here, _⟩
      exact absurd here (other entries)

/-- A source of a project: a Verilog file that is reached by descending one or more entries from
one of the project's directories, and whose path does not begin like an excluded path. -/
structure Selected (disk : Disk) (root : Path) (directories excluded : List String)
    (path : Path) : Prop where
  reached : ∃ entry ∈ directories, ∃ entries names bytes,
    disk.get? (root.join (.ofString entry)) = some (.directory entries) ∧ names ≠ [] ∧
    (FileTree.directory entries).at? names = some (.file bytes) ∧
    ((root.join (.ofString entry)).descend names).same path = true
  verilog : path.isVerilog = true
  kept : ∀ entry ∈ excluded, path.startsWith (root.join (.ofString entry)) = false

variable {disk other : Disk} {root path : Path} {directories excluded : List String}

/-- A source is spelled as it is reached. -/
theorem mem_sources (proper : disk.tree.Proper)
    (member : path ∈ sources disk root directories excluded) :
    (∃ entry ∈ directories, ∃ entries names bytes,
      disk.get? (root.join (.ofString entry)) = some (.directory entries) ∧
      (FileTree.directory entries).at? names = some (.file bytes) ∧
      path = (root.join (.ofString entry)).descend names) ∧
    path.isVerilog = true ∧ excludes root excluded path = false := by
  rw [sources_eq_filter] at member
  obtain ⟨member, kept⟩ := List.mem_filter.1 member
  have walked := Path.mem_of_mem_sorted member
  obtain ⟨entry, listed, found⟩ := List.mem_flatMap.1 walked
  obtain ⟨entries, names, bytes, here, there, spelled, verilog⟩ := (mem_below proper).1 found
  exact ⟨⟨entry, listed, entries, names, bytes, here, there, spelled⟩, verilog,
    (Bool.not_eq_true' _).mp kept⟩

theorem exists_mem_sources (proper : disk.tree.Proper) :
    (∃ found ∈ sources disk root directories excluded, found.same path = true) ↔
      Selected disk root directories excluded path := by
  constructor
  · rintro ⟨found, member, same⟩
    obtain ⟨⟨entry, listed, entries, names, bytes, here, there, rfl⟩, verilog, kept⟩ :=
      mem_sources proper member
    have last := congrArg List.getLast? (Path.same_iff.1 same)
    refine ⟨⟨entry, listed, entries, names, bytes, here, FileTree.ne_nil_of_file there, there, same⟩,
      ?_, ?_⟩
    · rw [← Path.isVerilog_of_last last]
      exact verilog
    · rw [excludes_congr same] at kept
      exact excludes_eq_false_iff.1 kept
  · rintro ⟨⟨entry, listed, entries, names, bytes, here, _, there, same⟩, verilog, kept⟩
    have last := congrArg List.getLast? (Path.same_iff.1 same)
    have walked : (root.join (.ofString entry)).descend names ∈ directories.flatMap fun entry =>
        below disk (fun _ => false) (root.join (.ofString entry)) := by
      refine List.mem_flatMap.2 ⟨entry, listed, (mem_below proper).2 ?_⟩
      exact ⟨entries, names, bytes, here, there, rfl, (Path.isVerilog_of_last last).trans verilog⟩
    obtain ⟨found, member, spelled⟩ := Path.exists_mem_sorted walked
    have equal : found.same path = true :=
      Path.same_iff.2 ((Path.same_iff.1 spelled).trans (Path.same_iff.1 same))
    refine ⟨found, ?_, equal⟩
    rw [sources_eq_filter]
    refine List.mem_filter.2 ⟨member, (Bool.not_eq_true' _).mpr ?_⟩
    rw [excludes_congr equal]
    exact excludes_eq_false_iff.2 kept

/-- The order in which directories list their entries makes no difference. -/
theorem Selected.alike (alike : disk.tree.Alike other.tree) (working : disk.working = other.working)
    (selected : Selected disk root directories excluded path) :
    Selected other root directories excluded path := by
  obtain ⟨⟨entry, listed, entries, names, bytes, here, more, there, same⟩, verilog, kept⟩ := selected
  obtain ⟨located, found⟩ := Disk.get?_eq_some here
  obtain ⟨others, stands⟩ := alike.directory found
  refine ⟨⟨entry, listed, others, names, bytes, ?_, more, ?_, same⟩, verilog, kept⟩
  · rw [Disk.locate_alike alike working] at located
    exact (Disk.get?_of_locate located).trans stands
  · have file : disk.tree.at? ((root.join (.ofString entry)).placeFrom disk.working ++ names) =
        some (.file bytes) := FileTree.at?_further found there
    have same := alike.file file
    rwa [FileTree.at?_append, stands, Option.bind_some] at same

/-- Whatever is below this entry is already below other entries: if it leads to a directory, it
leads to one of theirs or below it. -/
def Covered (disk : Disk) (root : Path) (others : List String) (entry : String) : Prop :=
  ∀ entries, disk.get? (root.join (.ofString entry)) = some (.directory entries) →
    ∃ other ∈ others, ∃ names : List String,
      (∃ above, disk.get? (root.join (.ofString other)) = some (.directory above)) ∧
      (root.join (.ofString entry)).components =
        (root.join (.ofString other)).components ++ names.map .name

theorem Selected.covered (proper : disk.tree.Proper) {others : List String}
    (covered : ∀ entry ∈ directories, entry ∉ others → Covered disk root others entry)
    (selected : Selected disk root directories excluded path) :
    Selected disk root others excluded path := by
  obtain ⟨⟨entry, listed, entries, names, bytes, here, more, there, same⟩, verilog, kept⟩ := selected
  refine ⟨?_, verilog, kept⟩
  by_cases old : entry ∈ others
  · exact ⟨entry, old, entries, names, bytes, here, more, there, same⟩
  · obtain ⟨other, member, between, ⟨above, outer⟩, components⟩ := covered entry listed old entries here
    have place : (root.join (.ofString entry)).placeFrom disk.working =
        (root.join (.ofString other)).placeFrom disk.working ++ between := by
      rw [Path.placeFrom_eq, components, List.foldl_append, ← Path.placeFrom_eq,
        Path.foldl_enter_names]
    have file : (FileTree.directory above).at? (between ++ names) = some (.file bytes) := by
      have inside := (Disk.get?_eq_some here).2
      rw [place, FileTree.at?_append, (Disk.get?_eq_some outer).2, Option.bind_some] at inside
      exact FileTree.at?_further inside there
    have named := (proper.at? (Disk.get?_eq_some outer).2).named file
    refine ⟨other, member, above, between ++ names, bytes, outer, ?_, file, ?_⟩
    · intro none
      exact more (List.append_eq_nil_iff.1 none).2
    · have later : ∀ name ∈ names, Path.IsName name :=
        fun name member => named name (List.mem_append_right _ member)
      have equal := Path.same_iff.1 same
      rw [Path.components_descend later, components] at equal
      rw [Path.same_iff, Path.components_descend named, ← equal, List.map_append, List.append_assoc]

theorem Selected.mono {fewer more : List String} (subset : ∀ entry ∈ fewer, entry ∈ more)
    (selected : Selected disk root fewer excluded path) :
    Selected disk root more excluded path := by
  obtain ⟨⟨entry, listed, rest⟩, verilog, kept⟩ := selected
  exact ⟨⟨entry, subset entry listed, rest⟩, verilog, kept⟩

theorem isFile_of_mem_sources (proper : disk.tree.Proper)
    (member : path ∈ sources disk root directories excluded) : disk.isFile path = true := by
  obtain ⟨⟨entry, _, entries, names, bytes, here, there, rfl⟩, _⟩ := mem_sources proper member
  obtain ⟨located, found⟩ := Disk.get?_eq_some here
  have file : disk.tree.at? ((root.join (.ofString entry)).placeFrom disk.working ++ names) =
      some (.file bytes) := FileTree.at?_further found there
  have reached := Disk.locate_descend located file ((proper.at? found).named there)
  rw [Disk.isFile, Disk.get?_of_locate reached, file]

structure Discovers (disk : Disk) (root : Path) (directories excluded : List String) : Prop where
  ascending : Path.Ascending (sources disk root directories excluded)
  /-- A path is listed, in some spelling, exactly if it is a source. -/
  listed : ∀ path, (∃ found ∈ sources disk root directories excluded, found.same path = true) ↔
    Selected disk root directories excluded path
  files : ∀ path ∈ sources disk root directories excluded, disk.isFile path = true
  /-- Pruning during the walk comes to the same as filtering afterwards. -/
  filtered : sources disk root directories excluded =
    (sources disk root directories []).filter fun path =>
      excluded.all fun entry => !path.startsWith (root.join (.ofString entry))
  /-- It does not matter in what order directories list their entries. -/
  relisted : ∀ other : Disk, other.tree.Proper → disk.tree.Alike other.tree →
    disk.working = other.working →
    Path.SameList (sources disk root directories excluded) (sources other root directories excluded)
  /-- Repeated and overlapping directories add nothing. -/
  covered : ∀ others, others ⊆ directories →
    (∀ entry ∈ directories, entry ∉ others → Covered disk root others entry) →
    Path.SameList (sources disk root directories excluded) (sources disk root others excluded)

theorem sources_discover (proper : disk.tree.Proper) (root : Path)
    (directories excluded : List String) : Discovers disk root directories excluded where
  ascending := Path.sorted_ascending _
  listed _ := exists_mem_sources proper
  files _ member := isFile_of_mem_sources proper member
  filtered := by
    rw [sources_eq_filter]
    simp only [excludes, List.any_map, List.not_any_eq_all_not, Function.comp_def]
  relisted other alsoProper alike working := by
    apply (Path.sorted_ascending _).sameList (Path.sorted_ascending _)
    intro path
    refine (exists_mem_sources proper).trans (Iff.trans ?_ (exists_mem_sources alsoProper).symm)
    exact ⟨.alike alike working, .alike alike.symm working.symm⟩
  covered others fewer covered := by
    apply (Path.sorted_ascending _).sameList (Path.sorted_ascending _)
    intro path
    refine (exists_mem_sources proper).trans (Iff.trans ?_ (exists_mem_sources proper).symm)
    exact ⟨.covered proper covered, .mono fewer⟩

def layered : Disk := {
  tree := .directory [
    ("rtl", .directory [
      ("tb", .directory [("bench.v", .file .empty)]),
      ("top.V", .file .empty),
      ("core", .directory [("alu.vlog", .file .empty)]),
      ("notes.txt", .file .empty)])] }

theorem sources_discover_layered :
    layered.tree.Proper ∧
      Discovers layered (.ofString "/") ["rtl", "./rtl/core"] ["rtl/tb"] ∧
      sources layered (.ofString "/") ["rtl", "./rtl/core"] ["rtl/tb"] =
        ["/rtl/core/alu.vlog", "/rtl/top.V"].map Path.ofString := by
  have proper : layered.tree.Proper := by decide +kernel
  exact ⟨proper, sources_discover proper _ _ _, by decide +kernel⟩

end Project

end VerilogInterface
