import Mathlib.Data.List.Nodup
import VerilogInterface.Project.Root
import VerilogInterface.Proofs.Discovery

/-! The designations of the project in the working directory. Its root is the working directory's own
path if the project is found by walking up, or named by that path or by the path of its file; so all
these select the same files. The bare name of the file has an empty parent instead of a dot, and
entries behind an empty path keep their leading dots: an excluded entry then reaches only what is
spelled like it. -/

namespace VerilogInterface

namespace Config

theorem directories_of_load {disk : Disk} {path : Path} {config : Config}
    (loaded : load disk path = .ok config) : ∀ entry ∈ config.directories, entry ≠ "" := by
  have valid : ∃ read : Config, read.validate = .ok config := by
    unfold load parse at loaded
    split at loaded
    · contradiction
    · split at loaded
      · contradiction
      · split at loaded
        · contradiction
        · exact ⟨_, loaded⟩
  obtain ⟨read, valid⟩ := valid
  unfold validate at valid
  split at valid
  · contradiction
  · split at valid
    · contradiction
    · split at valid
      · contradiction
      · next none =>
        obtain rfl := Except.ok.inj valid
        intro entry member
        rintro rfl
        exact List.find?_eq_none.1 none "" member rfl

theorem file_of_load {disk : Disk} {path : Path} {config : Config}
    (loaded : load disk path = .ok config) : ∃ bytes, disk.get? path = some (.file bytes) := by
  unfold load at loaded
  split at loaded
  · contradiction
  · next text read =>
    obtain ⟨bytes, here, _⟩ := Disk.read_eq_ok read
    exact ⟨bytes, here⟩

end Config

namespace Project

def inside (entry : String) : List String := (Path.ofString entry).placeFrom []

/-- An entry that leads from the root into what is below it. -/
def LeadsDown (entry : String) : Prop :=
  (Path.ofString entry).isAbsolute = false ∧ .parent ∉ (Path.ofString entry).components

instance (entry : String) : Decidable (LeadsDown entry) := inferInstanceAs (Decidable (_ ∧ _))

/-- A project in the working directory all of whose entries lead down. -/
structure Here (disk : Disk) (config : Config) : Prop where
  proper : disk.tree.Proper
  directory : ∃ entries, disk.tree.at? disk.working = some (.directory entries)
  loaded : Config.load disk (file disk.workingPath) = .ok config
  directories : ∀ entry ∈ config.directories, LeadsDown entry
  excluded : ∀ entry ∈ config.excluded, LeadsDown entry

/-- The designated project is loaded, and its sources are found at these places, in this order. -/
def Selects (disk : Disk) (designation : Option Path) (places : List (List String)) : Prop :=
  ∃ root config, load disk designation = .ok (root, config) ∧
    (sources disk root config.directories config.excluded).map disk.locate = places.map .ok

theorem Selects.unique {disk : Disk} {designation : Option Path} {places others : List (List String)}
    (selects : Selects disk designation places) (again : Selects disk designation others) :
    places = others := by
  obtain ⟨root, config, loaded, located⟩ := selects
  obtain ⟨_, _, loadedAgain, locatedAgain⟩ := again
  cases loaded.symm.trans loadedAgain
  exact (List.map_inj_right fun _ _ => Except.ok.inj).1 (located.symm.trans locatedAgain)

def places (disk : Disk) (root : Path) (config : Config) : List (List String) :=
  (sources disk root config.directories config.excluded).map (·.placeFrom disk.working)

variable {disk : Disk} {root : Path} {config : Config} {designation : Option Path}
  {names : List String}

theorem locate_of_mem_sources (proper : disk.tree.Proper) {path : Path}
    {directories excluded : List String} (member : path ∈ sources disk root directories excluded) :
    disk.locate path = .ok (path.placeFrom disk.working) ∧
      ∃ bytes, disk.tree.at? (path.placeFrom disk.working) = some (.file bytes) := by
  obtain ⟨bytes, here⟩ := Disk.isFile_iff.1 (isFile_of_mem_sources proper member)
  obtain ⟨located, there⟩ := Disk.get?_eq_some here
  exact ⟨located, bytes, there⟩

theorem load_of_isFile {path : Path} (isFile : disk.isFile path = true)
    (loaded : Config.load disk path = .ok config) :
    load disk (some path) = .ok (path.parent?.getD (.ofString "."), config) := by
  simp [load, Project.root, isFile, loaded, bind, Except.bind]

theorem load_of_not_isFile {path : Path} (notFile : disk.isFile path = false)
    (loaded : Config.load disk (file path) = .ok config) :
    load disk (some path) = .ok (path, config) := by
  simp [load, Project.root, notFile, loaded, bind, Except.bind]

theorem load_of_find (found : find disk disk.workingPath = .ok root)
    (loaded : Config.load disk (file root) = .ok config) :
    load disk none = .ok (root, config) := by
  simp [load, Project.root, found, loaded, bind, Except.bind]

/-- The nearest project is the one where the search starts, if there is one. -/
theorem find_of_exists? {start : Path} (stands : disk.exists? (file start) = true) :
    find disk start = .ok start := by
  have first (bound : Nat) : ∃ above, ancestors bound start = start :: above := by
    unfold ancestors
    split
    · exact ⟨_, rfl⟩
    · split <;> exact ⟨_, rfl⟩
  obtain ⟨above, ancestors⟩ := first start.components.length
  rw [find, ancestors, List.find?_cons, stands]

theorem selects_of_load (proper : disk.tree.Proper)
    (loaded : load disk designation = .ok (root, config)) :
    Selects disk designation (places disk root config) := by
  refine ⟨root, config, loaded, ?_⟩
  rw [places, List.map_map]
  apply List.map_congr_left
  intro path member
  exact (locate_of_mem_sources proper member).1

theorem file_of_mem_places (proper : disk.tree.Proper) {place : List String}
    (member : place ∈ places disk root config) :
    ∃ bytes, disk.tree.at? place = some (.file bytes) := by
  obtain ⟨path, listed, rfl⟩ := List.mem_map.1 member
  exact (locate_of_mem_sources proper listed).2

namespace Here

variable (here : Here disk config)
include here

theorem named : ∀ name ∈ disk.working, Path.IsName name := by
  obtain ⟨entries, there⟩ := here.directory
  exact here.proper.named there

theorem workingPath_directory :
    ∃ entries, disk.get? disk.workingPath = some (.directory entries) := by
  obtain ⟨entries, there⟩ := here.directory
  have spelled := Path.through_spelled disk.working
  have downwards := Path.through_downwards here.named
  refine ⟨entries, (Disk.get?_directory_iff spelled downwards).2 ?_⟩
  rw [Path.placeFrom_through here.named]
  exact there

theorem locate_file : disk.locate (file disk.workingPath) = .ok (disk.working ++ [fileName]) ∧
    ∃ bytes, disk.tree.at? (disk.working ++ [fileName]) = some (.file bytes) := by
  obtain ⟨bytes, got⟩ := Config.file_of_load here.loaded
  obtain ⟨located, there⟩ := Disk.get?_eq_some got
  have place : (file disk.workingPath).placeFrom disk.working = disk.working ++ [fileName] := by
    have before := Path.placeFrom_through here.named disk.working
    rw [Path.placeFrom_eq] at before
    rw [Path.placeFrom_eq, file, Path.components_child (by decide), List.foldl_append]
    exact congrArg (· ++ [fileName]) before
  rw [place] at located there
  exact ⟨located, bytes, there⟩

/-- The bare name of the file leads to it from the working directory. -/
theorem locate_fileName : disk.locate (.ofString fileName) = disk.locate (file disk.workingPath) := by
  obtain ⟨located, bytes, there⟩ := here.locate_file
  obtain ⟨entries, inside, listed⟩ := FileTree.directory_of_at? there
  have first := Disk.follow_name inside listed (by decide)
  have bare : Path.ofString fileName = ⟨[fileName]⟩ := by decide
  rw [located, bare, ← first, Disk.locate, if_neg (by decide), List.foldlM_cons]
  exact bind_pure _

theorem load_fileName : load disk (some (.ofString fileName)) = .ok (⟨[""]⟩, config) := by
  obtain ⟨located, bytes, there⟩ := here.locate_file
  have same := here.locate_fileName
  have isFile : disk.isFile (.ofString fileName) = true :=
    Disk.isFile_iff.2 ⟨bytes, (Disk.get?_of_locate (same.trans located)).trans there⟩
  have loaded : Config.load disk (.ofString fileName) = .ok config := by
    rw [Config.load, Disk.read_congr same]
    exact here.loaded
  have parent : (Path.ofString fileName).parent? = some ⟨[""]⟩ := by decide
  rw [load_of_isFile isFile loaded, parent]
  rfl

theorem load_file :
    load disk (some (file disk.workingPath)) = .ok (disk.workingPath, config) := by
  have isFile := Disk.isFile_iff.2 (Config.file_of_load here.loaded)
  have parent : (file disk.workingPath).parent? = some disk.workingPath :=
    Path.parent?_child_through here.named (by decide)
  rw [load_of_isFile isFile here.loaded, parent]
  rfl

theorem load_workingPath : load disk (some disk.workingPath) = .ok (disk.workingPath, config) := by
  have isFile : disk.isFile disk.workingPath = false := by
    obtain ⟨entries, there⟩ := here.workingPath_directory
    rw [Disk.isFile, there]
  exact load_of_not_isFile isFile here.loaded

theorem load_none : load disk none = .ok (disk.workingPath, config) := by
  have stands : disk.exists? (file disk.workingPath) = true := by
    obtain ⟨bytes, got⟩ := Config.file_of_load here.loaded
    rw [Disk.exists?, got]
    rfl
  exact load_of_find (find_of_exists? stands) here.loaded

end Here

structure Chosen (disk : Disk) (config : Config) (names : List String) : Prop where
  reached : ∃ entry ∈ config.directories, inside entry <+: names ∧
    ∃ entries, disk.tree.at? (disk.working ++ inside entry) = some (.directory entries)
  file : ∃ bytes, disk.tree.at? (disk.working ++ names) = some (.file bytes)
  verilog : (disk.workingPath.descend names).isVerilog = true
  kept : ∀ entry ∈ config.excluded, ¬inside entry <+: names

/-- A root that puts something in front of the names of every entry without leading elsewhere. -/
structure Frames (disk : Disk) (root : Path) (config : Config)
    (front : String → List Path.Component) : Prop where
  spelled : ∀ entry ∈ config.directories, (root.join (.ofString entry)).pieces ≠ [""]
  components : ∀ entry ∈ config.directories,
    (root.join (.ofString entry)).components = front entry ++ (inside entry).map .name
  stays : ∀ entry ∈ config.directories,
    (front entry).foldl Path.Component.enter disk.working = disk.working
  downwards : ∀ entry ∈ config.directories, .parent ∉ front entry

def Prunes (root : Path) (config : Config) (front : String → List Path.Component) : Prop :=
  ∀ entry ∈ config.directories, ∀ other ∈ config.excluded, ∀ names : List String,
    inside other <+: names →
      (root.join (.ofString other)).components <+: front entry ++ names.map .name

def PrunesOnly (root : Path) (config : Config) (front : String → List Path.Component) : Prop :=
  ∀ entry ∈ config.directories, ∀ other ∈ config.excluded, ∀ names : List String,
    (root.join (.ofString other)).components <+: front entry ++ names.map .name →
      inside other <+: names

namespace Frames

variable {front : String → List Path.Component} (frames : Frames disk root config front)
include frames

theorem placeFrom {path : Path} {entry : String} (listed : entry ∈ config.directories)
    (components : path.components = front entry ++ names.map .name) :
    path.placeFrom disk.working = disk.working ++ names := by
  rw [Path.placeFrom_eq, components, List.foldl_append, frames.stays entry listed,
    Path.foldl_enter_names]

theorem get?_directory_iff {entry : String} (listed : entry ∈ config.directories)
    {entries : List (String × FileTree)} :
    disk.get? (root.join (.ofString entry)) = some (.directory entries) ↔
      disk.tree.at? (disk.working ++ inside entry) = some (.directory entries) := by
  have components := frames.components entry listed
  have place := frames.placeFrom listed components
  rw [← place]
  apply Disk.get?_directory_iff (frames.spelled entry listed)
  intro upwards
  rw [components] at upwards
  rcases List.mem_append.1 upwards with before | behind
  · exact frames.downwards entry listed before
  · simp at behind

/-- A file below one of the directories, and its path behind the root. -/
theorem descended (proper : disk.tree.Proper) {entry : String} (listed : entry ∈ config.directories)
    {entries : List (String × FileTree)} {further : List String} {bytes : ByteArray}
    (inner : disk.tree.at? (disk.working ++ inside entry) = some (.directory entries))
    (there : (FileTree.directory entries).at? further = some (.file bytes)) :
    disk.tree.at? (disk.working ++ (inside entry ++ further)) = some (.file bytes) ∧
      ((root.join (.ofString entry)).descend further).components =
        front entry ++ (inside entry ++ further).map .name ∧
      ((root.join (.ofString entry)).descend further).isVerilog =
        (disk.workingPath.descend (inside entry ++ further)).isVerilog := by
  have file : disk.tree.at? (disk.working ++ (inside entry ++ further)) = some (.file bytes) := by
    rw [← List.append_assoc]
    exact FileTree.at?_further inner there
  have named : ∀ name ∈ inside entry ++ further, Path.IsName name :=
    fun name member => proper.named file name (List.mem_append_right _ member)
  have later : ∀ name ∈ further, Path.IsName name :=
    fun name member => named name (List.mem_append_right _ member)
  have components : ((root.join (.ofString entry)).descend further).components =
      front entry ++ (inside entry ++ further).map .name := by
    rw [Path.components_descend later, frames.components entry listed, List.append_assoc,
      List.map_append]
  have more : inside entry ++ further ≠ [] := by
    intro none
    exact FileTree.ne_nil_of_file there (List.append_eq_nil_iff.1 none).2
  exact ⟨file, components,
    Path.isVerilog_of_names more components (Path.components_descend named disk.workingPath)⟩

theorem chosen_of_mem (proper : disk.tree.Proper) (prunes : Prunes root config front) {path : Path}
    (member : path ∈ sources disk root config.directories config.excluded) :
    ∃ entry ∈ config.directories, ∃ names, path.components = front entry ++ names.map .name ∧
      Chosen disk config names := by
  obtain ⟨⟨entry, listed, entries, further, bytes, start, there, rfl⟩, verilog, kept⟩ :=
    mem_sources proper member
  have inner := (frames.get?_directory_iff listed).1 start
  obtain ⟨file, components, alike⟩ := frames.descended proper listed inner there
  refine ⟨entry, listed, inside entry ++ further, components,
    ⟨entry, listed, List.prefix_append _ _, entries, inner⟩, ⟨bytes, file⟩, ?_, ?_⟩
  · rw [← alike]
    exact verilog
  · intro other out starts
    have pruned := prunes entry listed other out _ starts
    rw [← components, ← Path.startsWith_iff, excludes_eq_false_iff.1 kept other out] at pruned
    contradiction

theorem mem_of_chosen (proper : disk.tree.Proper) (only : PrunesOnly root config front)
    (chosen : Chosen disk config names) : disk.working ++ names ∈ places disk root config := by
  obtain ⟨⟨entry, listed, ⟨further, rfl⟩, entries, inner⟩, ⟨bytes, file⟩, verilog, kept⟩ := chosen
  have there : (FileTree.directory entries).at? further = some (.file bytes) := by
    rw [← List.append_assoc, FileTree.at?_append, inner] at file
    exact file
  obtain ⟨_, components, alike⟩ := frames.descended proper listed inner there
  have selected : Selected disk root config.directories config.excluded
      ((root.join (.ofString entry)).descend further) := by
    refine ⟨⟨entry, listed, entries, further, bytes, ?_, FileTree.ne_nil_of_file there, there,
      Path.same_refl _⟩, ?_, ?_⟩
    · exact (frames.get?_directory_iff listed).2 inner
    · rw [alike]
      exact verilog
    · intro other out
      apply Bool.eq_false_iff.2
      intro starts
      rw [Path.startsWith_iff, components] at starts
      exact kept other out (only entry listed other out _ starts)
  obtain ⟨found, member, same⟩ := (exists_mem_sources proper).2 selected
  refine List.mem_map.2 ⟨found, member, ?_⟩
  exact frames.placeFrom listed ((Path.same_iff.1 same).trans components)

theorem exists_chosen (proper : disk.tree.Proper) (prunes : Prunes root config front)
    {place : List String} (member : place ∈ places disk root config) :
    ∃ names, place = disk.working ++ names ∧ Chosen disk config names := by
  obtain ⟨path, found, rfl⟩ := List.mem_map.1 member
  obtain ⟨entry, listed, names, components, chosen⟩ := frames.chosen_of_mem proper prunes found
  exact ⟨names, frames.placeFrom listed components, chosen⟩

/-- With one beginning for all entries, different paths lead to different places. -/
theorem nodup (proper : disk.tree.Proper) (prunes : Prunes root config front)
    {common : List Path.Component} (single : ∀ entry ∈ config.directories, front entry = common) :
    (places disk root config).Nodup := by
  -- The components of a source can be told from its place.
  apply List.Nodup.of_map fun place =>
    common ++ (place.drop disk.working.length).map Path.Component.name
  have spelled : (places disk root config).map (fun place =>
      common ++ (place.drop disk.working.length).map Path.Component.name) =
      (sources disk root config.directories config.excluded).map Path.components := by
    rw [places, List.map_map]
    apply List.map_congr_left
    intro path member
    obtain ⟨entry, listed, names, components, _⟩ := frames.chosen_of_mem proper prunes member
    have place := frames.placeFrom listed components
    rw [Function.comp_apply, place, List.drop_left, components, single entry listed]
  rw [spelled]
  exact (Path.sorted_ascending _).nodup

end Frames

theorem inside_steps {entry : String} (down : LeadsDown entry) :
    (Path.ofString entry).steps = (inside entry).map .name := Path.steps_eq down.1 down.2

section workingPath

variable (here : Here disk config)
include here

theorem components_behind_workingPath {entry : String} (down : LeadsDown entry) :
    (disk.workingPath.join (.ofString entry)).components =
      disk.workingPath.components ++ (inside entry).map .name := by
  have started : disk.workingPath.components ≠ [] := by
    intro none
    exact nomatch (Path.components_through here.named).symm.trans none
  rw [Path.components_join down.1 (Path.ofString_pieces_ne_nil entry) started, inside_steps down]

/-- Behind the path of the working directory all entries begin alike. -/
theorem frames_workingPath :
    Frames disk disk.workingPath config fun _ => disk.workingPath.components where
  spelled entry listed blank := by
    have none : (disk.workingPath.join (.ofString entry)).components = [] := by
      rw [Path.components, blank]
      rfl
    rw [components_behind_workingPath here (here.directories entry listed)] at none
    exact nomatch (Path.components_through here.named).symm.trans (List.append_eq_nil_iff.1 none).1
  components entry listed := components_behind_workingPath here (here.directories entry listed)
  stays _ _ := by
    rw [← Path.placeFrom_eq]
    exact Path.placeFrom_through here.named disk.working
  downwards _ _ := Path.through_downwards here.named

theorem prunes_workingPath : Prunes disk.workingPath config fun _ => disk.workingPath.components := by
  intro entry _ other out names starts
  rw [components_behind_workingPath here (here.excluded other out)]
  exact Path.prefix_names_iff.2 starts

theorem prunesOnly_workingPath :
    PrunesOnly disk.workingPath config fun _ => disk.workingPath.components := by
  intro entry _ other out names starts
  rw [components_behind_workingPath here (here.excluded other out)] at starts
  exact Path.prefix_names_iff.1 starts

end workingPath

section emptyPath

def lead (entry : String) : List Path.Component := (Path.ofString entry).lead

theorem join_emptyPath {entry : String} (down : LeadsDown entry) :
    (⟨[""]⟩ : Path).join (.ofString entry) = .ofString entry :=
  Path.join_of_components rfl down.1

theorem components_behind_emptyPath {entry : String} (down : LeadsDown entry) :
    ((⟨[""]⟩ : Path).join (.ofString entry)).components =
      lead entry ++ (inside entry).map .name := by
  rw [join_emptyPath down, Path.components_eq, inside_steps down, lead]

variable (here : Here disk config)
include here

/-- Behind the empty path every entry keeps its own beginning. -/
theorem frames_emptyPath : Frames disk ⟨[""]⟩ config lead where
  spelled entry listed := by
    rw [join_emptyPath (here.directories entry listed)]
    exact Path.ofString_pieces_ne_blank (Config.directories_of_load here.loaded entry listed)
  components entry listed := components_behind_emptyPath (here.directories entry listed)
  stays entry listed := by
    rcases Path.lead_of_relative (here.directories entry listed).1 with start | start <;>
      rw [lead, start] <;> rfl
  downwards entry listed upwards := by
    rcases Path.lead_of_relative (here.directories entry listed).1 with start | start <;>
      rw [lead, start] at upwards <;> simp at upwards

theorem prunesOnly_emptyPath : PrunesOnly ⟨[""]⟩ config lead := by
  intro entry listed other out names starts
  rw [components_behind_emptyPath (here.excluded other out)] at starts
  exact Path.names_prefix_of_relative (here.excluded other out).1 (here.directories entry listed).1
    starts

theorem prunes_emptyPath {common : List Path.Component}
    (alike : ∀ entry ∈ config.directories ++ config.excluded, entry ≠ "" → lead entry = common) :
    Prunes ⟨[""]⟩ config lead := by
  intro entry listed other out names starts
  rw [components_behind_emptyPath (here.excluded other out)]
  -- An empty entry begins every path, whatever its own beginning.
  by_cases blank : other = ""
  · obtain rfl := blank
    exact List.nil_prefix
  · have some := Config.directories_of_load here.loaded entry listed
    rw [alike other (List.mem_append_right _ out) blank,
      alike entry (List.mem_append_left _ listed) some]
    exact Path.prefix_names_iff.2 starts

end emptyPath

/-- Without a designation, and for the paths of the working directory and of the file in it, the
same files are selected, each once. The bare name of the file selects these too, and only these if
all entries begin alike, with or without a leading dot. -/
theorem designations_select (here : Here disk config) :
    ∃ selected : List (List String), selected.Nodup ∧
      (∀ place ∈ selected, ∃ bytes, disk.tree.at? place = some (.file bytes)) ∧
      (∀ designation ∈ [none, some disk.workingPath, some (file disk.workingPath)],
        Selects disk designation selected) ∧
      ∃ others, Selects disk (some (.ofString fileName)) others ∧ selected ⊆ others ∧
        ((∃ common, ∀ entry ∈ config.directories ++ config.excluded, entry ≠ "" →
          lead entry = common) → others.Perm selected) := by
  have proper := here.proper
  have frames := frames_workingPath here
  have prunes := prunes_workingPath here
  have bareFrames := frames_emptyPath here
  have more : places disk disk.workingPath config ⊆ places disk ⟨[""]⟩ config := by
    intro place member
    obtain ⟨names, rfl, chosen⟩ := frames.exists_chosen proper prunes member
    exact bareFrames.mem_of_chosen proper (prunesOnly_emptyPath here) chosen
  have nodup := frames.nodup proper prunes fun _ _ => rfl
  refine ⟨places disk disk.workingPath config, nodup, fun _ => file_of_mem_places proper, ?_,
    places disk ⟨[""]⟩ config, selects_of_load proper here.load_fileName, more, ?_⟩
  · intro designation listed
    apply selects_of_load proper
    rcases List.mem_cons.1 listed with rfl | listed
    · exact here.load_none
    · rcases List.mem_cons.1 listed with rfl | listed
      · exact here.load_workingPath
      · obtain rfl := List.mem_singleton.1 listed
        exact here.load_file
  · rintro ⟨common, alike⟩
    have barePrunes := prunes_emptyPath here alike
    have single : ∀ entry ∈ config.directories, lead entry = common := fun entry listed =>
      alike entry (List.mem_append_left _ listed)
        (Config.directories_of_load here.loaded entry listed)
    have bareNodup := bareFrames.nodup proper barePrunes single
    apply (List.perm_ext_iff_of_nodup bareNodup nodup).2
    intro place
    refine ⟨fun member => ?_, fun member => more member⟩
    obtain ⟨names, rfl, chosen⟩ := bareFrames.exists_chosen proper barePrunes member
    exact frames.mem_of_chosen proper (prunesOnly_workingPath here) chosen

/-- A project whose entries are all spelled without a leading dot. -/
def shelved : Disk := {
  tree := .directory [("home", .directory [("soc", .directory [
    ("vdoc.toml", .file
      "[project]\nname = \"soc\"\n[sources]\ndirs = [\"rtl\"]\nexclude = [\"rtl/tb\"]\n".toUTF8),
    ("rtl", .directory [
      ("top.v", .file .empty),
      ("tb", .directory [("bench.v", .file .empty)])])])])]
  working := ["home", "soc"] }

theorem designations_select_shelved :
    Here shelved { name := "soc", directories := ["rtl"], excluded := ["rtl/tb"] } ∧
      ∀ designation ∈ [none, some shelved.workingPath, some (file shelved.workingPath),
        some (.ofString "vdoc.toml")],
        Selects shelved designation [["home", "soc", "rtl", "top.v"]] := by
  have here : Here shelved { name := "soc", directories := ["rtl"], excluded := ["rtl/tb"] } := {
    proper := by decide +kernel
    directory := ⟨_, rfl⟩
    loaded := by decide +kernel
    directories := by decide
    excluded := by decide }
  refine ⟨here, ?_⟩
  obtain ⟨selected, _, _, selects, others, bare, _, alike⟩ := designations_select here
  have found : Selects shelved none [["home", "soc", "rtl", "top.v"]] :=
    ⟨_, _, here.load_none, by decide +kernel⟩
  obtain rfl := (selects none List.mem_cons_self).unique found
  obtain rfl := List.perm_singleton.1 (alike ⟨[], by decide⟩)
  intro designation listed
  simp only [List.mem_cons, List.not_mem_nil, or_false] at listed
  rcases listed with rfl | rfl | rfl | rfl
  · exact found
  · exact selects _ (by simp)
  · exact selects _ (by simp)
  · exact bare

/-- A project that leaves out its only source, with a leading dot in front of one entry only. -/
def dotted : Disk := {
  tree := .directory [
    ("vdoc.toml", .file
      "[project]\nname = \"p\"\n[sources]\ndirs = [\".\"]\nexclude = [\"tb\"]\n".toUTF8),
    ("tb", .directory [("t.v", .file .empty)])] }

/-- The bare name of the file selects what the project leaves out. -/
theorem designations_differ_dotted :
    Here dotted { name := "p", directories := ["."], excluded := ["tb"] } ∧
      ¬∃ selected : List (List String), selected.Nodup ∧
        ∀ designation ∈ [some (.ofString "vdoc.toml"), some dotted.workingPath,
          some (file dotted.workingPath), none],
          ∃ others, others.Perm selected ∧ Selects dotted designation others := by
  have here : Here dotted { name := "p", directories := ["."], excluded := ["tb"] } := {
    proper := by decide +kernel
    directory := ⟨_, rfl⟩
    loaded := by decide +kernel
    directories := by decide
    excluded := by decide }
  refine ⟨here, ?_⟩
  rintro ⟨selected, _, selects⟩
  obtain ⟨bare, bareAlike, fromBare⟩ := selects _ List.mem_cons_self
  obtain ⟨nearest, nearestAlike, fromNearest⟩ := selects none (List.mem_of_getLast? rfl)
  have one : Selects dotted (some (.ofString "vdoc.toml")) [["tb", "t.v"]] :=
    ⟨_, _, here.load_fileName, by decide +kernel⟩
  have none : Selects dotted none [] := ⟨_, _, here.load_none, by decide +kernel⟩
  have lengths := bareAlike.length_eq.trans nearestAlike.length_eq.symm
  rw [fromBare.unique one, fromNearest.unique none] at lengths
  contradiction

end Project

end VerilogInterface
