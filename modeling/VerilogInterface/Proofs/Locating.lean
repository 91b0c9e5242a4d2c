import VerilogInterface.FileTree
import VerilogInterface.Proofs.PathComponents

/-! Where paths lead in a file system. Only the components of a path matter for that, and a path that
leads to a directory leads to what is inside it when it is continued by names. -/

namespace VerilogInterface

namespace FileTree

/-- A tree as file systems have them: the entries of a directory have different names, and every
name stands for itself in a path. -/
inductive Proper : FileTree → Prop where
  | file (bytes : ByteArray) : Proper (.file bytes)
  | directory {entries : List (String × FileTree)} (distinct : (entries.map (·.1)).Nodup)
      (named : ∀ entry ∈ entries, Path.IsName entry.1)
      (proper : ∀ entry ∈ entries, Proper entry.2) : Proper (.directory entries)

mutual
def decideProper : (tree : FileTree) → Decidable tree.Proper
  | .file bytes => isTrue (.file bytes)
  | .directory entries =>
    if distinct : (entries.map (·.1)).Nodup then
      if named : ∀ entry ∈ entries, Path.IsName entry.1 then
        match decideProperAmong entries with
        | isTrue proper => isTrue (.directory distinct named proper)
        | isFalse other => isFalse fun | .directory _ _ proper => other proper
      else isFalse fun | .directory _ others _ => named others
    else isFalse fun | .directory others _ _ => distinct others

def decideProperAmong : (entries : List (String × FileTree)) →
    Decidable (∀ entry ∈ entries, entry.2.Proper)
  | [] => isTrue fun _ member => absurd member List.not_mem_nil
  | (_, tree) :: entries =>
    match decideProper tree, decideProperAmong entries with
    | isTrue here, isTrue later => isTrue (List.forall_mem_cons.2 ⟨here, later⟩)
    | isFalse other, _ => isFalse fun proper => other (List.forall_mem_cons.1 proper).1
    | _, isFalse other => isFalse fun proper => other (List.forall_mem_cons.1 proper).2
end

instance (tree : FileTree) : Decidable tree.Proper := tree.decideProper

variable {tree found : FileTree} {place names : List String} {name : String}

theorem at?_append (tree : FileTree) (place names : List String) :
    tree.at? (place ++ names) = (tree.at? place).bind (·.at? names) := by
  induction place generalizing tree with
  | nil => rfl
  | cons name place ih =>
    rw [List.cons_append, at?, at?]
    cases tree.entries.lookup name with
    | none => rfl
    | some entry => exact ih entry

theorem at?_further {between : FileTree} (there : tree.at? place = some between)
    (further : between.at? names = some found) : tree.at? (place ++ names) = some found := by
  rw [at?_append, there, Option.bind_some, further]

theorem at?_cons (there : tree.at? (name :: names) = some found) :
    ∃ entries entry, tree = .directory entries ∧ entries.lookup name = some entry ∧
      entry.at? names = some found := by
  rw [at?] at there
  split at there
  · next entry listed =>
    cases tree with
    | file bytes => contradiction
    | directory entries => exact ⟨entries, entry, rfl, listed, there⟩
  · contradiction

theorem at?_single (entries : List (String × FileTree)) (name : String) :
    (directory entries).at? [name] = entries.lookup name := by
  rw [at?, FileTree.entries]
  cases entries.lookup name <;> rfl

/-- A file in a directory is at a place behind it. -/
theorem ne_nil_of_file {entries : List (String × FileTree)} {bytes : ByteArray}
    (there : (directory entries).at? names = some (.file bytes)) : names ≠ [] := by
  rintro rfl
  have same := Option.some.inj there
  contradiction

/-- What stands on the way to a place is a directory. -/
theorem directory_of_at? (there : tree.at? (place ++ name :: names) = some found) :
    ∃ entries, tree.at? place = some (.directory entries) ∧ (entries.lookup name).isSome := by
  rw [at?_append] at there
  obtain ⟨between, here, further⟩ := Option.bind_eq_some_iff.1 there
  obtain ⟨entries, entry, rfl, listed, _⟩ := at?_cons further
  exact ⟨entries, here, Option.isSome_of_eq_some listed⟩

theorem mem_of_lookup {entries : List (String × FileTree)}
    (listed : entries.lookup name = some found) : (name, found) ∈ entries := by
  obtain ⟨before, after, rfl, _⟩ := List.lookup_eq_some_iff.1 listed
  exact List.mem_append_right _ List.mem_cons_self

theorem lookup_of_mem {entries : List (String × FileTree)} (distinct : (entries.map (·.1)).Nodup)
    (member : (name, found) ∈ entries) : entries.lookup name = some found := by
  obtain ⟨before, after, rfl⟩ := List.append_of_mem member
  refine List.lookup_eq_some_iff.2 ⟨before, after, rfl, ?_⟩
  intro entry earlier
  apply bne_iff_ne.2
  rintro rfl
  rw [List.map_append, List.map_cons] at distinct
  have apart := (List.nodup_append.1 distinct).2.2
  exact apart _ (List.mem_map_of_mem earlier) _ List.mem_cons_self rfl

namespace Proper

theorem at? (proper : Proper tree) (there : tree.at? names = some found) : Proper found := by
  induction names generalizing tree with
  | nil => exact Option.some.inj there ▸ proper
  | cons name names ih =>
    obtain ⟨entries, entry, rfl, listed, further⟩ := at?_cons there
    cases proper with
    | directory _ _ inside => exact ih (inside _ (mem_of_lookup listed)) further

theorem named (proper : Proper tree) (there : tree.at? names = some found) :
    ∀ name ∈ names, Path.IsName name := by
  induction names generalizing tree with
  | nil => exact fun _ member => absurd member List.not_mem_nil
  | cons name names ih =>
    obtain ⟨entries, entry, rfl, listed, further⟩ := at?_cons there
    cases proper with
    | directory _ named inside =>
      have member := mem_of_lookup listed
      exact List.forall_mem_cons.2 ⟨named _ member, ih (inside _ member) further⟩

end Proper

end FileTree

namespace Disk

variable {disk : Disk} {path : Path} {tree : FileTree} {place next names : List String}
  {entries : List (String × FileTree)} {piece name : String}

theorem follow_eq_ok (followed : follow tree place piece = .ok next) :
    (∃ entries, tree.at? place = some (.directory entries)) ∧
      next = (Path.inner? piece).toList.foldl Path.Component.enter place := by
  unfold follow at followed
  split at followed
  · contradiction
  · contradiction
  · next entries here =>
    refine ⟨⟨entries, here⟩, ?_⟩
    rcases Path.inner?_cases piece with ⟨kind, _⟩ | kind | kind
    · rw [kind] at followed ⊢
      exact (Except.ok.inj followed).symm
    · rw [kind] at followed ⊢
      exact (Except.ok.inj followed).symm
    · rw [kind] at followed ⊢
      dsimp only at followed
      split at followed
      · exact (Except.ok.inj followed).symm
      · contradiction

theorem foldlM_follow {pieces : List String}
    (followed : pieces.foldlM (follow tree) place = .ok next) :
    next = (pieces.filterMap Path.inner?).foldl Path.Component.enter place := by
  induction pieces generalizing place with
  | nil => exact (Except.ok.inj followed).symm
  | cons piece pieces ih =>
    rw [List.foldlM_cons] at followed
    cases first : follow tree place piece with
    | error cause =>
      rw [first] at followed
      contradiction
    | ok between =>
      rw [first] at followed
      have later := ih followed
      rw [(follow_eq_ok first).2, ← List.foldl_append] at later
      rw [later, List.filterMap_cons]
      cases Path.inner? piece <;> rfl

theorem locate_eq_ok (located : disk.locate path = .ok place) :
    path.pieces ≠ [""] ∧ place = path.placeFrom disk.working := by
  unfold locate at located
  split at located
  · contradiction
  · next spelled =>
    refine ⟨spelled, ?_⟩
    rw [Path.placeFrom_eq_steps]
    exact foldlM_follow located

theorem get?_eq_some (got : disk.get? path = some tree) :
    disk.locate path = .ok (path.placeFrom disk.working) ∧
      disk.tree.at? (path.placeFrom disk.working) = some tree := by
  unfold get? at got
  split at got
  · next place located =>
    obtain ⟨_, rfl⟩ := locate_eq_ok located
    exact ⟨located, got⟩
  · contradiction

theorem get?_of_locate (located : disk.locate path = .ok place) :
    disk.get? path = disk.tree.at? place := by
  rw [get?, located]

theorem follow_name (here : tree.at? place = some (.directory entries))
    (listed : (entries.lookup name).isSome) (named : Path.IsName name) :
    follow tree place name = .ok (place ++ [name]) := by
  rw [follow, here, (named : Path.inner? name = _)]
  exact if_pos listed

/-- Pieces without a double dot lead to the place that they name, if a directory is there. -/
theorem foldlM_follow_names {pieces : List String}
    (named : pieces.filterMap Path.inner? = names.map .name)
    (there : tree.at? (place ++ names) = some (.directory entries)) :
    pieces.foldlM (follow tree) place = .ok (place ++ names) := by
  induction pieces generalizing place names with
  | nil =>
    obtain rfl : names = [] := List.map_eq_nil_iff.1 named.symm
    rw [List.append_nil]
    rfl
  | cons piece pieces ih =>
    rw [List.foldlM_cons]
    rcases Path.inner?_cases piece with ⟨kind, _⟩ | kind | kind
    · rw [List.filterMap_cons_none kind] at named
      have here : ∃ entries, tree.at? place = some (.directory entries) := by
        cases names with
        | nil => exact ⟨entries, by rwa [List.append_nil] at there⟩
        | cons name names =>
          obtain ⟨entries, here, _⟩ := FileTree.directory_of_at? there
          exact ⟨entries, here⟩
      obtain ⟨inside, here⟩ := here
      have first : follow tree place piece = .ok place := by rw [follow, here, kind]
      rw [first]
      exact ih named there
    · rw [List.filterMap_cons_some kind] at named
      cases names with
      | nil => contradiction
      | cons name names => exact absurd (List.cons.inj named).1 (by simp)
    · rw [List.filterMap_cons_some kind] at named
      cases names with
      | nil => contradiction
      | cons name names =>
        obtain ⟨same, later⟩ := List.cons.inj named
        obtain rfl : piece = name := Path.Component.name.inj same
        obtain ⟨inside, here, listed⟩ := FileTree.directory_of_at? there
        rw [follow_name here listed kind]
        rw [List.append_cons place piece names] at there ⊢
        exact ih later there

/-- A path without a double dot leads to a directory if its names do. -/
theorem locate_of_directory (spelled : path.pieces ≠ [""]) (named : path.steps = names.map .name)
    (there : disk.tree.at? ((if path.isAbsolute then [] else disk.working) ++ names) =
      some (.directory entries)) :
    disk.locate path = .ok ((if path.isAbsolute then [] else disk.working) ++ names) := by
  rw [locate, if_neg spelled]
  exact foldlM_follow_names named there

/-- An empty last piece only asks for a directory. -/
theorem foldlM_follow_blank {pieces : List String}
    (followed : (pieces ++ [""]).foldlM (follow tree) place = .ok next) :
    pieces.foldlM (follow tree) place = .ok next := by
  rw [List.foldlM_append] at followed
  cases before : pieces.foldlM (follow tree) place with
  | error cause =>
    rw [before] at followed
    contradiction
  | ok between =>
    rw [before] at followed
    have last : [""].foldlM (follow tree) between = .ok next := followed
    rw [List.foldlM_cons] at last
    simp only [List.foldlM_nil, bind_pure] at last
    exact congrArg Except.ok (follow_eq_ok last).2.symm

/-- A path continued by a name leads from a directory to its entry of that name. -/
theorem locate_child (located : disk.locate path = .ok place)
    (here : disk.tree.at? place = some (.directory entries)) (listed : (entries.lookup name).isSome)
    (named : Path.IsName name) : disk.locate (path.child name) = .ok (place ++ [name]) := by
  have spelled := (locate_eq_ok located).1
  have absolute := Path.isAbsolute_child spelled name
  obtain ⟨kept, joined, whole⟩ := Path.join_cases path (Path.isAbsolute_single name)
  have before : kept.foldlM (follow disk.tree) (if path.isAbsolute then [] else disk.working) =
      .ok place := by
    rw [locate, if_neg spelled] at located
    rcases whole with whole | whole
    · rwa [whole] at located
    · rw [whole] at located
      exact foldlM_follow_blank located
  have different : kept ++ [name] ≠ [""] := by
    intro blank
    have same := List.append_inj_right' (blank.trans (List.nil_append [""]).symm) rfl
    exact absurd (List.cons.inj same).1 (by rintro rfl; contradiction)
  rw [Path.child] at absolute ⊢
  rw [locate, absolute, joined, if_neg different, List.foldlM_append, before]
  have last : [name].foldlM (follow disk.tree) place = .ok (place ++ [name]) := by
    rw [List.foldlM_cons, follow_name here listed named]
    rfl
  exact last

theorem locate_descend (located : disk.locate path = .ok place)
    (here : disk.tree.at? (place ++ names) = some tree) (named : ∀ name ∈ names, Path.IsName name) :
    disk.locate (path.descend names) = .ok (place ++ names) := by
  induction names generalizing path place with
  | nil =>
    rw [List.append_nil]
    exact located
  | cons name names ih =>
    obtain ⟨first, later⟩ := List.forall_mem_cons.1 named
    obtain ⟨entries, inside, listed⟩ := FileTree.directory_of_at? here
    rw [List.append_cons] at here ⊢
    exact ih (locate_child located inside listed first) here later

/-- What is read is the text of the file at the place that the path names. -/
theorem read_eq_ok {text : String} (read : disk.read path = .ok text) :
    ∃ bytes, disk.get? path = some (.file bytes) ∧ String.fromUTF8? bytes = some text := by
  unfold Disk.read at read
  unfold get?
  cases located : disk.locate path with
  | error cause =>
    rw [located] at read
    contradiction
  | ok place =>
    rw [located] at read
    dsimp only [bind, Except.bind] at read ⊢
    split at read
    · contradiction
    · contradiction
    · next bytes there =>
      split at read
      · next content => exact ⟨bytes, there, content.trans (congrArg some (Except.ok.inj read))⟩
      · contradiction

theorem isFile_iff : disk.isFile path = true ↔ ∃ bytes, disk.get? path = some (.file bytes) := by
  unfold isFile
  split
  · next bytes here => exact ⟨fun _ => ⟨bytes, here⟩, fun _ => rfl⟩
  · next other =>
    constructor
    · intro none
      contradiction
    · rintro ⟨bytes, here⟩
      exact absurd here (other bytes)

theorem read_congr {other : Path} (same : disk.locate path = disk.locate other) :
    disk.read path = disk.read other := by
  rw [read, read, same]

/-- A path without a double dot leads to a directory exactly if one is at the place it names. -/
theorem get?_directory_iff (spelled : path.pieces ≠ [""]) (downwards : .parent ∉ path.components) :
    disk.get? path = some (.directory entries) ↔
      disk.tree.at? (path.placeFrom disk.working) = some (.directory entries) := by
  refine ⟨fun here => (get?_eq_some here).2, fun there => ?_⟩
  obtain ⟨names, steps⟩ := Path.exists_names downwards
  have place : path.placeFrom disk.working =
      (if path.isAbsolute then [] else disk.working) ++ names := by
    rw [Path.placeFrom_eq_steps, steps, Path.foldl_enter_names]
  rw [place] at there
  rw [get?_of_locate (locate_of_directory spelled steps there), there]

end Disk

end VerilogInterface
