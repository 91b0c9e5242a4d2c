import VerilogInterface.Proofs.Items
import VerilogInterface.Proofs.Splits

/-! How the items of a module reach the assembly. A port waits until its head is replaced; the
waiting ports and the placed ones are at all times the declared ports in their order. -/

namespace VerilogInterface

/-- The ports that stay when each declaration takes the place of an earlier one of its name. -/
def placed (declared : List Parameter) : List Parameter := declared.foldl Assembly.placePort []

theorem placed_concat (declared : List Parameter) (port : Parameter) :
    placed (declared ++ [port]) = Assembly.placePort (placed declared) port := by
  simp [placed]

theorem placed_append (first second : List Parameter) :
    placed (first ++ second) = second.foldl Assembly.placePort (placed first) :=
  List.foldl_append

/-- A declaration stays if no later one has its name. -/
theorem mem_placed {declared : List Parameter} {port : Parameter} :
    port ∈ placed declared ↔
      ∃ before after, declared = before ++ port :: after ∧
        ∀ later ∈ after, later.name ≠ port.name := by
  induction declared using List.reverseRecOn with
  | nil => simp [placed]
  | append_singleton declared last ih =>
    rw [placed_concat, Assembly.placePort, List.mem_append, List.mem_filter, ih, List.mem_singleton,
      exists_last_concat, bne_iff_ne]
    constructor
    · rintro (⟨old, other⟩ | rfl)
      · exact .inr ⟨other.symm, old⟩
      · exact .inl rfl
    · rintro (rfl | ⟨other, old⟩)
      · exact .inr rfl
      · exact .inl ⟨old, other.symm⟩

theorem exists_mem_placed {declared : List Parameter} {name : String} :
    (∃ port ∈ placed declared, port.name = name) ↔ ∃ port ∈ declared, port.name = name := by
  constructor
  · rintro ⟨port, member, named⟩
    obtain ⟨before, after, rfl, _⟩ := mem_placed.1 member
    exact ⟨port, by simp, named⟩
  · rintro ⟨port, member, named⟩
    induction declared using List.reverseRecOn with
    | nil => cases member
    | append_singleton declared last ih =>
      rw [placed_concat, Assembly.placePort]
      by_cases same : last.name = name
      · exact ⟨last, by simp, same⟩
      · rcases List.mem_append.1 member with old | new
        · obtain ⟨kept, inside, named⟩ := ih old
          refine ⟨kept, List.mem_append_left _ (List.mem_filter.2 ⟨inside, ?_⟩), named⟩
          exact bne_iff_ne.2 fun equal => same (equal.symm.trans named)
        · cases List.mem_singleton.1 new
          exact (same named).elim

theorem nodup_placePort {ports : List Parameter} (distinct : (ports.map (·.name)).Nodup)
    (port : Parameter) : ((Assembly.placePort ports port).map (·.name)).Nodup := by
  rw [Assembly.placePort, List.map_append, List.nodup_append]
  refine ⟨distinct.sublist (List.Sublist.map _ List.filter_sublist), by simp, ?_⟩
  rintro name member other same rfl
  obtain ⟨port, kept, rfl⟩ := List.mem_map.1 member
  simp_all

theorem placePort_of_nodup {ports : List Parameter} {port : Parameter}
    (distinct : ((ports ++ [port]).map (·.name)).Nodup) :
    Assembly.placePort ports port = ports ++ [port] := by
  rw [List.map_append, List.nodup_append] at distinct
  obtain ⟨_, _, different⟩ := distinct
  rw [Assembly.placePort, List.filter_eq_self.2]
  intro other member
  exact bne_iff_ne.2 (different _ (List.mem_map_of_mem member) _ (by simp))

/-- Ports of different names stand in strictly ascending order when they are sorted. -/
theorem pairwise_sort {ports : List Parameter} (distinct : (ports.map (·.name)).Nodup) :
    (Ordered.sort (fun first second => first.name ≤ second.name) ports).Pairwise
      (·.name < ·.name) := by
  have total (first second : Parameter) (later : decide (first.name ≤ second.name) = false) :
      decide (second.name ≤ first.name) = true :=
    decide_eq_true ((String.le_total _ _).resolve_left (of_decide_eq_false later))
  have trans (first second third : Parameter) (one : decide (first.name ≤ second.name) = true)
      (two : decide (second.name ≤ third.name) = true) :
      decide (first.name ≤ third.name) = true :=
    decide_eq_true (String.le_trans (of_decide_eq_true one) (of_decide_eq_true two))
  have ordered := Ordered.sort_pairwise total trans ports
  have different : ((Ordered.sort (fun first second => first.name ≤ second.name)
      ports).map (·.name)).Nodup :=
    ((Ordered.sort_perm _ _).map _).nodup_iff.2 distinct
  rw [List.Nodup, List.pairwise_map] at different
  refine (ordered.and different).imp fun {first second} both => ?_
  by_contra later
  exact both.2 (String.le_antisymm (of_decide_eq_true both.1) (String.not_lt.1 later))

theorem nodup_placed (declared : List Parameter) : ((placed declared).map (·.name)).Nodup := by
  induction declared using List.reverseRecOn with
  | nil => exact .nil
  | append_singleton declared last ih =>
    rw [placed_concat]
    exact nodup_placePort ih last

theorem pairwise_sort_placed (declared : List Parameter) :
    (Ordered.sort (fun first second => first.name ≤ second.name) (placed declared)).Pairwise
      (·.name < ·.name) :=
  pairwise_sort (nodup_placed declared)

inductive Targets (waiting : List WaitingPort) : List Item → Option Target → Prop where
  | none : Targets waiting [] none
  | generic {list : List Item} {entry : Parameter} :
      Targets waiting (list ++ [.generic entry])
        (some (.generic (list.filterMap Item.generic?).length))
  | waiting {list : List Item} {entry : Parameter} {earlier : List WaitingPort}
      {port : WaitingPort} (last : waiting = earlier ++ [port]) :
      Targets waiting (list ++ [.port entry]) (some (.waiting earlier.length))
  | port {list : List Item} {entry : Parameter} (settled : waiting = []) :
      Targets waiting (list ++ [.port entry]) (some (.port entry.name))

theorem Targets.none_iff {waiting : List WaitingPort} {list : List Item} {target : Option Target}
    (targets : Targets waiting list target) : target = Option.none ↔ list = [] := by
  cases targets <;> simp

/-- The assembly holds the declarations of the list and nothing else. -/
structure Collects (list : List Item) (assembly : Assembly) : Prop where
  generics : assembly.generics = list.filterMap Item.generic?
  ports : ∃ settled, list.filterMap Item.port? = settled ++ assembly.waiting.map assembly.entry ∧
    assembly.ports = placed settled
  target : Targets assembly.waiting list assembly.target

namespace Collects

variable {list : List Item} {assembly : Assembly}

theorem settle (collects : Collects list assembly) : Collects list assembly.settle := by
  obtain ⟨settled, split, ports⟩ := collects.ports
  refine ⟨collects.generics, ⟨list.filterMap Item.port?, (List.append_nil _).symm, ?_⟩, ?_⟩
  · rw [split, placed_append, ← ports]
    rfl
  · have targets := collects.target
    unfold Assembly.settle
    generalize assembly.target = target at targets
    cases targets with
    | none => exact .none
    | generic => exact .generic
    | port _ => exact .port rfl
    | @waiting list entry earlier port last =>
      have same : assembly.entry port = entry := by
        rw [List.filterMap_append, last, List.map_append, ← List.append_assoc] at split
        obtain ⟨_, ends⟩ := List.append_inj' split rfl
        exact (List.cons.inj ends).1.symm
      have settles : Assembly.settleTarget assembly.waiting (some (.waiting earlier.length)) =
          some (.port entry.name) := by
        rw [Assembly.settleTarget, last, List.getElem?_concat_length, ← same]
        rfl
      exact settles ▸ .port rfl

theorem ports_settle (collects : Collects list assembly) :
    assembly.settle.ports = placed (list.filterMap Item.port?) := by
  obtain ⟨settled, split, ports⟩ := collects.settle.ports
  rw [split, ports]
  exact congrArg placed (List.append_nil settled).symm

theorem underHead (collects : Collects list assembly) (empty : assembly.waiting = [])
    (keyword : String) (head : PortHead) : Collects list (assembly.underHead keyword head) := by
  obtain ⟨settled, split, ports⟩ := collects.ports
  refine ⟨collects.generics, ⟨settled, ?_, ports⟩, collects.target⟩
  rw [split, empty]
  show settled ++ [] = settled ++ assembly.waiting.map _
  rw [empty]
  rfl

theorem addGeneric (collects : Collects list assembly) (name value : String) :
    Collects
      (list ++ [.generic { name, direction := some .into, dataType := assembly.parameterType,
                           defaultValue := some value, guard := assembly.guards.head? }])
      (assembly.addGeneric name value) := by
  obtain ⟨settled, split, ports⟩ := collects.ports
  refine ⟨?_, ⟨settled, ?_, ports⟩, ?_⟩
  · rw [List.filterMap_append, ← collects.generics]
    rfl
  · rw [List.filterMap_append, split]
    exact List.append_nil _
  · rw [Assembly.addGeneric, collects.generics]
    exact .generic

theorem addWaiting (collects : Collects list assembly) (name : String) :
    Collects
      (list ++ [.port { name, direction := some assembly.direction, dataType := assembly.portType,
                        guard := assembly.guards.head? }])
      (assembly.addWaiting name) := by
  obtain ⟨settled, split, ports⟩ := collects.ports
  refine ⟨?_, ⟨settled, ?_, ports⟩, .waiting rfl⟩
  · rw [List.filterMap_append, ← collects.generics]
    exact (List.append_nil _).symm
  · rw [List.filterMap_append, split, List.append_assoc]
    show _ = settled ++ (assembly.waiting ++ [_]).map _
    rw [List.map_append]
    rfl

theorem modify_last {α : Type} (earlier : List α) (last : α) (change : α → α) :
    (earlier ++ [last]).modify earlier.length change = earlier ++ [change last] := by
  induction earlier with
  | nil => rfl
  | cons first earlier ih => simpa using ih

theorem map_describe_placePort (ports : List Parameter) (entry : Parameter)
    (line : String) :
    ((Assembly.placePort ports entry).map fun port =>
        if port.name = entry.name then { port with description := some [line] } else port) =
      Assembly.placePort ports { entry with description := some [line] } := by
  have others (port : Parameter) (member : port ∈ ports.filter (·.name != entry.name)) :
      (if port.name = entry.name then { port with description := some [line] } else port) = port :=
    if_neg (bne_iff_ne.1 (List.mem_filter.1 member).2)
  rw [Assembly.placePort, List.map_append, List.map_congr_left others, List.map_id'']
  · simp [Assembly.placePort]
  · exact fun _ => rfl

/-- A documentation line behind a declaration describes that declaration. -/
theorem describe (collects : Collects list assembly) (nonempty : list ≠ []) (line : String) :
    Collects (describeLast line list) (assembly.describe line) := by
  obtain ⟨settled, split, ports⟩ := collects.ports
  have targets := collects.target
  have generics := collects.generics
  generalize found : assembly.target = target at targets
  cases targets with
  | none => exact (nonempty rfl).elim
  | @generic list entry =>
    rw [describeLast_concat]
    rw [List.filterMap_append] at generics split
    simp only [Assembly.describe, found]
    refine ⟨?_, ⟨settled, ?_, ports⟩, .generic⟩
    · rw [generics, List.filterMap_append]
      exact modify_last _ entry _
    · rw [List.filterMap_append]
      exact split
  | @waiting list entry earlier port last =>
    rw [describeLast_concat]
    rw [List.filterMap_append] at generics split
    rw [last, List.map_append, ← List.append_assoc] at split
    obtain ⟨before, ends⟩ := List.append_inj' split rfl
    simp only [Assembly.describe, found, last, modify_last]
    refine ⟨?_, ⟨settled, ?_, ports⟩, .waiting rfl⟩
    · rw [List.filterMap_append]
      exact generics
    · rw [List.filterMap_append, List.map_append, ← List.append_assoc]
      have same : entry = assembly.entry port := (List.cons.inj ends).1
      rw [before, same]
      rfl
  | @port list entry empty =>
    rw [describeLast_concat]
    rw [List.filterMap_append] at generics split
    rw [empty, List.map_nil, List.append_nil] at split
    have known : assembly.ports = Assembly.placePort (placed (list.filterMap Item.port?)) entry := by
      rw [ports, ← split]
      exact placed_concat _ _
    simp only [Assembly.describe, found]
    refine ⟨?_, ⟨(list ++ [(Item.port entry).describe line]).filterMap Item.port?, ?_, ?_⟩, ?_⟩
    · rw [List.filterMap_append]
      exact generics
    · rw [empty]
      exact (List.append_nil _).symm
    · rw [known, map_describe_placePort, List.filterMap_append]
      exact (placed_concat _ _).symm
    · exact @Targets.port assembly.waiting list { entry with description := some [line] } empty

end Collects

end VerilogInterface
