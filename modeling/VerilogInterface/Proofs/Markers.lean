import VerilogInterface.Proofs.Declarations

/-! The section markers of a module. A marker is kept under the number of ports declared before it,
and these numbers never fall, so the labels up to a number are those of a front part of the
module's tokens. -/

namespace VerilogInterface

namespace Sections

theorem label?_put (sections : Sections) (count other : Nat) (label : String) :
    (sections.put count label).label? other =
      if count = other then some label else sections.label? other := by
  induction sections with
  | nil => by_cases same : count = other <;> simp [put, label?, same]
  | cons first rest ih =>
    obtain ⟨key, text⟩ := first
    rw [put]
    split
    · by_cases same : count = other <;> simp [label?, same]
    · split
      · next equal =>
        subst equal
        by_cases same : count = other <;> simp [label?, same]
      · next different =>
        have step (tail : Sections) : Sections.label? ((key, text) :: tail) other =
            if key = other then some text else tail.label? other := by
          by_cases same : key = other <;> simp [label?, same]
        rw [step, step, ih]
        by_cases same : count = other
        · rw [if_pos same, if_neg fun equal => different (same.trans equal.symm), if_pos same]
        · rw [if_neg same, if_neg same]

/-- The last label at a count no greater than the given one. -/
def upTo (sections : Sections) (count : Nat) : Option String :=
  ((List.range (count + 1)).filterMap sections.label?).getLast?

theorem upTo_succ (sections : Sections) (count : Nat) :
    sections.upTo (count + 1) = (sections.label? (count + 1)).or (sections.upTo count) := by
  rw [upTo, List.range_succ, List.filterMap_append, List.getLast?_append, upTo]
  cases found : sections.label? (count + 1) <;> simp [found]

theorem upTo_put_of_lt {sections : Sections} {count key : Nat} (beyond : count < key)
    (label : String) : (sections.put key label).upTo count = sections.upTo count := by
  refine congrArg List.getLast? (List.filterMap_congr fun other member => ?_)
  have inside := List.mem_range.1 member
  rw [label?_put, if_neg (by omega)]

theorem upTo_put_of_le {sections : Sections} {count key : Nat} (within : key ≤ count)
    (last : ∀ other, key < other → sections.label? other = none) (label : String) :
    (sections.put key label).upTo count = some label := by
  induction within with
  | refl =>
    have here : (sections.put key label).label? key = some label := by rw [label?_put, if_pos rfl]
    rw [upTo, List.range_succ, List.filterMap_append, List.getLast?_append]
    simp [here]
  | @step middle within ih =>
    have beyond : key < middle + 1 := Nat.lt_succ_of_le within
    rw [Nat.succ_eq_add_one, upTo_succ, label?_put, if_neg (Nat.ne_of_lt beyond), last _ beyond, ih]
    rfl

theorem ofMarkers_concat (markers : List (Nat × String)) (marker : Nat × String) :
    ofMarkers (markers ++ [marker]) = (ofMarkers markers).put marker.1 marker.2 := by
  rw [ofMarkers, List.foldl_append]
  rfl

theorem label?_ofMarkers_eq_none {markers : List (Nat × String)} {count : Nat}
    (absent : ∀ marker ∈ markers, marker.1 ≠ count) : (ofMarkers markers).label? count = none := by
  induction markers using List.reverseRecOn with
  | nil => rfl
  | append_singleton markers marker ih =>
    rw [ofMarkers_concat, label?_put, if_neg (absent marker (by simp))]
    exact ih fun other member => absent other (by simp [member])

/-- Where the counts never fall, the last label up to a count is that of the last marker up to it. -/
theorem upTo_ofMarkers {markers : List (Nat × String)} (ascending : markers.Pairwise (·.1 ≤ ·.1))
    (count : Nat) :
    (ofMarkers markers).upTo count =
      (markers.filter (·.1 ≤ count)).getLast?.map (·.2) := by
  induction markers using List.reverseRecOn with
  | nil =>
    have none : (ofMarkers []).label? = fun _ => none := rfl
    simp [upTo, none]
  | append_singleton markers marker ih =>
    obtain ⟨earlier, _, before⟩ := List.pairwise_append.1 ascending
    rw [ofMarkers_concat, List.filter_append]
    by_cases within : marker.1 ≤ count
    · have last (other : Nat) (behind : marker.1 < other) :
          (ofMarkers markers).label? other = none := by
        refine label?_ofMarkers_eq_none fun old member same => ?_
        have := before old member marker (by simp)
        omega
      rw [upTo_put_of_le within last]
      simp [within]
    · rw [upTo_put_of_lt (Nat.lt_of_not_le within), ih earlier]
      simp [within]

end Sections

/-- The section markers among the tokens, each with the number of ports declared before it. -/
def markersFrom (count : Nat) : List Token → List (Nat × String)
  | [] => []
  | token :: rest =>
    if token.action = .sectionLabel then (count, Text.trim (token.group 0)) :: markersFrom count rest
    else markersFrom (if token.declares?.isSome then count + 1 else count) rest

def sectionIn (tokens : List Token) : Option String :=
  (lastOf .sectionLabel tokens).map fun token => Text.trim (token.group 0)

/-- The tokens before the declaration with this many declarations before it. -/
def untilDeclared (count : Nat) : List Token → List Token
  | [] => []
  | token :: rest =>
    if token.declares?.isNone then token :: untilDeclared count rest
    else if count = 0 then []
    else token :: untilDeclared (count - 1) rest

theorem le_of_mem_markersFrom {tokens : List Token} {count : Nat} {marker : Nat × String}
    (member : marker ∈ markersFrom count tokens) : count ≤ marker.1 := by
  induction tokens generalizing count with
  | nil => cases member
  | cons token rest ih =>
    rw [markersFrom] at member
    split at member
    · rcases List.mem_cons.1 member with rfl | later
      · exact Nat.le_refl _
      · exact ih later
    · have := ih member
      split at this <;> omega

theorem pairwise_markersFrom (count : Nat) (tokens : List Token) :
    (markersFrom count tokens).Pairwise (·.1 ≤ ·.1) := by
  induction tokens generalizing count with
  | nil => exact .nil
  | cons token rest ih =>
    rw [markersFrom]
    split
    · exact List.pairwise_cons.2 ⟨fun _ member => le_of_mem_markersFrom member, ih count⟩
    · exact ih _

theorem not_declares_of_sectionLabel {token : Token} (action : token.action = .sectionLabel) :
    token.declares? = none := by
  simp [Token.declares?, action]

/-- The markers up to a count stand in front of the declaration that reaches beyond it. -/
theorem filter_markersFrom (first count : Nat) (tokens : List Token) :
    (markersFrom first tokens).filter (·.1 ≤ first + count) =
      markersFrom first (untilDeclared count tokens) := by
  induction tokens generalizing first count with
  | nil => rfl
  | cons token rest ih =>
    rw [untilDeclared, markersFrom]
    by_cases marks : token.action = .sectionLabel
    · simp [markersFrom, marks, not_declares_of_sectionLabel marks, ih]
    · cases declares : token.declares? with
      | none => simp [markersFrom, marks, declares, ih]
      | some name =>
        cases count with
        | zero =>
          simp only [marks, if_false, Option.isSome_some, if_true]
          refine List.filter_eq_nil_iff.2 fun marker member => ?_
          have := le_of_mem_markersFrom member
          simp only [decide_eq_true_eq]
          omega
        | succ count =>
          have shifted : first + (count + 1) = first + 1 + count := by omega
          simp [markersFrom, marks, declares, shifted, ih]

theorem map_snd_markersFrom (count : Nat) (tokens : List Token) :
    (markersFrom count tokens).map (·.2) =
      (tokens.filter (·.action == .sectionLabel)).map fun token => Text.trim (token.group 0) := by
  induction tokens generalizing count with
  | nil => rfl
  | cons token rest ih =>
    rw [markersFrom]
    by_cases marks : token.action = .sectionLabel <;> simp [marks, ih]

/-- The last label up to a count is that of the last marker in front of the next declaration. -/
theorem upTo_markersFrom (count : Nat) (tokens : List Token) :
    (Sections.ofMarkers (markersFrom 0 tokens)).upTo count =
      sectionIn (untilDeclared count tokens) := by
  have front := filter_markersFrom 0 count tokens
  rw [Nat.zero_add] at front
  rw [Sections.upTo_ofMarkers (pairwise_markersFrom 0 tokens), front, ← List.getLast?_map,
    map_snd_markersFrom, List.getLast?_map]
  rfl

/-- The tokens in front of a declaration are those before it. -/
theorem untilDeclared_append {earlier after : List Token} {token : Token} {name : String}
    (declares : token.declares? = some name) :
    untilDeclared (earlier.filterMap Token.declares?).length (earlier ++ token :: after) =
      earlier := by
  induction earlier with
  | nil => simp [untilDeclared, declares]
  | cons first earlier ih =>
    rw [List.cons_append, untilDeclared, List.filterMap_cons]
    cases declared : first.declares? <;> simp [ih]

namespace Assembly

variable {text : String} {token : Token} {assembly next last : Assembly} {body : List Token}

theorem Takes.declared (takes : Takes token assembly next) (inside : token.bounds = false) :
    next.declared = assembly.declared + if token.declares?.isSome then 1 else 0 := by
  cases takes with
  | documentation action =>
    obtain ⟨_, _, _, _, same⟩ := assembly.describe_frame (Text.trim (token.group 0))
    rw [same]
    simp [Token.declares?, action]
  | comment action => rcases action with action | action <;> simp [Token.declares?, action]
  | portStart action read unnamed =>
    simp [Token.declares?, action, read, unnamed, underHead, settle]
  | namedPortStart action read named =>
    simp [Token.declares?, action, read, named, addWaiting, underHead, settle]
  | moduleStart action | moduleEnd action => simp [Token.bounds, action] at inside
  | _ => simp [Token.declares?, addWaiting, addGeneric, *]

theorem Takes.markers (takes : Takes token assembly next) (inside : token.bounds = false) :
    next.markers = assembly.markers ++
      if token.action = .sectionLabel then [(assembly.declared, Text.trim (token.group 0))]
      else [] := by
  cases takes with
  | documentation action =>
    obtain ⟨_, _, _, _, same⟩ := assembly.describe_frame (Text.trim (token.group 0))
    rw [same]
    simp [action]
  | comment action => rcases action with action | action <;> simp [action]
  | moduleStart action | moduleEnd action => simp [Token.bounds, action] at inside
  | _ => simp [addWaiting, addGeneric, underHead, settle, *]

/-- Inside a module a run collects the markers among its tokens. -/
theorem run_markers (inside : ∀ token ∈ body, token.bounds = false)
    (ran : assembly.run text body = .ok last) :
    last.markers = assembly.markers ++ markersFrom assembly.declared body := by
  induction body generalizing assembly with
  | nil =>
    cases ran
    simp [markersFrom]
  | cons token rest ih =>
    obtain ⟨here, later⟩ := List.forall_mem_cons.1 inside
    rw [← List.singleton_append] at ran
    obtain ⟨middle, taken, rest⟩ := run_append_eq_ok ran
    have takes := takes_of_apply (run_singleton_eq_ok.1 taken)
    rw [ih later rest, takes.markers here, takes.declared here, markersFrom]
    by_cases marks : token.action = .sectionLabel
    · simp [marks, not_declares_of_sectionLabel marks]
    · cases token.declares?.isSome <;> simp [marks]

end Assembly

/-- The sections of a module are those of the markers among its tokens. -/
theorem sections_of_parse {text : String} {modules : List Module} {index : Nat} {module : Module}
    {span : Span} (parsed : parse text = .ok modules) (found : modules[index]? = some module)
    (within : span.Within (tokens text) index) :
    module.sections = Sections.ofMarkers (markersFrom 0 span.body) := by
  obtain ⟨last, ran, _, _, rfl⟩ := run_of_parse parsed
  obtain ⟨after, split⟩ := within.split
  rw [split, Span.tokens] at ran
  obtain ⟨closed, ran, rest⟩ := Assembly.run_append_eq_ok ran
  obtain ⟨filled, ran, stop⟩ := Assembly.run_append_eq_ok ran
  obtain ⟨opened, ran, body⟩ := Assembly.run_append_eq_ok ran
  obtain ⟨outside, front, start⟩ := Assembly.run_append_eq_ok ran
  have opens := Assembly.run_singleton_eq_ok.1 start
  simp only [Assembly.apply, within.start, Prod.mk.injEq, and_true] at opens
  subst opens
  have closes := (Assembly.takes_of_apply (Assembly.run_singleton_eq_ok.1 stop)).modules
  rw [if_pos within.stop] at closes
  obtain ⟨early, before, count⟩ := Assembly.run_grows front
  obtain ⟨inner, same, none⟩ := Assembly.run_grows body
  obtain ⟨late, behind, _⟩ := Assembly.run_grows rest
  rw [ended_append, within.earlier, ended_of_plain within.lead] at count
  rw [ended_of_plain within.body, List.length_eq_zero_iff] at none
  have place : filled.modules.length = index := by
    rw [same, none, List.append_nil]
    show outside.modules.length = index
    rw [before, List.length_append, count]
    exact Nat.zero_add _
  have here : module = filled.settle.finished := by
    rw [behind, closes, List.append_assoc, ← place, List.getElem?_append_right (Nat.le_refl _),
      Nat.sub_self] at found
    exact (Option.some.inj found).symm
  rw [here]
  exact congrArg Sections.ofMarkers (Assembly.run_markers within.body body)

end VerilogInterface
