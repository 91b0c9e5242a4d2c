import VerilogInterface.Extraction

/-! What a request for declarations is answered with. The kind that is asked for chooses among all
modules of a text and leaves those chosen in their order. -/

namespace VerilogInterface

namespace Object

inductive HasKind : Object → Kind → Prop where
  | module (entry : Module) : HasKind (.module entry) .module
  | parameter (entry : Parameter) : HasKind (.parameter entry) .parameter

theorem isKind_iff {object : Object} {kind : Kind} :
    object.isKind kind = true ↔ object.HasKind kind := by
  constructor
  · intro same
    obtain rfl := eq_of_beq same
    cases object with
    | module entry => exact .module entry
    | parameter entry => exact .parameter entry
  · rintro (_ | _) <;> rfl

/-- The objects of one kind among others, each at its turn. -/
inductive Members (kind : Kind) : List Object → List Object → Prop where
  | nil : Members kind [] []
  | keep {object : Object} {all chosen : List Object} (same : object.HasKind kind)
      (others : Members kind all chosen) : Members kind (object :: all) (object :: chosen)
  | drop {object : Object} {all chosen : List Object} (different : ¬ object.HasKind kind)
      (others : Members kind all chosen) : Members kind (object :: all) chosen

inductive Chosen (all : List Object) : Option Kind → List Object → Prop where
  | all : Chosen all none all
  | kind {kind : Kind} {chosen : List Object} (members : Members kind all chosen) :
      Chosen all (some kind) chosen

theorem members_filter (kind : Kind) (all : List Object) :
    Members kind all (all.filter (·.isKind kind)) := by
  induction all with
  | nil => exact .nil
  | cons object all ih =>
    by_cases same : object.isKind kind = true
    · rw [List.filter_cons, if_pos same]
      exact .keep (isKind_iff.1 same) ih
    · rw [List.filter_cons, if_neg same]
      exact .drop (fun has => same (isKind_iff.2 has)) ih

theorem chosen_ofKind (wanted : Option Kind) (all : List Object) :
    Chosen all wanted (ofKind wanted all) := by
  cases wanted with
  | none => exact .all
  | some kind => exact .kind (members_filter kind all)

end Object

/-- The answer that a file gives at the moment, whatever it gave before. -/
inductive FileAnswers (disk : Disk) (path : Path) (wanted : Option Kind) :
    Except ExtractError (List Object) → Prop where
  | unread {cause : AccessError} (refused : disk.read path = .error cause) :
      FileAnswers disk path wanted (.error (.read path cause))
  | unparsed {text : String} {cause : ParseError} (content : disk.read path = .ok text)
      (refused : parse text = .error cause) :
      FileAnswers disk path wanted (.error (.parse path cause))
  | declared {text : String} {modules : List Module} {objects : List Object}
      (content : disk.read path = .ok text) (parsed : parse text = .ok modules)
      (chosen : Object.Chosen (modules.map .module) wanted objects) :
      FileAnswers disk path wanted (.ok objects)

/-- A file cannot be read, or its text is refused, or all its modules are declared. -/
theorem fileDeclarations_cases (disk : Disk) (path : Path) :
    (∃ cause, disk.read path = .error cause ∧
      fileDeclarations disk path = .error (.read path cause)) ∨
    (∃ text cause, disk.read path = .ok text ∧ parse text = .error cause ∧
      fileDeclarations disk path = .error (.parse path cause)) ∨
    (∃ text modules, disk.read path = .ok text ∧ parse text = .ok modules ∧
      fileDeclarations disk path = .ok (modules.map .module)) := by
  unfold fileDeclarations declarations
  cases content : disk.read path with
  | error cause => exact .inl ⟨cause, rfl, rfl⟩
  | ok text =>
    cases parsed : parse text with
    | error cause => exact .inr (.inl ⟨text, cause, rfl, parsed, by simp [parsed, Except.map]⟩)
    | ok modules =>
      exact .inr (.inr ⟨text, modules, rfl, parsed, by simp [parsed, Except.map, Object.ofKind]⟩)

theorem fileDeclarations_eq_ok {disk : Disk} {path : Path} {objects : List Object} :
    fileDeclarations disk path = .ok objects ↔
      ∃ text modules, disk.read path = .ok text ∧ parse text = .ok modules ∧
        objects = modules.map .module := by
  constructor
  · intro read
    rcases fileDeclarations_cases disk path with
      ⟨_, _, made⟩ | ⟨_, _, _, _, made⟩ | ⟨text, modules, content, parsed, made⟩
    · rw [made] at read
      contradiction
    · rw [made] at read
      contradiction
    · rw [made] at read
      exact ⟨text, modules, content, parsed, (Except.ok.inj read).symm⟩
  · rintro ⟨text, modules, content, parsed, rfl⟩
    simp [fileDeclarations, declarations, content, parsed, Except.map, Object.ofKind]

/-- The answer is what the file declares, as far as it is of the wanted kind. -/
theorem fileAnswers_map (disk : Disk) (path : Path) (wanted : Option Kind) :
    FileAnswers disk path wanted ((fileDeclarations disk path).map (Object.ofKind wanted)) := by
  rcases fileDeclarations_cases disk path with
    ⟨cause, refused, made⟩ | ⟨text, cause, content, refused, made⟩ |
    ⟨text, modules, content, parsed, made⟩
  · rw [made]
    exact .unread refused
  · rw [made]
    exact .unparsed content refused
  · rw [made]
    exact .declared content parsed (Object.chosen_ofKind wanted _)

end VerilogInterface
