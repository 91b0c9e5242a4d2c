import VerilogInterface.Proofs.Steps

/-! The nesting of modules, lists and comments. A module opens only outside every other one, and
lists and their members stand only inside a module; so the tokens of a text fall into stretches,
one for each module, and every list member follows a head in its own module. -/

namespace VerilogInterface

/-- A match by the states entered before it, its meaning, and the states entered after it. -/
inductive Shift : List State → Option Action → List State → Prop where
  | skip {stack : List State} : Shift stack none stack
  | aside {stack : List State} {action : Action} (plain : stack.head? ≠ some .blockComment)
      (kind : action = .guardEnter ∨ action = .guardExit ∨ action = .documentation) :
      Shift stack (some action) stack
  | label {stack : List State} (inside : stack = [.module] ∨ stack = [.modulePort, .module]) :
      Shift stack (some .sectionLabel) stack
  | openModule : Shift [] (some .moduleStart) [.module]
  | closeModule : Shift [.module] (some .moduleEnd) []
  | openParameters : Shift [.module] (some .parameterStart) [.parameters, .module]
  | moreParameters :
      Shift [.parameters, .module] (some .parameterStart) [.parameters, .module]
  | parameter : Shift [.parameters, .module] (some .parameterItem) [.parameters, .module]
  | closeParameters : Shift [.parameters, .module] none [.module]
  | openPorts : Shift [.module] (some .portStart) [.modulePort, .module]
  | morePorts : Shift [.modulePort, .module] (some .portStart) [.modulePort, .module]
  | port : Shift [.modulePort, .module] (some .portName) [.modulePort, .module]
  | closePorts : Shift [.modulePort, .module] none [.module]
  | openComment {stack : List State} (plain : stack.head? ≠ some .blockComment) :
      Shift stack (some .commentStart) (.blockComment :: stack)
  | closeComment {stack : List State} : Shift (.blockComment :: stack) (some .commentEnd) stack

theorem Shift.of_openComment {stack after : List State}
    (shift : Shift stack (some .commentStart) after) :
    stack.head? ≠ some .blockComment ∧ after = .blockComment :: stack := by
  cases shift with
  | aside plain kind => simp at kind
  | openComment plain => exact ⟨plain, rfl⟩

/-- Inside a comment there is nothing but its end. -/
theorem Shift.of_inComment {outer after : List State} {action : Option Action}
    (shift : Shift (.blockComment :: outer) action after) :
    action = none ∧ after = .blockComment :: outer ∨ action = some .commentEnd ∧ after = outer := by
  cases shift with
  | skip => exact .inl ⟨rfl, rfl⟩
  | aside plain => exact (plain rfl).elim
  | label inside => simp at inside
  | openComment plain => exact (plain rfl).elim
  | closeComment => exact .inr ⟨rfl, rfl⟩

inductive Nested : List State → Prop where
  | outside : Nested []
  | module : Nested [.module]
  | parameters : Nested [.parameters, .module]
  | ports : Nested [.modulePort, .module]
  | comment {stack : List State} (nested : Nested stack)
      (plain : stack.head? ≠ some .blockComment) : Nested (.blockComment :: stack)

theorem Nested.shift {stack after : List State} {action : Option Action} (nested : Nested stack)
    (shift : Shift stack action after) : Nested after := by
  cases shift with
  | skip => exact nested
  | aside => exact nested
  | label => exact nested
  | openModule => exact .module
  | closeModule => exact .outside
  | openParameters => exact .parameters
  | moreParameters => exact .parameters
  | parameter => exact .parameters
  | closeParameters => exact .module
  | openPorts => exact .ports
  | morePorts => exact .ports
  | port => exact .ports
  | closePorts => exact .module
  | openComment plain => exact .comment nested plain
  | closeComment =>
    cases nested with
    | comment nested => exact nested

section Rules

open Verilog

variable {stack : List State} {rule : Rule}

theorem shift_of_guards (plain : stack.head? ≠ some .blockComment) (member : rule ∈ guards) :
    ∃ after, rule.enters stack = some after ∧ Shift stack rule.action after := by
  simp only [guards, List.mem_cons, List.not_mem_nil, or_false] at member
  rcases member with rfl | rfl
  · exact ⟨_, rfl, .aside plain (.inl rfl)⟩
  · exact ⟨_, rfl, .aside plain (.inr (.inl rfl))⟩

theorem shift_of_rootRules (member : rule ∈ rootRules) :
    ∃ after, rule.enters [] = some after ∧ Shift [] rule.action after := by
  rcases List.mem_append.1 member with guard | member
  · exact shift_of_guards nofun guard
  · simp only [List.mem_cons, List.not_mem_nil, or_false] at member
    rcases member with rfl | rfl | rfl | rfl | rfl
    · exact ⟨_, rfl, .openModule⟩
    · exact ⟨_, rfl, .openComment nofun⟩
    · exact ⟨_, rfl, .aside nofun (.inr (.inr rfl))⟩
    all_goals exact ⟨_, rfl, .skip⟩

theorem shift_of_moduleRules (member : rule ∈ moduleRules) :
    ∃ after, rule.enters [.module] = some after ∧ Shift [.module] rule.action after := by
  rcases List.mem_append.1 member with guard | member
  · exact shift_of_guards nofun guard
  · simp only [List.mem_cons, List.not_mem_nil, or_false] at member
    rcases member with rfl | rfl | rfl | rfl | rfl | rfl | rfl | rfl | rfl | rfl | rfl
    · exact ⟨_, rfl, .skip⟩
    · exact ⟨_, rfl, .skip⟩
    · exact ⟨_, rfl, .skip⟩
    · exact ⟨_, rfl, .openParameters⟩
    · exact ⟨_, rfl, .openPorts⟩
    · exact ⟨_, rfl, .closeModule⟩
    · exact ⟨_, rfl, .openComment nofun⟩
    · exact ⟨_, rfl, .label (.inl rfl)⟩
    · exact ⟨_, rfl, .aside nofun (.inr (.inr rfl))⟩
    all_goals exact ⟨_, rfl, .skip⟩

theorem shift_of_parameterRules (member : rule ∈ parameterRules) :
    ∃ after, rule.enters [.parameters, .module] = some after ∧
      Shift [.parameters, .module] rule.action after := by
  rcases List.mem_append.1 member with guard | member
  · exact shift_of_guards nofun guard
  · simp only [List.mem_cons, List.not_mem_nil, or_false] at member
    rcases member with rfl | rfl | rfl | rfl | rfl | rfl | rfl | rfl
    · exact ⟨_, rfl, .moreParameters⟩
    · exact ⟨_, rfl, .parameter⟩
    · exact ⟨_, rfl, .skip⟩
    · exact ⟨_, rfl, .closeParameters⟩
    · exact ⟨_, rfl, .openComment nofun⟩
    · exact ⟨_, rfl, .aside nofun (.inr (.inr rfl))⟩
    all_goals exact ⟨_, rfl, .skip⟩

theorem shift_of_portRules (member : rule ∈ portRules) :
    ∃ after, rule.enters [.modulePort, .module] = some after ∧
      Shift [.modulePort, .module] rule.action after := by
  rcases List.mem_append.1 member with guard | member
  · exact shift_of_guards nofun guard
  · simp only [List.mem_cons, List.not_mem_nil, or_false] at member
    rcases member with rfl | rfl | rfl | rfl | rfl | rfl | rfl | rfl | rfl
    · exact ⟨_, rfl, .morePorts⟩
    · exact ⟨_, rfl, .port⟩
    · exact ⟨_, rfl, .skip⟩
    · exact ⟨_, rfl, .closePorts⟩
    · exact ⟨_, rfl, .openComment nofun⟩
    · exact ⟨_, rfl, .label (.inr rfl)⟩
    · exact ⟨_, rfl, .aside nofun (.inr (.inr rfl))⟩
    all_goals exact ⟨_, rfl, .skip⟩

theorem shift_of_commentRules (member : rule ∈ commentRules) :
    ∃ after, rule.enters (.blockComment :: stack) = some after ∧
      Shift (.blockComment :: stack) rule.action after := by
  simp only [commentRules, List.mem_cons, List.not_mem_nil, or_false] at member
  rcases member with rfl | rfl
  · exact ⟨_, rfl, .closeComment⟩
  · exact ⟨_, rfl, .skip⟩

/-- Every rule of the grammar keeps the nesting. -/
theorem Nested.shift_of_rule (nested : Nested stack) (member : rule ∈ table (stack.headD .root)) :
    ∃ after, rule.enters stack = some after ∧ Shift stack rule.action after := by
  cases nested with
  | outside => exact shift_of_rootRules member
  | module => exact shift_of_moduleRules member
  | parameters => exact shift_of_parameterRules member
  | ports => exact shift_of_portRules member
  | comment nested plain => exact shift_of_commentRules member

end Rules

namespace Scanner

variable {scanner after : Scanner}

theorem shift_of_step {lexeme : Lexeme} (nested : Nested scanner.entered)
    (moved : scanner.step Verilog.table = .moved lexeme after) :
    Shift scanner.entered lexeme.action after.entered := by
  obtain ⟨_, rule, _, _, first, enters, rfl, rfl⟩ := first_of_moved moved
  obtain ⟨_, enters', shift⟩ := nested.shift_of_rule (firstMatch_eq_some first).1
  cases enters.symm.trans enters'
  exact shift

theorem Reaches.nested (nested : Nested scanner.entered)
    (reaches : scanner.Reaches Verilog.table after) : Nested after.entered := by
  induction reaches with
  | here => exact nested
  | moved _ moved ih => exact ih.shift (shift_of_step ih moved)
  | stopped _ stopped ih =>
    obtain ⟨_, _, ⟨_, _, rfl⟩ | ⟨_, _, _, _, _, rfl⟩⟩ := first_of_stopped stopped <;> exact ih

/-- No rule of the grammar leaves the outermost state. -/
theorem step_ne_underflow {offset : Nat} (nested : Nested scanner.entered) :
    scanner.step Verilog.table ≠ .stopped (.underflow offset) after := by
  intro stopped
  obtain ⟨_, _, ⟨_, same, _⟩ | ⟨_, _, first, stays, _⟩⟩ := first_of_stopped stopped
  · cases same
  · obtain ⟨_, enters, _⟩ := nested.shift_of_rule (firstMatch_eq_some first).1
    cases stays.symm.trans enters

end Scanner

end VerilogInterface
