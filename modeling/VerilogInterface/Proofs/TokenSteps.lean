import VerilogInterface.Assembly
import VerilogInterface.Proofs.Guards

/-! What one token does to an assembly. Everything that is kept or changed by a token is read off
these cases; no other proof opens the definition of the step. -/

namespace VerilogInterface

namespace Assembly

inductive Takes (token : Token) (assembly : Assembly) : Assembly → Prop where
  | documentation (action : token.action = .documentation) :
      Takes token assembly (assembly.describe (Text.trim (token.group 0)))
  | sectionLabel (action : token.action = .sectionLabel) :
      Takes token assembly { assembly with
        markers := assembly.markers ++ [(assembly.declared, Text.trim (token.group 0))] }
  | guardEnter (action : token.action = .guardEnter) :
      Takes token assembly { assembly with guards := token.guard :: assembly.guards }
  | guardExit {guard : String} {outer : List String} (action : token.action = .guardExit)
      (inside : assembly.guards = guard :: outer) :
      Takes token assembly { assembly with guards := outer }
  | moduleStart (action : token.action = .moduleStart) :
      Takes token assembly (assembly.openModule (token.group 0))
  | parameterStart (action : token.action = .parameterStart) :
      Takes token assembly { assembly with
        parameterType := VerilogInterface.parameterType (token.group? 0) (token.group? 1) }
  | parameterItem (action : token.action = .parameterItem) :
      Takes token assembly (assembly.addGeneric (token.group 0) (token.group 1))
  | portStart {head : PortHead} (action : token.action = .portStart)
      (read : PortHead.parse (token.group 1) = some head) (unnamed : head.name = none) :
      Takes token assembly (assembly.settle.underHead (token.group 0) head)
  | namedPortStart {head : PortHead} {name : String} (action : token.action = .portStart)
      (read : PortHead.parse (token.group 1) = some head) (named : head.name = some name) :
      Takes token assembly ((assembly.settle.underHead (token.group 0) head).addWaiting name)
  | portName (action : token.action = .portName) :
      Takes token assembly (assembly.addWaiting (token.group 0))
  | moduleEnd (action : token.action = .moduleEnd) (outside : assembly.guards = []) :
      Takes token assembly assembly.settle.fileModule
  | comment (action : token.action = .commentStart ∨ token.action = .commentEnd) :
      Takes token assembly assembly

inductive Refuses (text : String) (token : Token) (assembly : Assembly) :
    Assembly → ParseError → Prop where
  | guardExit (action : token.action = .guardExit) (outside : assembly.guards = []) :
      Refuses text token assembly assembly (.unmatchedEndif (Text.lineAt text token.offset))
  | portStart (action : token.action = .portStart)
      (unreadable : PortHead.parse (token.group 1) = none) :
      Refuses text token assembly assembly.settle
        (.unknownPortFormat (token.group 0) (Text.trim (token.group 1))
          (Text.lineAt text token.offset))
  | moduleEnd {guard : String} {outer : List String} (action : token.action = .moduleEnd)
      (inside : assembly.guards = guard :: outer) :
      Refuses text token assembly assembly.settle
        (.unterminatedGuard guard (Text.lineAt text token.offset))

/-- A token is either taken up or refused. -/
theorem apply_cases (text : String) (assembly : Assembly) (token : Token) :
    (∃ next, assembly.apply text token = (next, none) ∧ Takes token assembly next) ∨
      ∃ next error, assembly.apply text token = (next, some error) ∧
        Refuses text token assembly next error := by
  cases action : token.action with
  | guardEnter => exact .inl ⟨_, by rw [apply, action]; rfl, .guardEnter action⟩
  | guardExit =>
    cases guards : assembly.guards with
    | nil => exact .inr ⟨_, _, by simp only [apply, action, guards], .guardExit action guards⟩
    | cons guard outer =>
      exact .inl ⟨_, by simp only [apply, action, guards], .guardExit action guards⟩
  | moduleStart => exact .inl ⟨_, by rw [apply, action], .moduleStart action⟩
  | moduleEnd =>
    cases guards : assembly.guards with
    | nil =>
      exact .inl ⟨_, by simp only [apply, action, closeModule, guards], .moduleEnd action guards⟩
    | cons guard outer =>
      exact .inr ⟨_, _, by simp only [apply, action, closeModule, guards],
        .moduleEnd action guards⟩
  | commentStart => exact .inl ⟨_, by rw [apply, action], .comment (.inl action)⟩
  | commentEnd => exact .inl ⟨_, by rw [apply, action], .comment (.inr action)⟩
  | documentation => exact .inl ⟨_, by rw [apply, action], .documentation action⟩
  | sectionLabel => exact .inl ⟨_, by rw [apply, action], .sectionLabel action⟩
  | parameterStart => exact .inl ⟨_, by rw [apply, action], .parameterStart action⟩
  | parameterItem => exact .inl ⟨_, by rw [apply, action], .parameterItem action⟩
  | portStart =>
    cases read : PortHead.parse (token.group 1) with
    | none => exact .inr ⟨_, _, by simp only [apply, action, openPorts, read], .portStart action read⟩
    | some head =>
      cases named : head.name with
      | none =>
        exact .inl ⟨_, by simp only [apply, action, openPorts, read, named],
          .portStart action read named⟩
      | some name =>
        exact .inl ⟨_, by simp only [apply, action, openPorts, read, named],
          .namedPortStart action read named⟩
  | portName => exact .inl ⟨_, by rw [apply, action], .portName action⟩

variable {text : String} {assembly next : Assembly} {token : Token} {error : ParseError}

theorem takes_of_apply (taken : assembly.apply text token = (next, none)) :
    Takes token assembly next := by
  rcases apply_cases text assembly token with ⟨after, applied, takes⟩ | ⟨after, error, applied, _⟩
  · cases applied.symm.trans taken
    exact takes
  · cases applied.symm.trans taken

theorem refuses_of_apply (refused : assembly.apply text token = (next, some error)) :
    Refuses text token assembly next error := by
  rcases apply_cases text assembly token with ⟨after, applied, _⟩ | ⟨after, error, applied, refuses⟩
  · cases applied.symm.trans refused
  · cases applied.symm.trans refused
    exact refuses

theorem apply_of_takes (text : String) (takes : Takes token assembly next) :
    assembly.apply text token = (next, none) := by
  cases takes with
  | comment action => rcases action with action | action <;> simp only [apply, action]
  | guardExit action inside => simp only [apply, action, inside]
  | portStart action read unnamed => simp only [apply, action, openPorts, read, unnamed]
  | namedPortStart action read named => simp only [apply, action, openPorts, read, named]
  | moduleEnd action outside => simp only [apply, action, closeModule, outside]
  | guardEnter action =>
    simp only [apply, action]
    rfl
  | _ action => simp only [apply, action]

theorem apply_of_refuses (refuses : Refuses text token assembly next error) :
    assembly.apply text token = (next, some error) := by
  cases refuses with
  | guardExit action outside => simp only [apply, action, outside]
  | portStart action unreadable => simp only [apply, action, openPorts, unreadable]
  | moduleEnd action inside => simp only [apply, action, closeModule, inside]

@[simp]
theorem describe_guards (line : String) : (assembly.describe line).guards = assembly.guards := by
  unfold describe
  split <;> rfl

@[simp]
theorem describe_modules (line : String) : (assembly.describe line).modules = assembly.modules := by
  unfold describe
  split <;> rfl

theorem Takes.guards (takes : Takes token assembly next) :
    next.guards = token.guards assembly.guards := by
  unfold Token.guards
  cases takes with
  | guardExit action inside => simp only [action, inside, List.tail_cons]
  | comment action => rcases action with action | action <;> simp only [action]
  | documentation action => simp only [action, describe_guards]
  | moduleEnd action outside =>
    simp only [action]
    rfl
  | _ => simp only [*] <;> rfl

end Assembly

end VerilogInterface
