import Mathlib.Data.List.Induction
import VerilogInterface.Proofs.Nesting

/-! The stretches of a token list. Behind the end of each module lies the lead of the next one, and
behind its beginning its body; in the tokens of a text a list member has the head of its list
before it in the same body. -/

namespace VerilogInterface

/-- Where a list of tokens stands: the tokens up to the end of the last finished module, those since
then and before the module now open, and that module's first token with the tokens since. -/
structure Progress where
  passed : List Token := []
  lead : List Token := []
  current : Option (Token × List Token) := none

namespace Progress

def stretch (progress : Progress) : List Token :=
  match progress.current with
  | some (start, body) => start :: body
  | none => []

def tokens (progress : Progress) : List Token :=
  progress.passed ++ progress.lead ++ progress.stretch

def add (progress : Progress) (token : Token) : Progress :=
  match token.action, progress.current with
  | .moduleEnd, _ => { passed := progress.tokens ++ [token] }
  | .moduleStart, _ =>
    { progress with lead := progress.lead ++ progress.stretch, current := some (token, []) }
  | _, some (start, body) => { progress with current := some (start, body ++ [token]) }
  | _, none => { progress with lead := progress.lead ++ [token] }

variable {progress : Progress} {token : Token}

theorem add_start (start : token.action = .moduleStart) :
    progress.add token =
      { progress with lead := progress.lead ++ progress.stretch, current := some (token, []) } := by
  simp only [add, start]

theorem add_end (stop : token.action = .moduleEnd) :
    progress.add token = { passed := progress.tokens ++ [token] } := by
  simp only [add, stop]

theorem add_inside {start : Token} {body : List Token} (opened : token.action ≠ .moduleStart)
    (closed : token.action ≠ .moduleEnd) (inside : progress.current = some (start, body)) :
    progress.add token = { progress with current := some (start, body ++ [token]) } := by
  unfold add
  split <;> simp_all

theorem add_outside (opened : token.action ≠ .moduleStart) (closed : token.action ≠ .moduleEnd)
    (outside : progress.current = none) :
    progress.add token = { progress with lead := progress.lead ++ [token] } := by
  unfold add
  split <;> simp_all

theorem tokens_add (progress : Progress) (token : Token) :
    (progress.add token).tokens = progress.tokens ++ [token] := by
  unfold add
  split
  · simp [tokens, stretch]
  · simp [tokens, stretch]
  · next inside _ _ => simp [tokens, stretch, inside]
  · next outside _ _ => simp [tokens, stretch, outside]

end Progress

def progress (tokens : List Token) : Progress := tokens.foldl Progress.add {}

theorem progress_concat (tokens : List Token) (token : Token) :
    progress (tokens ++ [token]) = (progress tokens).add token := by
  simp [progress]

theorem tokens_progress (tokens : List Token) : (progress tokens).tokens = tokens := by
  induction tokens using List.reverseRecOn with
  | nil => rfl
  | append_singleton tokens token ih => rw [progress_concat, Progress.tokens_add, ih]

theorem split_of_progress {tokens body : List Token} {start : Token}
    (inside : (progress tokens).current = some (start, body)) :
    tokens = (progress tokens).passed ++ (progress tokens).lead ++ start :: body := by
  have whole := tokens_progress tokens
  rw [Progress.tokens, Progress.stretch, inside] at whole
  exact whole.symm

theorem mem_of_progress {tokens body : List Token} {start token : Token}
    (inside : (progress tokens).current = some (start, body)) (member : token ∈ body) :
    token ∈ tokens := by
  rw [split_of_progress inside]
  exact List.mem_append_right _ (List.mem_cons_of_mem _ member)

/-- The token is at home where the open module, if any, is as given. -/
def Token.Fits (token : Token) (current : Option (Token × List Token)) : Prop :=
  match token.action, current with
  | .moduleStart, current => current = none
  | .parameterItem, current =>
    ∃ start body, current = some (start, body) ∧ ∃ head ∈ body, head.action = .parameterStart
  | .portName, current =>
    ∃ start body, current = some (start, body) ∧ ∃ head ∈ body, head.action = .portStart
  | .moduleEnd, current | .sectionLabel, current | .parameterStart, current
  | .portStart, current => current.isSome
  | _, _ => True

/-- The states entered by the scan agree with the open module. -/
inductive Agrees : List State → Option (Token × List Token) → Prop where
  | outside : Agrees [] none
  | module {start : Token} {body : List Token} : Agrees [.module] (some (start, body))
  | parameters {start : Token} {body : List Token}
      (headed : ∃ head ∈ body, head.action = .parameterStart) :
      Agrees [.parameters, .module] (some (start, body))
  | ports {start : Token} {body : List Token}
      (headed : ∃ head ∈ body, head.action = .portStart) :
      Agrees [.modulePort, .module] (some (start, body))
  | comment {stack : List State} {current : Option (Token × List Token)}
      (agrees : Agrees stack current) (plain : stack.head? ≠ some .blockComment) :
      Agrees (.blockComment :: stack) current

theorem Agrees.nested {stack : List State} {current : Option (Token × List Token)}
    (agrees : Agrees stack current) : Nested stack := by
  induction agrees with
  | outside => exact .outside
  | module => exact .module
  | parameters => exact .parameters
  | ports => exact .ports
  | comment _ plain ih => exact .comment ih plain

theorem Agrees.silent {stack after : List State} {current : Option (Token × List Token)}
    (agrees : Agrees stack current) (shift : Shift stack none after) : Agrees after current := by
  cases shift with
  | skip => exact agrees
  | closeParameters =>
    cases agrees
    exact .module
  | closePorts =>
    cases agrees
    exact .module

private theorem Agrees.aside {stack : List State} {progress : Progress} {token : Token}
    (agrees : Agrees stack progress.current) (opened : token.action ≠ .moduleStart)
    (closed : token.action ≠ .moduleEnd) : Agrees stack (progress.add token).current := by
  cases inside : progress.current with
  | none =>
    rw [inside] at agrees
    rwa [Progress.add_outside opened closed inside, inside]
  | some current =>
    obtain ⟨start, body⟩ := current
    rw [Progress.add_inside opened closed inside]
    rw [inside] at agrees
    generalize same : some (start, body) = current at agrees
    induction agrees with
    | outside => cases same
    | module => exact .module
    | parameters headed =>
      cases same
      obtain ⟨head, member, action⟩ := headed
      exact .parameters ⟨head, List.mem_append_left _ member, action⟩
    | ports headed =>
      cases same
      obtain ⟨head, member, action⟩ := headed
      exact .ports ⟨head, List.mem_append_left _ member, action⟩
    | comment _ plain ih => exact .comment (ih same) plain

/-- A token that the nesting admits is at home. -/
theorem Agrees.fits {stack after : List State} {current : Option (Token × List Token)}
    {token : Token} {action : Action} (agrees : Agrees stack current)
    (meaning : token.action = action) (shift : Shift stack (some action) after) :
    token.Fits current := by
  unfold Token.Fits
  rw [meaning]
  cases shift with
  | aside plain kind => rcases kind with rfl | rfl | rfl <;> trivial
  | openComment | closeComment => trivial
  | label inside => rcases inside with rfl | rfl <;> cases agrees <;> rfl
  | openModule | closeModule | openParameters | moreParameters | openPorts | morePorts =>
    cases agrees
    rfl
  | parameter =>
    cases agrees with
    | parameters headed => exact ⟨_, _, rfl, headed⟩
  | port =>
    cases agrees with
    | ports headed => exact ⟨_, _, rfl, headed⟩

/-- Behind a token that the nesting admits the states agree with the open module again. -/
theorem Agrees.shift {stack after : List State} {progress : Progress} {token : Token}
    {action : Action} (agrees : Agrees stack progress.current) (meaning : token.action = action)
    (shift : Shift stack (some action) after) : Agrees after (progress.add token).current := by
  cases shift with
  | aside plain kind =>
    rcases kind with rfl | rfl | rfl <;>
      exact agrees.aside (by simp [meaning]) (by simp [meaning])
  | label | moreParameters | parameter | morePorts | port =>
    exact agrees.aside (by simp [meaning]) (by simp [meaning])
  | openModule =>
    rw [Progress.add_start meaning]
    exact .module
  | closeModule =>
    rw [Progress.add_end meaning]
    exact .outside
  | openParameters =>
    generalize inside : progress.current = current at agrees
    cases agrees
    rw [Progress.add_inside (by simp [meaning]) (by simp [meaning]) inside]
    exact .parameters ⟨token, by simp, meaning⟩
  | openPorts =>
    generalize inside : progress.current = current at agrees
    cases agrees
    rw [Progress.add_inside (by simp [meaning]) (by simp [meaning]) inside]
    exact .ports ⟨token, by simp, meaning⟩
  | openComment plain =>
    exact .comment (agrees.aside (by simp [meaning]) (by simp [meaning])) plain
  | closeComment =>
    generalize inside : progress.current = current at agrees
    cases agrees with
    | comment agrees =>
      rw [← inside] at agrees
      exact agrees.aside (by simp [meaning]) (by simp [meaning])

/-- Wherever a scan begins in agreement with the tokens before it, its own tokens are at home. -/
theorem Scanner.fits_of_agrees (scanner : Scanner) :
    ∀ earlier : List Token, Agrees scanner.entered (progress earlier).current →
      ∀ before token after, scanner.tokens = before ++ token :: after →
        token.Fits (progress (earlier ++ before)).current := by
  induction scanner using Scanner.scan_induction with
  | ended scanner found =>
    intro earlier _ before token after split
    rw [(tokens_of_ended found).1] at split
    simp at split
  | stopped scanner error next found =>
    intro earlier _ before token after split
    rw [(tokens_of_stopped found).1] at split
    simp at split
  | moved scanner lexeme next found ih =>
    intro earlier agrees before token after split
    have shift := shift_of_step agrees.nested found
    rw [(tokens_of_moved found).1] at split
    cases meaning : lexeme.action with
    | none =>
      rw [meaning] at shift
      simp only [Lexeme.token?, meaning, Option.map_none, Option.toList_none,
        List.nil_append] at split
      exact ih earlier (agrees.silent shift) before token after split
    | some action =>
      rw [meaning] at shift
      simp only [Lexeme.token?, meaning, Option.map_some, Option.toList_some,
        List.singleton_append] at split
      cases before with
      | nil =>
        cases split
        rw [List.append_nil]
        exact agrees.fits rfl shift
      | cons first before =>
        rw [List.cons_append] at split
        obtain ⟨rfl, rest⟩ := List.cons.inj split
        rw [List.append_cons]
        refine ih _ ?_ before token after rest
        rw [progress_concat]
        exact agrees.shift rfl shift

/-- Every token of a text is at home behind the tokens before it. -/
theorem fits_of_tokens {text : String} {before after : List Token} {token : Token}
    (split : tokens text = before ++ token :: after) : token.Fits (progress before).current :=
  (Scanner.start text).fits_of_agrees [] .outside before token after split

end VerilogInterface
