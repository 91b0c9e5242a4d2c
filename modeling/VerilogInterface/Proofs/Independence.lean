import VerilogInterface.Proofs.Relocation
import VerilogInterface.Proofs.Spans

/-! The modules of one text do not depend on each other. Between two modules an assembly still holds
the types, the direction and the count that the former module left, but nothing reads them before
the latter sets them anew. -/

namespace VerilogInterface

namespace Assembly

def preceded (prior : List Module) (assembly : Assembly) : Assembly :=
  { assembly with modules := prior ++ assembly.modules }

/-- What the tokens make of the assembly if they are all there is. -/
def gather (text : String) (assembly : Assembly) (tokens : List Token) :
    Except ParseError (List Module) :=
  match assembly.run text tokens with
  | .error error => .error error
  | .ok last => last.finish text

end Assembly

/-- The assembly goes on as the fresh one does, with other modules finished before. Outside of
modules it may hold what a former module left. -/
inductive Echoes (prior : List Module) :
    Option (Token × List Token) → Assembly → Assembly → Prop where
  | inside {start : Token} {body : List Token} {fresh : Assembly} :
      Echoes prior (some (start, body)) fresh (fresh.preceded prior)
  | outside {fresh : Assembly} (declared : Nat) (parameterType : String) (direction : Direction)
      (portType : String) :
      Echoes prior none fresh
        { fresh.preceded prior with declared, parameterType, direction, portType }

/-- The tokens are all at home behind those that led here. -/
def AtHome (progress : Progress) (tokens : List Token) : Prop :=
  ∀ before token after, tokens = before ++ token :: after →
    token.Fits (before.foldl Progress.add progress).current

theorem atHome_tokens (text : String) : AtHome {} (tokens text) :=
  fun _ _ _ split => fits_of_tokens split

/-- The tokens up to the end of each module, and those behind the last end. -/
def segments : List Token → List (List Token) × List Token
  | [] => ([], [])
  | token :: rest =>
    if token.action = .moduleEnd then ([token] :: (segments rest).1, (segments rest).2)
    else match segments rest with
      | ([], tail) => ([], token :: tail)
      | (first :: others, tail) => ((token :: first) :: others, tail)

variable {text : String} {prior : List Module} {fresh assembly next : Assembly} {token : Token}
  {list : List Token} {progress : Progress} {current : Option (Token × List Token)}

theorem AtHome.append {first second : List Token} (home : AtHome progress (first ++ second)) :
    AtHome progress first ∧ AtHome (first.foldl Progress.add progress) second := by
  constructor
  · rintro before token after rfl
    exact home before token (after ++ second) (by simp)
  · rintro before token after rfl
    rw [← List.foldl_append]
    exact home (first ++ before) token after (by simp)

namespace Assembly

theorem describe_preceded (prior : List Module) (assembly : Assembly) (line : String) :
    (assembly.preceded prior).describe line = (assembly.describe line).preceded prior := by
  unfold describe preceded
  cases assembly.target with
  | none => rfl
  | some target => cases target <;> rfl

/-- Only the meaning of a token counts, not its place. -/
theorem Takes.moved (takes : Takes token assembly next) (bytes : Nat) :
    Takes (token.moved bytes) assembly next := by
  cases takes with
  | documentation action => exact .documentation action
  | sectionLabel action => exact .sectionLabel action
  | guardEnter action => exact .guardEnter action
  | guardExit action inside => exact .guardExit action inside
  | moduleStart action => exact .moduleStart action
  | parameterStart action => exact .parameterStart action
  | parameterItem action => exact .parameterItem action
  | portStart action read unnamed => exact .portStart action read unnamed
  | namedPortStart action read named => exact .namedPortStart action read named
  | portName action => exact .portName action
  | moduleEnd action outside => exact .moduleEnd action outside
  | comment action => exact .comment action

theorem Takes.preceded (takes : Takes token assembly next) (opened : token.action ≠ .moduleStart)
    (closed : token.action ≠ .moduleEnd) (prior : List Module) :
    Takes token (assembly.preceded prior) (next.preceded prior) := by
  cases takes with
  | documentation action =>
    rw [← describe_preceded]
    exact .documentation action
  | sectionLabel action => exact .sectionLabel action
  | guardEnter action => exact .guardEnter action
  | guardExit action inside => exact .guardExit action inside
  | moduleStart action => exact (opened action).elim
  | parameterStart action => exact .parameterStart action
  | parameterItem action => exact .parameterItem action
  | portStart action read unnamed => exact .portStart action read unnamed
  | namedPortStart action read named => exact .namedPortStart action read named
  | portName action => exact .portName action
  | moduleEnd action => exact (closed action).elim
  | comment action => exact .comment action

end Assembly

namespace Echoes

theorem guards (echoes : Echoes prior current fresh assembly) : assembly.guards = fresh.guards := by
  cases echoes <;> rfl

theorem modules (echoes : Echoes prior current fresh assembly) :
    assembly.modules = prior ++ fresh.modules := by
  cases echoes <;> rfl

private theorem describe (declared : Nat) (parameterType : String) (direction : Direction)
    (portType line : String) :
    ({ fresh.preceded prior with declared, parameterType, direction, portType } : Assembly).describe
        line =
      { (fresh.describe line).preceded prior with
        declared, parameterType, direction, portType } := by
  unfold Assembly.describe Assembly.preceded
  cases fresh.target with
  | none => rfl
  | some target => cases target <;> rfl

/-- Outside of modules no token reads what a former module left, and a beginning module resets it. -/
theorem takes (echoes : Echoes prior progress.current fresh assembly)
    (fits : token.Fits progress.current) (takes : Assembly.Takes token fresh next) :
    ∃ after, Assembly.Takes token assembly after ∧
      Echoes prior (progress.add token).current next after := by
  generalize inside : progress.current = current at echoes
  rw [inside] at fits
  cases echoes with
  | @inside start body _ =>
    have opened : token.action ≠ .moduleStart := by
      intro start
      simp [Token.Fits, start] at fits
    by_cases closed : token.action = .moduleEnd
    · rw [Progress.add_end closed]
      cases takes with
      | moduleEnd action outside =>
        have filed : (fresh.preceded prior).settle.fileModule =
            fresh.settle.fileModule.preceded prior := by
          simp [Assembly.preceded, Assembly.fileModule, Assembly.settle]
          rfl
        exact ⟨_, .moduleEnd action outside, filed ▸ .outside _ _ _ _⟩
      | _ => simp_all
    · rw [Progress.add_inside opened closed inside]
      exact ⟨_, takes.preceded opened closed prior, .inside⟩
  | outside declared parameterType direction portType =>
    have aside (opened : token.action ≠ .moduleStart) (closed : token.action ≠ .moduleEnd) :
        (progress.add token).current = none := by
      rw [Progress.add_outside opened closed inside, inside]
    cases takes with
    | documentation action =>
      rw [aside (by simp [action]) (by simp [action])]
      exact ⟨_, .documentation action, describe _ _ _ _ _ ▸ .outside _ _ _ _⟩
    | guardEnter action =>
      rw [aside (by simp [action]) (by simp [action])]
      exact ⟨_, .guardEnter action, .outside declared parameterType direction portType⟩
    | guardExit action inside =>
      rw [aside (by simp [action]) (by simp [action])]
      exact ⟨_, .guardExit action inside, .outside declared parameterType direction portType⟩
    | moduleStart action =>
      rw [Progress.add_start action]
      exact ⟨_, .moduleStart action, .inside⟩
    | comment action =>
      rw [aside (by rcases action with action | action <;> simp [action])
        (by rcases action with action | action <;> simp [action])]
      exact ⟨_, .comment action, .outside declared parameterType direction portType⟩
    | sectionLabel action | parameterStart action | parameterItem action | portStart action _ _
    | namedPortStart action _ _ | portName action | moduleEnd action _ =>
      simp [Token.Fits, action] at fits

theorem refuses (echoes : Echoes prior current fresh assembly) {error : ParseError}
    (refuses : Assembly.Refuses text token fresh next error) (first : String) :
    ∃ after, Assembly.Refuses (first ++ text) (token.moved first.utf8ByteSize) assembly after
      (error.behind first) := by
  cases refuses with
  | guardExit action outside =>
    rw [ParseError.behind, ParseError.moved, ← Text.lineAt_append]
    exact ⟨_, .guardExit action (echoes.guards.trans outside)⟩
  | portStart action unreadable =>
    rw [ParseError.behind, ParseError.moved, ← Text.lineAt_append]
    exact ⟨_, .portStart action unreadable⟩
  | moduleEnd action inside =>
    rw [ParseError.behind, ParseError.moved, ← Text.lineAt_append]
    exact ⟨_, .moduleEnd action (echoes.guards.trans inside)⟩

/-- A run over tokens at home ends alike with or without other modules finished before, also where
another text stands in front. -/
theorem run (first text : String) (echoes : Echoes prior progress.current fresh assembly)
    (home : AtHome progress list) :
    (∃ last after, fresh.run text list = .ok last ∧
      assembly.run (first ++ text) (list.map (·.moved first.utf8ByteSize)) = .ok after ∧
      Echoes prior (list.foldl Progress.add progress).current last after) ∨
    ∃ error, fresh.run text list = .error error ∧
      assembly.run (first ++ text) (list.map (·.moved first.utf8ByteSize)) =
        .error (error.behind first) := by
  induction list generalizing progress fresh assembly with
  | nil => exact .inl ⟨fresh, assembly, rfl, rfl, echoes⟩
  | cons token rest ih =>
    rw [← List.singleton_append] at home
    obtain ⟨here, later⟩ := home.append
    rcases Assembly.apply_cases text fresh token with ⟨next, taken, takes⟩ | ⟨_, _, refused, refuses⟩
    · obtain ⟨after, takes', onward⟩ := echoes.takes (here [] token [] rfl) takes
      rw [Assembly.run_cons_of_ok rest taken, List.map_cons,
        Assembly.run_cons_of_ok _ (Assembly.apply_of_takes _ (takes'.moved _))]
      exact ih onward later
    · obtain ⟨after, refuses'⟩ := echoes.refuses refuses first
      rw [Assembly.run_cons_of_error rest refused, List.map_cons,
        Assembly.run_cons_of_error _ (Assembly.apply_of_refuses refuses')]
      exact .inr ⟨_, rfl, rfl⟩

/-- The same within one text. -/
theorem run_same (text : String) (echoes : Echoes prior progress.current fresh assembly)
    (home : AtHome progress list) :
    (∃ last after, fresh.run text list = .ok last ∧ assembly.run text list = .ok after ∧
      Echoes prior (list.foldl Progress.add progress).current last after) ∨
    ∃ error, fresh.run text list = .error error ∧ assembly.run text list = .error error := by
  have still : list.map (·.moved ("" : String).utf8ByteSize) = list := List.map_id list
  rcases run "" text echoes home with ⟨last, after, ran, ran', onward⟩ | ⟨error, ran, ran'⟩
  · rw [still, String.empty_append] at ran'
    exact .inl ⟨last, after, ran, ran', onward⟩
  · rw [still, String.empty_append] at ran'
    refine .inr ⟨error, ran, ran'.trans ?_⟩
    cases error <;> rfl

theorem trans {others : List Module} {last : Assembly} (one : Echoes others none fresh assembly)
    (two : Echoes prior none assembly last) : Echoes (prior ++ others) none fresh last := by
  cases one
  cases two
  have same (modules : List Module) : prior ++ (others ++ modules) = prior ++ others ++ modules :=
    (List.append_assoc _ _ _).symm
  simp only [Assembly.preceded, same]
  exact .outside _ _ _ _

end Echoes

/-- Behind the end of a module an assembly is as good as new. -/
theorem Assembly.Takes.restarts (takes : Assembly.Takes token assembly next)
    (stop : token.action = .moduleEnd) : Echoes next.modules none {} next ∧ next.guards = [] := by
  cases takes with
  | moduleEnd action outside =>
    have filed : assembly.settle.fileModule =
        { ({} : Assembly).preceded assembly.settle.fileModule.modules with
          declared := assembly.declared
          parameterType := assembly.parameterType
          direction := assembly.direction
          portType := assembly.portType } := by
      simp [Assembly.fileModule, Assembly.settle, Assembly.preceded, outside]
    have stale := @Echoes.outside assembly.settle.fileModule.modules {} assembly.declared
      assembly.parameterType assembly.direction assembly.portType
    rw [← filed] at stale
    exact ⟨stale, outside⟩
  | comment action => rcases action with action | action <;> simp [action] at stop
  | _ => simp_all

/-- Every list of tokens is made of its segments; each but the last ends a module, and none has
another end inside. -/
theorem segments_spec (list : List Token) :
    list = (segments list).1.flatten ++ (segments list).2 ∧
      (∀ segment ∈ (segments list).1, ∃ body stop, segment = body ++ [stop] ∧
        stop.action = .moduleEnd ∧ ∀ token ∈ body, token.action ≠ .moduleEnd) ∧
      ∀ token ∈ (segments list).2, token.action ≠ .moduleEnd := by
  induction list with
  | nil => simp [segments]
  | cons token rest ih =>
    obtain ⟨whole, ends, tail⟩ := ih
    rw [segments]
    by_cases stop : token.action = .moduleEnd
    · rw [if_pos stop]
      refine ⟨congrArg (token :: ·) whole, ?_, tail⟩
      refine List.forall_mem_cons.2 ⟨⟨[], token, rfl, stop, nofun⟩, ends⟩
    · rw [if_neg stop]
      generalize segments rest = cut at whole ends tail
      obtain ⟨pieces, last⟩ := cut
      cases pieces with
      | nil => exact ⟨congrArg (token :: ·) whole, nofun, List.forall_mem_cons.2 ⟨stop, tail⟩⟩
      | cons first others =>
        obtain ⟨⟨body, final, rfl, ending, inside⟩, later⟩ := List.forall_mem_cons.1 ends
        refine ⟨congrArg (token :: ·) whole, List.forall_mem_cons.2 ⟨?_, later⟩, tail⟩
        exact ⟨token :: body, final, rfl, ending, List.forall_mem_cons.2 ⟨stop, inside⟩⟩

namespace Assembly

theorem gather_append (first second : List Token) :
    assembly.gather text (first ++ second) =
      match assembly.run text first with
      | .error error => .error error
      | .ok middle => middle.gather text second := by
  rw [gather, run_append]
  cases assembly.run text first <;> rfl

theorem gather_eq_ok_iff {modules : List Module} :
    assembly.gather text list = .ok modules ↔
      ∃ last, assembly.run text list = .ok last ∧ last.guards = [] ∧ last.modules = modules := by
  unfold gather finish
  cases assembly.run text list with
  | error error => simp
  | ok last => cases guards : last.guards <;> simp [guards]

theorem run_modules {last : Assembly} (ran : assembly.run text list = .ok last)
    (within : ∀ token ∈ list, token.action ≠ .moduleEnd) : last.modules = assembly.modules := by
  obtain ⟨added, grown, count⟩ := run_grows ran
  have none : ended list = 0 := List.countP_eq_zero.2 (by simpa using within)
  rw [none, List.length_eq_zero_iff] at count
  rw [grown, count, List.append_nil]

/-- A run that ends a module has made this one module, and starts anew behind it. -/
theorem run_segment {last : Assembly} {body : List Token} {stop : Token}
    (ran : ({} : Assembly).run text (body ++ [stop]) = .ok last) (action : stop.action = .moduleEnd)
    (within : ∀ token ∈ body, token.action ≠ .moduleEnd) :
    ∃ module, ({} : Assembly).gather text (body ++ [stop]) = .ok [module] ∧
      Echoes [module] none {} last := by
  obtain ⟨middle, reached, taken⟩ := run_concat_eq_ok ran
  have takes := takes_of_apply taken
  have one : last.modules = [middle.settle.finished] := by
    rw [takes.modules, if_pos action, run_modules reached within]
    rfl
  obtain ⟨restarts, outside⟩ := takes.restarts action
  rw [one] at restarts
  exact ⟨_, gather_eq_ok_iff.2 ⟨last, ran, outside, one⟩, restarts⟩

end Assembly

/-- Tokens that end no module add none to those in front of them. -/
theorem Echoes.gather_unended {tail : List Token} (echoes : Echoes prior none {} assembly)
    (outside : progress.current = none) (home : AtHome progress tail)
    (last : ∀ token ∈ tail, token.action ≠ .moduleEnd) (modules : List Module) :
    assembly.gather text tail = .ok modules ↔
      modules = prior ∧ ({} : Assembly).gather text tail = .ok [] := by
  rcases run_same text (outside ▸ echoes) home with
    ⟨next, after, ran, ran', onward⟩ | ⟨error, ran, ran'⟩
  · have none : next.modules = [] := Assembly.run_modules ran last
    have alone : ({} : Assembly).gather text tail = .ok [] ↔ next.guards = [] := by
      simp [Assembly.gather_eq_ok_iff, ran, none]
    have whole : assembly.gather text tail = .ok modules ↔ next.guards = [] ∧ prior = modules := by
      simp [Assembly.gather_eq_ok_iff, ran', onward.guards, onward.modules, none]
    rw [alone, whole, and_comm, eq_comm]
  · simp [Assembly.gather_eq_ok_iff, ran, ran']

/-- What a run over segments gives behind other modules is what the segments give by themselves. -/
theorem Echoes.gather_segments {pieces : List (List Token)} {tail : List Token}
    (echoes : Echoes prior none {} assembly) (outside : progress.current = none)
    (home : AtHome progress (pieces.flatten ++ tail))
    (ends : ∀ piece ∈ pieces, ∃ body stop, piece = body ++ [stop] ∧ stop.action = .moduleEnd ∧
      ∀ token ∈ body, token.action ≠ .moduleEnd)
    (last : ∀ token ∈ tail, token.action ≠ .moduleEnd) (modules : List Module) :
    assembly.gather text (pieces.flatten ++ tail) = .ok modules ↔
      ∃ own, modules = prior ++ own ∧
        List.Forall₂ (fun piece module => ({} : Assembly).gather text piece = .ok [module])
          pieces own ∧ ({} : Assembly).gather text tail = .ok [] := by
  induction pieces generalizing prior assembly progress with
  | nil =>
    rw [List.flatten_nil, List.nil_append] at home ⊢
    rw [echoes.gather_unended outside home last]
    constructor
    · rintro ⟨rfl, balanced⟩
      exact ⟨[], (List.append_nil _).symm, .nil, balanced⟩
    · rintro ⟨own, rfl, gathers, balanced⟩
      cases gathers
      exact ⟨List.append_nil _, balanced⟩
  | cons piece pieces ih =>
    obtain ⟨⟨body, stop, rfl, action, within⟩, others⟩ := List.forall_mem_cons.1 ends
    rw [List.flatten_cons, List.append_assoc] at home ⊢
    obtain ⟨here, later⟩ := home.append
    rw [Assembly.gather_append]
    rcases run_same text (outside ▸ echoes) here with
      ⟨next, after, ran, ran', onward⟩ | ⟨error, ran, ran'⟩
    · obtain ⟨module, one, restarts⟩ := Assembly.run_segment ran action within
      have closed : ((body ++ [stop]).foldl Progress.add progress).current = none := by
        rw [List.foldl_append]
        exact congrArg Progress.current (Progress.add_end action)
      rw [closed] at onward
      rw [ran']
      simp only [ih (restarts.trans onward) closed later others]
      constructor
      · rintro ⟨own, rfl, gathers, rest⟩
        exact ⟨module :: own, by simp, .cons one gathers, rest⟩
      · rintro ⟨_, rfl, gathers, rest⟩
        cases gathers with
        | cons first gathers =>
          cases one.symm.trans first
          exact ⟨_, by simp, gathers, rest⟩
    · rw [ran']
      simp only [reduceCtorEq, false_iff]
      rintro ⟨_, rfl, gathers, _⟩
      cases gathers with
      | cons first _ => simp [Assembly.gather, ran] at first

/-- A text whose scan is complete gives the modules that its segments give one by one, each read by
itself; a segment that gives no module or a tail that leaves a guard open fails the text. -/
theorem parse_eq_ok_iff_segments {text : String} (scanned : ending text = .complete)
    (modules : List Module) :
    parse text = .ok modules ↔
      List.Forall₂ (fun segment module => ({} : Assembly).gather text segment = .ok [module])
        (segments (tokens text)).1 modules ∧
      ({} : Assembly).gather text (segments (tokens text)).2 = .ok [] := by
  obtain ⟨whole, ends, tail⟩ := segments_spec (tokens text)
  have home := atHome_tokens text
  rw [whole] at home
  have gathered : parse text = ({} : Assembly).gather text (tokens text) := by
    rw [parse_eq_run, scanned]
    rfl
  have fresh : Echoes [] none {} {} := .outside _ _ _ _
  rw [gathered, whole, fresh.gather_segments rfl home ends tail, ← whole]
  simp

/-- The second module has no parameters and one port of its own, whatever the first one has. -/
theorem segments_give_two_modules :
    ∃ first second,
      parse "//# A.\nmodule a #(parameter N = 1) (output [3:0] x, y);\nendmodule\nmodule b (inout z);\nendmodule\n" =
        .ok [first, second] ∧
      second = { name := "b", ports := [{ name := "z", direction := some .inout, dataType := "" }] } ∧
      List.Forall₂
        (fun segment module =>
          ({} : Assembly).gather
              "//# A.\nmodule a #(parameter N = 1) (output [3:0] x, y);\nendmodule\nmodule b (inout z);\nendmodule\n"
              segment =
            .ok [module])
        (segments (tokens
          "//# A.\nmodule a #(parameter N = 1) (output [3:0] x, y);\nendmodule\nmodule b (inout z);\nendmodule\n")).1
        [first, second] := by
  have scanned : ending
      "//# A.\nmodule a #(parameter N = 1) (output [3:0] x, y);\nendmodule\nmodule b (inout z);\nendmodule\n" =
        .complete := by
    decide +kernel
  have parsed : parse
      "//# A.\nmodule a #(parameter N = 1) (output [3:0] x, y);\nendmodule\nmodule b (inout z);\nendmodule\n" =
        .ok [
          { name := "a"
            ports := [
              { name := "x", direction := some .output, dataType := "[3:0]" },
              { name := "y", direction := some .output, dataType := "[3:0]" }]
            generics := [
              { name := "N", direction := some .into, dataType := "", defaultValue := some "1" }]
            description := some ["A."] },
          { name := "b", ports := [{ name := "z", direction := some .inout, dataType := "" }] }] := by
    decide +kernel
  exact ⟨_, _, parsed, rfl, ((parse_eq_ok_iff_segments scanned _).1 parsed).1⟩

end VerilogInterface
