import VerilogInterface.Proofs.Assembling

/-! The tokens of each module of a text. Every module that comes out of a text belongs to one span
of its tokens, from the end of the module before it to its own end. -/

namespace VerilogInterface

def Token.bounds (token : Token) : Bool :=
  token.action == .moduleStart || token.action == .moduleEnd

def ended (tokens : List Token) : Nat := tokens.countP (·.action == .moduleEnd)

theorem ended_append (first second : List Token) :
    ended (first ++ second) = ended first + ended second := List.countP_append

theorem ended_of_plain {tokens : List Token} (plain : ∀ token ∈ tokens, token.bounds = false) :
    ended tokens = 0 := by
  refine List.countP_eq_zero.2 fun token member => ?_
  have silent := plain token member
  simp_all [Token.bounds]

/-- The tokens of a text up to the end of one of its modules: those up to the end of the module
before it, those between the two modules, its first token, those inside it and its last token. -/
structure Span where
  passed : List Token
  lead : List Token
  start : Token
  body : List Token
  stop : Token

namespace Span

def tokens (span : Span) : List Token :=
  span.passed ++ span.lead ++ [span.start] ++ span.body ++ [span.stop]

/-- The tokens inside the module, each with those before it in the text and those after it in the
module. -/
def places (span : Span) : List Place :=
  placesFrom (span.passed ++ span.lead ++ [span.start]) span.body

def items (span : Span) : List Item :=
  VerilogInterface.items (span.passed ++ span.lead ++ [span.start]) span.body

/-- The span is that of the module with this many modules before it. -/
structure Within (span : Span) (tokens : List Token) (index : Nat) : Prop where
  split : ∃ after, tokens = span.tokens ++ after
  earlier : ended span.passed = index
  passed : ∀ last ∈ span.passed.getLast?, last.action = .moduleEnd
  lead : ∀ token ∈ span.lead, token.bounds = false
  start : span.start.action = .moduleStart
  body : ∀ token ∈ span.body, token.bounds = false
  stop : span.stop.action = .moduleEnd

theorem Within.append {span : Span} {tokens : List Token} {index : Nat}
    (within : span.Within tokens index) (rest : List Token) :
    span.Within (tokens ++ rest) index := by
  obtain ⟨after, split⟩ := within.split
  exact { within with split := ⟨after ++ rest, by rw [split, List.append_assoc]⟩ }

/-- The module is the one that the tokens of the span declare, its sections left out. -/
structure Makes (span : Span) (module : Module) : Prop where
  name : module.name = span.start.group 0
  guard : module.guard = (openGuards (span.passed ++ span.lead)).head?
  ports : module.ports = Ordered.sort (fun first second => first.name ≤ second.name)
    (placed (span.items.filterMap Item.port?))
  generics : module.generics = span.items.filterMap Item.generic?
  description : module.description =
    if (documentationLines (span.lead ++ untilItem span.body)).isEmpty then none
    else some (documentationLines (span.lead ++ untilItem span.body))

end Span

structure Progress.Clean (progress : Progress) : Prop where
  passed : ∀ last ∈ progress.passed.getLast?, last.action = .moduleEnd
  lead : ∀ token ∈ progress.lead, token.bounds = false
  current : ∀ start body, progress.current = some (start, body) →
    start.action = .moduleStart ∧ ∀ token ∈ body, token.bounds = false

variable {token : Token} {assembly next : Assembly}

section
variable {progress : Progress}

theorem Progress.Clean.add (clean : progress.Clean) (fits : token.Fits progress.current) :
    (progress.add token).Clean := by
  by_cases start : token.action = .moduleStart
  · have outside : progress.current = none := by simpa only [Token.Fits, start] using fits
    rw [Progress.add_start start, stretch, outside]
    refine ⟨clean.passed, by simpa using clean.lead, ?_⟩
    rintro _ _ ⟨⟩
    exact ⟨start, by simp⟩
  by_cases stop : token.action = .moduleEnd
  · rw [Progress.add_end stop]
    exact ⟨by simpa using stop, by simp, by simp⟩
  have plain : token.bounds = false := by simp [Token.bounds, start, stop]
  cases inside : progress.current with
  | none =>
    rw [Progress.add_outside start stop inside]
    refine ⟨clean.passed, ?_, ?_⟩
    · simpa [or_imp, forall_and, plain] using clean.lead
    · intro first body same
      rw [inside] at same
      contradiction
  | some current =>
    obtain ⟨first, body⟩ := current
    obtain ⟨begins, silent⟩ := clean.current first body inside
    rw [Progress.add_inside start stop inside]
    refine ⟨clean.passed, clean.lead, ?_⟩
    rintro _ _ ⟨⟩
    refine ⟨begins, ?_⟩
    simpa [or_imp, forall_and, plain] using silent

/-- Between modules only documentation is kept. Inside one its tokens tell everything. -/
inductive Stands (passed lead : List Token) : Option (Token × List Token) → Assembly → Prop where
  | outside {assembly : Assembly} (target : assembly.target = none)
      (documentation : assembly.documentation = documentationLines lead) :
      Stands passed lead none assembly
  | inside {start : Token} {body : List Token} {assembly : Assembly}
      (builds : Builds passed lead start body assembly) (headed : Headed body assembly) :
      Stands passed lead (some (start, body)) assembly

theorem Stands.takes (stands : Stands progress.passed progress.lead progress.current assembly)
    (guards : assembly.guards = openGuards progress.tokens) (fits : token.Fits progress.current)
    (takes : Assembly.Takes token assembly next) :
    Stands (progress.add token).passed (progress.add token).lead (progress.add token).current
      next := by
  generalize inside : progress.current = current at stands
  rw [inside] at fits
  cases stands with
  | outside target documentation =>
    have guards : assembly.guards.head? = (openGuards (progress.passed ++ progress.lead)).head? := by
      simp [guards, Progress.tokens, Progress.stretch, inside]
    cases takes with
    | moduleStart action =>
      rw [Progress.add_start action, Progress.stretch, inside, List.append_nil]
      have documented : assembly.documentation = documentationLines (progress.lead ++ []) := by
        rw [List.append_nil, documentation]
      refine .inside ⟨rfl, guards, documented, ⟨rfl, ⟨[], rfl, rfl⟩, .none⟩, ?_⟩ ?_
      · intro _ found
        cases found
      · intro _ found
        cases found
    | documentation action =>
      rw [Progress.add_outside (by simp [action]) (by simp [action]) inside, inside]
      simp only [Assembly.describe, target]
      refine .outside rfl ?_
      rw [documentation, documentationLines_append]
      simp [documentationLines, action]
    | guardEnter action | guardExit action =>
      rw [Progress.add_outside (by simp [action]) (by simp [action]) inside, inside]
      refine .outside target ?_
      rw [documentationLines_append, ← documentation]
      simp [documentationLines, action]
    | comment action =>
      have silent : token.action ≠ .documentation ∧ token.action ≠ .moduleStart ∧
          token.action ≠ .moduleEnd := by
        rcases action with action | action <;> simp [action]
      rw [Progress.add_outside silent.2.1 silent.2.2 inside, inside]
      refine .outside target ?_
      rw [documentationLines_append, ← documentation]
      simp [documentationLines, silent.1]
    | sectionLabel action | parameterStart action | parameterItem action | portStart action _ _
    | namedPortStart action _ _ | portName action | moduleEnd action _ =>
      simp [Token.Fits, action] at fits
  | @inside start body _ builds headed =>
    have opened : token.action ≠ .moduleStart := by
      intro start
      simp [Token.Fits, start] at fits
    by_cases stop : token.action = .moduleEnd
    · rw [Progress.add_end stop]
      cases takes with
      | moduleEnd => exact .outside rfl rfl
      | _ => simp_all
    · rw [Progress.add_inside opened stop inside]
      have guards : assembly.guards =
          openGuards (progress.passed ++ progress.lead ++ [start] ++ body) := by
        rw [guards, Progress.tokens, Progress.stretch, inside, List.append_assoc _ [start]]
        rfl
      obtain ⟨builds, headed⟩ := builds.takes headed guards fits opened stop takes
      exact .inside builds headed

/-- The module that an assembly files is the one that the tokens of the open module declare. -/
theorem Builds.makes {passed lead body : List Token} {start stop : Token}
    (builds : Builds passed lead start body assembly) :
    (Span.mk passed lead start body stop).Makes assembly.settle.finished where
  name := by
    show assembly.moduleName.getD "" = start.group 0
    rw [builds.name]
    rfl
  guard := builds.guard
  ports := by
    show Ordered.sort _ assembly.settle.ports = _
    rw [builds.collects.ports_settle]
    rfl
  generics := builds.collects.generics
  description := by
    show (if assembly.documentation.isEmpty then none else some assembly.documentation) = _
    rw [builds.documentation]

theorem Assembly.Takes.modules (takes : Assembly.Takes token assembly next) :
    next.modules =
      assembly.modules ++ if token.action = .moduleEnd then [assembly.settle.finished] else [] := by
  cases takes with
  | moduleEnd action =>
    rw [if_pos action]
    rfl
  | documentation action => simp [action]
  | comment action => rcases action with action | action <;> simp [action]
  | _ =>
    simp_all [Assembly.openModule, Assembly.settle, Assembly.underHead, Assembly.addWaiting,
      Assembly.addGeneric]

/-- A run files as many modules as end in its tokens, behind those it began with. -/
theorem Assembly.run_grows {text : String} {tokens : List Token} {last : Assembly}
    (ran : assembly.run text tokens = .ok last) :
    ∃ added, last.modules = assembly.modules ++ added ∧ added.length = ended tokens := by
  induction tokens generalizing assembly with
  | nil =>
    cases ran
    exact ⟨[], (List.append_nil _).symm, rfl⟩
  | cons token rest ih =>
    rw [← List.singleton_append] at ran
    obtain ⟨middle, taken, rest⟩ := run_append_eq_ok ran
    obtain ⟨added, grown, count⟩ := ih rest
    have takes := (takes_of_apply (run_singleton_eq_ok.1 taken)).modules
    refine ⟨_, by rw [grown, takes, List.append_assoc], ?_⟩
    rw [List.length_append, count, ended, ended, List.countP_cons, Nat.add_comm]
    by_cases stop : token.action = .moduleEnd <;> simp [stop]

theorem Progress.Clean.ended (clean : progress.Clean) :
    ended progress.tokens = ended progress.passed := by
  have stretch : VerilogInterface.ended progress.stretch = 0 := by
    unfold stretch
    cases inside : progress.current with
    | none => rfl
    | some current =>
      obtain ⟨start, body⟩ := current
      obtain ⟨begins, silent⟩ := clean.current start body inside
      show VerilogInterface.ended ([start] ++ body) = 0
      rw [ended_append, ended_of_plain silent]
      simp [VerilogInterface.ended, begins]
  rw [tokens, ended_append, ended_append, ended_of_plain clean.lead, stretch]
  rfl

/-- The end of a module completes its span. -/
theorem Stands.exists_span (clean : progress.Clean)
    (stands : Stands progress.passed progress.lead progress.current assembly)
    (fits : token.Fits progress.current) (stop : token.action = .moduleEnd) :
    ∃ span : Span, span.Within (progress.tokens ++ [token]) (VerilogInterface.ended progress.tokens) ∧
      span.Makes assembly.settle.finished := by
  generalize inside : progress.current = current at stands fits
  cases stands with
  | outside => simp [Token.Fits, stop] at fits
  | @inside start body _ builds _ =>
    obtain ⟨begins, silent⟩ := clean.current start body inside
    have whole : progress.tokens ++ [token] =
        (Span.mk progress.passed progress.lead start body token).tokens ++ [] := by
      simp [Span.tokens, Progress.tokens, Progress.stretch, inside]
    exact ⟨⟨progress.passed, progress.lead, start, body, token⟩,
      ⟨⟨[], whole⟩, clean.ended.symm, clean.passed, clean.lead, begins, silent, stop⟩,
      builds.makes⟩

end

/-- What an assembly holds behind a list of tokens. -/
structure Mirrors (tokens : List Token) (assembly : Assembly) : Prop where
  clean : (progress tokens).Clean
  stands : Stands (progress tokens).passed (progress tokens).lead (progress tokens).current assembly
  count : assembly.modules.length = ended tokens
  modules : ∀ index module, assembly.modules[index]? = some module →
    ∃ span : Span, span.Within tokens index ∧ span.Makes module

theorem Mirrors.takes {tokens : List Token} (mirrors : Mirrors tokens assembly)
    (guards : assembly.guards = openGuards tokens) (fits : token.Fits (progress tokens).current)
    (takes : Assembly.Takes token assembly next) : Mirrors (tokens ++ [token]) next where
  clean := by
    rw [progress_concat]
    exact mirrors.clean.add fits
  stands := by
    rw [progress_concat]
    exact mirrors.stands.takes (by rw [guards, tokens_progress]) fits takes
  count := by
    rw [takes.modules, List.length_append, mirrors.count, ended_append]
    by_cases stop : token.action = .moduleEnd <;> simp [ended, stop]
  modules := by
    intro index module found
    rw [takes.modules] at found
    by_cases old : index < assembly.modules.length
    · rw [List.getElem?_append_left old] at found
      obtain ⟨span, within, makes⟩ := mirrors.modules index module found
      exact ⟨span, within.append [token], makes⟩
    · rw [List.getElem?_append_right (Nat.le_of_not_lt old)] at found
      by_cases stop : token.action = .moduleEnd
      · rw [if_pos stop] at found
        rw [List.getElem?_singleton] at found
        split at found
        · next last =>
          cases found
          have same : index = ended tokens := by
            rw [← mirrors.count]
            omega
          rw [same, ← tokens_progress tokens]
          exact mirrors.stands.exists_span mirrors.clean fits stop
        · contradiction
      · rw [if_neg stop] at found
        contradiction

/-- A text that is taken up without failure is mirrored at every point. -/
theorem mirrors_of_run {text : String} {before after : List Token} {assembly : Assembly}
    (split : tokens text = before ++ after)
    (ran : ({} : Assembly).run text before = .ok assembly) : Mirrors before assembly := by
  induction before using List.reverseRecOn generalizing after assembly with
  | nil =>
    cases ran
    exact ⟨⟨nofun, nofun, nofun⟩, .outside rfl rfl, rfl, nofun⟩
  | append_singleton before token ih =>
    obtain ⟨middle, reached, taken⟩ := Assembly.run_concat_eq_ok ran
    rw [List.append_assoc] at split
    exact (ih split reached).takes (Assembly.run_guards reached).1 (fits_of_tokens split)
      (Assembly.takes_of_apply taken)

/-- Every module of a text is made by one span of its tokens. -/
theorem exists_span_of_parse {text : String} {modules : List Module} {index : Nat}
    {module : Module} (parsed : parse text = .ok modules)
    (found : modules[index]? = some module) :
    ∃ span : Span, span.Within (tokens text) index ∧ span.Makes module := by
  obtain ⟨last, ran, _, _, rfl⟩ := run_of_parse parsed
  exact (mirrors_of_run (List.append_nil _).symm ran).modules index module found

end VerilogInterface
