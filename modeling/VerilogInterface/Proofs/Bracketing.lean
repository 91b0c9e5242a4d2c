import VerilogInterface.Proofs.Spans

/-! Modules as brackets. The states of a scan are nested in one of four ways; so a module begins only
where none is open and ends only where one is, lists and labels stand inside a module, and each end
of a module gives the module that began last. -/

namespace VerilogInterface

def plainStacks : List (List State) :=
  [[.root], [.module, .root], [.parameters, .module, .root], [.modulePort, .module, .root]]

def Action.needsModule : Action → Bool
  | .moduleEnd | .parameterStart | .parameterItem | .portStart | .portName | .sectionLabel => true
  | _ => false

/-- The module that is open behind the tokens: what is before it, its beginning and its body. -/
structure Opened (tokens earlier : List Token) (start : Token) (body : List Token) : Prop where
  split : tokens = earlier ++ start :: body
  begins : start.action = .moduleStart
  plain : ∀ token ∈ body, token.bounds = false

structure Bracketed (text : String) : Prop where
  nesting : ∀ scanner, (Scanner.start text).Reaches Verilog.table scanner →
    ∃ plain ∈ plainStacks, scanner.stack = plain ∨ scanner.stack = .blockComment :: plain
  /-- The outermost state is never left. -/
  rooted : ∀ offset line, ending text ≠ .failure (.underflow offset) ∧
    parse text ≠ .error (.stateUnderflow offset line)
  /-- Beginnings and ends alternate. -/
  alternates : ∀ index token, ((tokens text).filter Token.bounds)[index]? = some token →
    token.action = if index % 2 = 0 then .moduleStart else .moduleEnd
  /-- What needs a module stands between its beginning and its end. -/
  inside : ∀ before token after, tokens text = before ++ token :: after →
    token.action.needsModule = true →
    (∃ earlier start body, Opened before earlier start body) ∧
      ∀ stop ∈ (token :: after).find? Token.bounds, stop.action = .moduleEnd
  headed : ∀ before token after earlier start body, tokens text = before ++ token :: after →
    token.action = .portName → Opened before earlier start body →
    ∃ head ∈ body, head.action = .portStart
  counted : ∀ modules, parse text = .ok modules → modules.length = ended (tokens text)
  /-- The module of an end is named by the beginning before it. -/
  named : ∀ modules before stop after earlier start body, parse text = .ok modules →
    tokens text = before ++ stop :: after → stop.action = .moduleEnd →
    Opened before earlier start body →
    (modules[ended before]?).map (·.name) = some (start.group 0)

theorem Nested.exists_plain {stack : List State} (nested : Nested stack) :
    ∃ plain ∈ plainStacks,
      stack ++ [.root] = plain ∨ stack ++ [.root] = .blockComment :: plain := by
  cases nested with
  | outside => exact ⟨[.root], by decide, .inl rfl⟩
  | module => exact ⟨[.module, .root], by decide, .inl rfl⟩
  | parameters => exact ⟨[.parameters, .module, .root], by decide, .inl rfl⟩
  | ports => exact ⟨[.modulePort, .module, .root], by decide, .inl rfl⟩
  | comment nested plain =>
    cases nested with
    | outside => exact ⟨[.root], by decide, .inr rfl⟩
    | module => exact ⟨[.module, .root], by decide, .inr rfl⟩
    | parameters => exact ⟨[.parameters, .module, .root], by decide, .inr rfl⟩
    | ports => exact ⟨[.modulePort, .module, .root], by decide, .inr rfl⟩
    | comment => exact (plain rfl).elim

theorem Scanner.ending_ne_underflow (scanner : Scanner) (nested : Nested scanner.entered)
    (offset : Nat) : scanner.ending ≠ .failure (.underflow offset) := by
  induction scanner using scan_induction with
  | ended scanner found =>
    rw [(tokens_of_ended found).2]
    nofun
  | stopped scanner error after found =>
    rw [(tokens_of_stopped found).2]
    rintro same
    cases same
    exact step_ne_underflow nested found
  | moved scanner lexeme after found ih =>
    rw [(tokens_of_moved found).2]
    exact ih (nested.shift (shift_of_step nested found))

theorem parse_ne_underflow (text : String) (offset line : Nat) :
    parse text ≠ .error (.stateUnderflow offset line) := by
  intro failed
  generalize same : ParseError.stateUnderflow offset line = error at failed
  cases fails_of_parse failed with
  | token _ _ refused => cases refused <;> cases same
  | @scan scanError _ ends =>
    cases scanError with
    | noRule => cases same
    | underflow => exact Scanner.ending_ne_underflow _ .outside _ ends
  | openGuard => cases same

section
variable {text : String} {before after earlier body : List Token} {start token : Token}

theorem progress_clean (split : tokens text = before ++ after) : (progress before).Clean := by
  induction before using List.reverseRecOn generalizing after with
  | nil => exact ⟨nofun, nofun, nofun⟩
  | append_singleton before token ih =>
    rw [List.append_assoc] at split
    rw [progress_concat]
    exact (ih split).add (fits_of_tokens split)

/-- An open module is the one that the progress knows. -/
theorem Opened.progress_eq (opened : Opened before earlier start body) :
    (progress before).current = some (start, body) := by
  obtain ⟨rfl, begins, plain⟩ := opened
  induction body using List.reverseRecOn with
  | nil => rw [progress_concat, Progress.add_start begins]
  | append_singleton body token ih =>
    have silent := plain token (by simp)
    have inner := ih fun token member => plain token (by simp [member])
    rw [Token.bounds, Bool.or_eq_false_iff, beq_eq_false_iff_ne, beq_eq_false_iff_ne] at silent
    rw [← List.cons_append, ← List.append_assoc, progress_concat,
      Progress.add_inside silent.1 silent.2 inner]

theorem opened_of_progress (split : tokens text = before ++ after)
    (inside : (progress before).current = some (start, body)) :
    Opened before ((progress before).passed ++ (progress before).lead) start body := by
  obtain ⟨begins, plain⟩ := (progress_clean split).current start body inside
  exact ⟨split_of_progress inside, begins, plain⟩

/-- Of the beginnings and ends before a point one is without its counterpart just if a module is
open there. -/
theorem length_bounds (split : tokens text = before ++ after) :
    (before.filter Token.bounds).length % 2 =
      if (progress before).current.isSome then 1 else 0 := by
  induction before using List.reverseRecOn generalizing after with
  | nil => rfl
  | append_singleton before token ih =>
    rw [List.append_assoc] at split
    have earlier := ih split
    have fits := fits_of_tokens split
    rw [progress_concat, List.filter_append, List.length_append]
    by_cases begins : token.action = .moduleStart
    · have outside : (progress before).current = none := by
        simpa only [Token.Fits, begins] using fits
      rw [outside] at earlier
      rw [Progress.add_start begins, List.filter_cons_of_pos (by simp [Token.bounds, begins])]
      simp only [Option.isSome_none, Bool.false_eq_true, if_false, Option.isSome_some, if_true,
        List.filter_nil, List.length_singleton] at earlier ⊢
      omega
    · by_cases ends : token.action = .moduleEnd
      · have opened : (progress before).current.isSome = true := by
          simpa only [Token.Fits, ends] using fits
        rw [if_pos opened] at earlier
        rw [Progress.add_end ends, List.filter_cons_of_pos (by simp [Token.bounds, ends])]
        simp only [Option.isSome_none, Bool.false_eq_true, if_false, List.filter_nil,
          List.length_singleton]
        omega
      · rw [List.filter_cons_of_neg (by simp [Token.bounds, begins, ends]), List.filter_nil,
          List.length_nil, Nat.add_zero, earlier]
        cases inside : (progress before).current with
        | none => rw [Progress.add_outside begins ends inside, inside]
        | some current => rw [Progress.add_inside begins ends inside]; rfl

theorem Token.Fits.isSome {current : Option (Token × List Token)} (fits : token.Fits current)
    (needs : token.action.needsModule = true) : current.isSome = true := by
  unfold Action.needsModule at needs
  unfold Token.Fits at fits
  cases action : token.action <;> simp only [action] at needs fits <;>
    first | contradiction | exact fits | skip
  all_goals
    obtain ⟨_, _, rfl, _⟩ := fits
    rfl

theorem exists_split_of_bounds {tokens : List Token} {index : Nat}
    (found : (tokens.filter Token.bounds)[index]? = some token) :
    ∃ before after, tokens = before ++ token :: after ∧
      (before.filter Token.bounds).length = index ∧ token.bounds = true := by
  obtain ⟨within, same⟩ := List.getElem?_eq_some_iff.1 found
  have divided := List.take_append_drop index (tokens.filter Token.bounds)
  rw [List.drop_eq_getElem_cons within, same] at divided
  obtain ⟨front, back, rfl, filtered, others⟩ := List.filter_eq_append_iff.1 divided.symm
  obtain ⟨plain, after, rfl, silent, bounds, _⟩ := List.filter_eq_cons_iff.1 others
  refine ⟨front ++ plain, after, by simp, ?_, bounds⟩
  rw [List.filter_append, List.filter_eq_nil_iff.2 silent, List.append_nil, filtered,
    List.length_take]
  exact Nat.min_eq_left (Nat.le_of_lt within)

theorem action_of_bounds {index : Nat}
    (found : ((tokens text).filter Token.bounds)[index]? = some token) :
    token.action = if index % 2 = 0 then .moduleStart else .moduleEnd := by
  obtain ⟨before, after, split, rfl, bounds⟩ := exists_split_of_bounds found
  have parity := length_bounds split
  have fits := fits_of_tokens split
  rw [Token.bounds, Bool.or_eq_true, beq_iff_eq, beq_iff_eq] at bounds
  rw [parity]
  rcases bounds with begins | ends
  · have outside : (progress before).current = none := by
      simpa only [Token.Fits, begins] using fits
    rw [begins, outside]
    rfl
  · have opened : (progress before).current.isSome = true := by
      simpa only [Token.Fits, ends] using fits
    rw [ends, if_pos opened]
    rfl

/-- An open module is closed before another one begins. -/
theorem Opened.action_of_find? (opened : Opened before earlier start body)
    (split : tokens text = before ++ after) {stop : Token}
    (found : after.find? Token.bounds = some stop) : stop.action = .moduleEnd := by
  obtain ⟨bounds, between, later, rfl, silent⟩ := List.find?_eq_some_iff_append.1 found
  have still : Opened (before ++ between) earlier start (body ++ between) := by
    refine ⟨by rw [opened.split, List.append_assoc, List.cons_append], opened.begins, ?_⟩
    intro token member
    rcases List.mem_append.1 member with old | new
    · exact opened.plain token old
    · simpa using silent token new
  rw [← List.append_assoc] at split
  have fits := fits_of_tokens split
  rw [Token.bounds, Bool.or_eq_true, beq_iff_eq, beq_iff_eq] at bounds
  refine bounds.resolve_left fun begins => ?_
  simp [Token.Fits, begins, still.progress_eq] at fits

/-- At the end of a module the assembly files the module that is open. -/
theorem Opened.name_of_parse {modules : List Module} {stop : Token}
    (opened : Opened before earlier start body) (parsed : parse text = .ok modules)
    (split : tokens text = before ++ stop :: after) (ends : stop.action = .moduleEnd) :
    (modules[ended before]?).map (·.name) = some (start.group 0) := by
  obtain ⟨last, ran, _, _, rfl⟩ := run_of_parse parsed
  rw [split, List.append_cons] at ran
  obtain ⟨next, reached, onward⟩ := Assembly.run_append_eq_ok ran
  obtain ⟨assembly, reached, taken⟩ := Assembly.run_concat_eq_ok reached
  have mirrors := mirrors_of_run split reached
  have filed := (Assembly.takes_of_apply taken).modules
  rw [if_pos ends] at filed
  obtain ⟨added, grown, _⟩ := Assembly.run_grows onward
  have here : last.modules[ended before]? = some assembly.settle.finished := by
    rw [grown, filed, ← mirrors.count, List.append_assoc, List.getElem?_append_right (Nat.le_refl _),
      Nat.sub_self]
    rfl
  have stands := mirrors.stands
  rw [opened.progress_eq] at stands
  cases stands with
  | inside builds _ =>
    have makes : (Span.mk _ _ start body stop).Makes assembly.settle.finished := builds.makes
    rw [here]
    exact congrArg some makes.name

end

/-- Whatever the text, its modules are bracketed. -/
theorem bracketed (text : String) : Bracketed text where
  nesting := fun scanner reaches => (reaches.nested .outside).exists_plain
  rooted := fun offset line =>
    ⟨Scanner.ending_ne_underflow _ .outside offset, parse_ne_underflow text offset line⟩
  alternates := fun index token found => action_of_bounds found
  inside := by
    intro before token after split needs
    obtain ⟨⟨start, body⟩, inside⟩ :=
      Option.isSome_iff_exists.1 ((fits_of_tokens split).isSome needs)
    have opened := opened_of_progress split inside
    exact ⟨⟨_, start, body, opened⟩, fun stop found => opened.action_of_find? split found⟩
  headed := by
    intro before token after earlier start body split action opened
    have fits := fits_of_tokens split
    simp only [Token.Fits, action] at fits
    obtain ⟨start, body, inside, headed⟩ := fits
    cases opened.progress_eq.symm.trans inside
    exact headed
  counted := by
    intro modules parsed
    obtain ⟨last, ran, _, _, rfl⟩ := run_of_parse parsed
    exact (mirrors_of_run (List.append_nil _).symm ran).count
  named := fun modules before stop after earlier start body parsed split ends opened =>
    opened.name_of_parse parsed split ends

end VerilogInterface
