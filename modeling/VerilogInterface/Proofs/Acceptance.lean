import VerilogInterface.Proofs.TokenRun
import VerilogInterface.Proofs.TokenSteps

/-! Which texts are read, and what is reported of the others. A text is refused at the first token
that cannot stand where it stands; only a text without such a token is refused for the end of its
scan or for a guard left open. -/

namespace VerilogInterface

/-- After the tokens before it, the token is refused with the error. -/
inductive Refused (text : String) (before : List Token) (token : Token) : ParseError → Prop where
  /-- More guards have been closed than opened. -/
  | surplusExit (exit : token.action = .guardExit)
      (surplus : opened (before ++ [token]) < closed (before ++ [token])) :
      Refused text before token (.unmatchedEndif (Text.lineAt text token.offset))
  | openGuard {guard : String} (stop : token.action = .moduleEnd) (inner : Innermost before guard) :
      Refused text before token (.unterminatedGuard guard (Text.lineAt text token.offset))
  /-- The brackets of the head cannot be told apart. -/
  | unreadableHead (head : token.action = .portStart)
      (unreadable : PortHead.parse (token.group 1) = none) :
      Refused text before token (.unknownPortFormat (token.group 0) (Text.trim (token.group 1))
        (Text.lineAt text token.offset))

def Unrefused (text : String) (tokens : List Token) : Prop :=
  ∀ before token after error, tokens = before ++ token :: after → ¬ Refused text before token error

structure Accepted (text : String) : Prop where
  scanned : ending text = .complete
  heads : ∀ token ∈ tokens text, token.action = .portStart →
    (PortHead.parse (token.group 1)).isSome
  exits : ∀ part, part <+: tokens text → closed part ≤ opened part
  modules : ∀ part stop, part ++ [stop] <+: tokens text → stop.action = .moduleEnd →
    closed part = opened part
  guards : closed (tokens text) = opened (tokens text)

/-- The error of a text: that of its first refused token; with no such token, the failure of its
scan; and with that complete, the guard left open at the end. -/
inductive Fails (text : String) : ParseError → Prop where
  | token {before after : List Token} {token : Token} {error : ParseError}
      (split : tokens text = before ++ token :: after) (first : Unrefused text before)
      (refused : Refused text before token error) : Fails text error
  | scan {error : ScanError} (unrefused : Unrefused text (tokens text))
      (failed : ending text = .failure error) : Fails text (error.within text)
  | openGuard {guard : String} (unrefused : Unrefused text (tokens text))
      (scanned : ending text = .complete) (inner : Innermost (tokens text) guard) :
      Fails text (.unterminatedGuard guard (Text.lineAt text text.utf8ByteSize))

/-- What is refused, and why, is determined by the tokens up to it. -/
theorem Refused.unique {text : String} {before : List Token} {token : Token}
    {first second : ParseError} (one : Refused text before token first)
    (other : Refused text before token second) : first = second := by
  cases one with
  | surplusExit exit =>
    cases other with
    | surplusExit => rfl
    | openGuard stop => cases exit.symm.trans stop
    | unreadableHead head => cases exit.symm.trans head
  | openGuard stop inner =>
    cases other with
    | surplusExit exit => cases exit.symm.trans stop
    | openGuard _ inner' => rw [inner.unique inner']
    | unreadableHead head => cases stop.symm.trans head
  | unreadableHead head =>
    cases other with
    | surplusExit exit => cases exit.symm.trans head
    | openGuard stop => cases stop.symm.trans head
    | unreadableHead => rfl

namespace Assembly

variable {text : String} {tokens : List Token} {assembly : Assembly}

theorem run_guards (ran : ({} : Assembly).run text tokens = .ok assembly) :
    assembly.guards = openGuards tokens ∧ NoSurplus tokens := by
  refine run_induction (motive := fun tokens assembly =>
    assembly.guards = openGuards tokens ∧ NoSurplus tokens) ?_ ?_ ran
  · exact ⟨rfl, Balanced.nil.noSurplus⟩
  · intro before token middle next _ ⟨guards, paired⟩ taken
    have takes := takes_of_apply taken
    refine ⟨by rw [takes.guards, guards, openGuards_concat], paired.concat ?_⟩
    have counts := (openGuards_encloses paired).counts
    have none := Balanced.nil.even
    cases takes with
    | guardExit action inside =>
      rw [← guards, inside] at counts
      simp [action] at counts ⊢
      omega
    | guardEnter action => simp [action]; omega
    | comment action => rcases action with action | action <;> simp [action] <;> omega
    | _ action => simp [action]; omega

private theorem refused_of_refuses {token : Token} {next : Assembly} {error : ParseError}
    (ran : ({} : Assembly).run text tokens = .ok assembly)
    (refuses : Refuses text token assembly next error) : Refused text tokens token error := by
  obtain ⟨guards, paired⟩ := run_guards ran
  have encloses := openGuards_encloses paired
  rw [← guards] at encloses
  cases refuses with
  | guardExit action outside =>
    rw [outside] at encloses
    exact .surplusExit action (by simp [Balanced.nil.even, action, Balanced.even encloses])
  | portStart action unreadable => exact .unreadableHead action unreadable
  | moduleEnd action inside =>
    rw [inside] at encloses
    exact .openGuard action encloses.guarded

private theorem not_refused_of_takes {token : Token} {next : Assembly} {error : ParseError}
    (ran : ({} : Assembly).run text (tokens ++ [token]) = .ok next) :
    ¬ Refused text tokens token error := by
  obtain ⟨middle, reached, taken⟩ := run_concat_eq_ok ran
  obtain ⟨guards, paired⟩ := run_guards reached
  intro refused
  cases refused with
  | surplusExit exit surplus =>
    have enough := (run_guards ran).2 _ (List.prefix_refl _)
    omega
  | openGuard stop inner =>
    have fewer := inner.closed_lt paired
    cases takes_of_apply taken with
    | moduleEnd _ outside =>
      have counts := (openGuards_encloses paired).counts
      rw [← guards, outside] at counts
      simp at counts
      omega
    | comment action => rcases action with action | action <;> cases stop.symm.trans action
    | _ action => cases stop.symm.trans action
  | unreadableHead head unreadable =>
    cases takes_of_apply taken with
    | portStart _ read => cases unreadable.symm.trans read
    | namedPortStart _ read => cases unreadable.symm.trans read
    | comment action => rcases action with action | action <;> cases head.symm.trans action
    | _ action => cases head.symm.trans action

theorem unrefused_of_run (ran : ({} : Assembly).run text tokens = .ok assembly) :
    Unrefused text tokens := by
  intro before token after error split
  rw [split, List.append_cons] at ran
  obtain ⟨middle, reached, _⟩ := run_append_eq_ok ran
  exact not_refused_of_takes reached

/-- A run that fails does so at its first refused token. -/
theorem refused_of_run {error : ParseError}
    (failed : ({} : Assembly).run text tokens = .error error) :
    ∃ before token after, tokens = before ++ token :: after ∧ Unrefused text before ∧
      Refused text before token error := by
  induction tokens using List.reverseRecOn with
  | nil => cases failed
  | append_singleton tokens token ih =>
    cases ran : ({} : Assembly).run text tokens with
    | error earlier =>
      rw [run_append, ran] at failed
      cases failed
      obtain ⟨before, first, after, rfl, unrefused, refused⟩ := ih ran
      exact ⟨before, first, after ++ [token], by simp, unrefused, refused⟩
    | ok assembly =>
      rw [run_append_of_ok _ ran, run] at failed
      split at failed
      · next next error refused =>
        cases failed
        exact ⟨tokens, token, [], rfl, unrefused_of_run ran,
          refused_of_refuses ran (refuses_of_apply refused)⟩
      · cases failed

end Assembly

private theorem first_refused_unique {text : String} {before after before' after' : List Token}
    {token token' : Token} {error error' : ParseError}
    (same : before ++ token :: after = before' ++ token' :: after')
    (first : Unrefused text before) (refused : Refused text before token error)
    (first' : Unrefused text before') (refused' : Refused text before' token' error') :
    error = error' := by
  rcases split_apart same with ⟨rfl, rfl, _⟩ | ⟨between, split, _⟩ | ⟨between, split, _⟩
  · exact refused.unique refused'
  · exact (first' before token between error split refused).elim
  · exact (first before' token' between error' split refused').elim

theorem Fails.unique {text : String} {first second : ParseError} (one : Fails text first)
    (other : Fails text second) : first = second := by
  have whole : ∀ {before after : List Token} {token : Token} {error : ParseError},
      tokens text = before ++ token :: after → Refused text before token error →
      ¬ Unrefused text (tokens text) :=
    fun split refused unrefused => unrefused _ _ _ _ split refused
  cases one with
  | token split first refused =>
    cases other with
    | token split' first' refused' =>
      exact first_refused_unique (split.symm.trans split') first refused first' refused'
    | scan unrefused => exact (whole split refused unrefused).elim
    | openGuard unrefused => exact (whole split refused unrefused).elim
  | scan unrefused failed =>
    cases other with
    | token split _ refused => exact (whole split refused unrefused).elim
    | scan _ failed' =>
      cases failed.symm.trans failed'
      rfl
    | openGuard _ scanned => cases failed.symm.trans scanned
  | openGuard unrefused scanned inner =>
    cases other with
    | token split _ refused => exact (whole split refused unrefused).elim
    | scan _ failed => cases failed.symm.trans scanned
    | openGuard _ _ inner' => rw [inner.unique inner']

theorem Accepted.not_fails {text : String} {error : ParseError} (accepted : Accepted text) :
    ¬ Fails text error := by
  intro fails
  cases fails with
  | @token before after token _ split first refused =>
    have reached : before ++ [token] <+: tokens text := ⟨after, by rw [split, ← List.append_cons]⟩
    have inside : before <+: tokens text := (List.prefix_append _ _).trans reached
    cases refused with
    | surplusExit exit surplus =>
      have enough := accepted.exits _ reached
      omega
    | openGuard stop inner =>
      have fewer := inner.closed_lt fun part within => accepted.exits part (within.trans inside)
      have even := accepted.modules before token reached stop
      omega
    | unreadableHead head unreadable =>
      have readable := accepted.heads token (by rw [split]; simp) head
      rw [unreadable] at readable
      cases readable
  | scan _ failed => cases failed.symm.trans accepted.scanned
  | openGuard _ _ inner =>
    have fewer := inner.closed_lt accepted.exits
    have even := accepted.guards
    omega

theorem accepted_of_parse {text : String} {modules : List Module}
    (parsed : parse text = .ok modules) : Accepted text := by
  obtain ⟨last, ran, scanned, outside, _⟩ := run_of_parse parsed
  obtain ⟨guards, paired⟩ := Assembly.run_guards ran
  have unrefused := Assembly.unrefused_of_run ran
  have encloses := openGuards_encloses paired
  rw [← guards, outside] at encloses
  refine ⟨scanned, ?_, paired, ?_, Balanced.even encloses⟩
  · intro token member head
    obtain ⟨before, after, split⟩ := List.append_of_mem member
    by_contra unreadable
    exact unrefused before token after _ split
      (.unreadableHead head (Option.not_isSome_iff_eq_none.1 unreadable))
  · intro part stop inside action
    obtain ⟨after, split⟩ := inside
    have earlier : part <+: tokens text := ⟨stop :: after, by rw [← split]; simp⟩
    refine even_of_not_innermost (paired.of_prefix earlier) fun guard inner => ?_
    exact unrefused part stop after _ (by rw [← split]; simp) (.openGuard action inner)

theorem fails_of_parse {text : String} {error : ParseError}
    (failed : parse text = .error error) : Fails text error := by
  rw [parse_eq_run] at failed
  split at failed
  · next refusal ran =>
    cases failed
    obtain ⟨before, token, after, split, unrefused, refused⟩ := Assembly.refused_of_run ran
    exact .token split unrefused refused
  · next last ran =>
    have unrefused := Assembly.unrefused_of_run ran
    cases scanned : ending text with
    | failure scanError =>
      rw [scanned] at failed
      cases failed
      exact .scan unrefused scanned
    | complete =>
      rw [scanned, Assembly.conclude, Assembly.finish] at failed
      split at failed
      · next guard outer inside =>
        cases failed
        obtain ⟨guards, paired⟩ := Assembly.run_guards ran
        have encloses := openGuards_encloses paired
        rw [← guards, inside] at encloses
        exact .openGuard unrefused scanned encloses.guarded
      · cases failed

/-- A text is read exactly if its scan ends without failure, every port head can be read, guards
are closed only where one is open, and all are closed wherever a module or the text ends. Any
other text gives the error of the first place where this goes wrong, in the order of the tokens,
and the scan's own failure only behind the last of them. -/
theorem parse_outcome (text : String) :
    ((∃ modules, parse text = .ok modules) ↔ Accepted text) ∧
      ∀ error, parse text = .error error ↔ Fails text error := by
  refine ⟨⟨fun ⟨modules, parsed⟩ => accepted_of_parse parsed, fun accepted => ?_⟩,
    fun error => ⟨fails_of_parse, fun fails => ?_⟩⟩
  · cases parsed : parse text with
    | ok modules => exact ⟨modules, rfl⟩
    | error error => exact (accepted.not_fails (fails_of_parse parsed)).elim
  · cases parsed : parse text with
    | ok modules => exact ((accepted_of_parse parsed).not_fails fails).elim
    | error other => rw [(fails_of_parse parsed).unique fails]

end VerilogInterface
