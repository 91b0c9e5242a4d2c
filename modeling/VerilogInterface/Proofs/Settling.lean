import VerilogInterface.Proofs.Collecting
import VerilogInterface.Proofs.TokenSteps

/-! Ports that wait for the end of their list can be placed earlier without anyone noticing. Placing
them is all that a refused token does, so an assembly goes on behind it as if it had not been there. -/

namespace VerilogInterface

namespace Assembly

/-- The documented declaration is the last one of its list, and a port that is already placed is
documented only while none waits. -/
inductive Aims (assembly : Assembly) : Option Target → Prop where
  | none : Aims assembly none
  | generic {earlier : List Parameter} {entry : Parameter}
      (last : assembly.generics = earlier ++ [entry]) :
      Aims assembly (some (.generic earlier.length))
  | waiting {earlier : List WaitingPort} {port : WaitingPort}
      (last : assembly.waiting = earlier ++ [port]) :
      Aims assembly (some (.waiting earlier.length))
  | port {earlier : List Parameter} {port : Parameter} (settled : assembly.waiting = [])
      (last : assembly.ports = earlier ++ [port]) : Aims assembly (some (.port port.name))

/-- The failures of tokens taken up one after the other, going on behind each of them. -/
def answers (text : String) (assembly : Assembly) : List Token → List (Option ParseError)
  | [] => []
  | token :: rest =>
    (assembly.apply text token).2 :: (assembly.apply text token).1.answers text rest

def behind (text : String) (assembly : Assembly) (tokens : List Token) : Assembly :=
  tokens.foldl (fun assembly token => (assembly.apply text token).1) assembly

variable {text : String} {assembly other next : Assembly} {token : Token} {error : ParseError}

theorem answers_append (text : String) (assembly : Assembly) (first second : List Token) :
    assembly.answers text (first ++ second) =
      assembly.answers text first ++ (assembly.behind text first).answers text second := by
  induction first generalizing assembly with
  | nil => rfl
  | cons token rest ih => exact congrArg _ (ih _)

theorem behind_append (text : String) (assembly : Assembly) (first second : List Token) :
    assembly.behind text (first ++ second) = (assembly.behind text first).behind text second :=
  List.foldl_append

theorem behind_concat (text : String) (assembly : Assembly) (tokens : List Token) (token : Token) :
    assembly.behind text (tokens ++ [token]) = ((assembly.behind text tokens).apply text token).1 :=
  behind_append text assembly tokens [token]

/-- A property of a list of tokens and an assembly holds behind all tokens if the empty assembly has
it and each token keeps it, taken up or refused. -/
theorem behind_induction {motive : List Token → Assembly → Prop} (initial : motive [] {})
    (takes : ∀ tokens token assembly next, ({} : Assembly).behind text tokens = assembly →
      motive tokens assembly → Takes token assembly next → motive (tokens ++ [token]) next)
    (refuses : ∀ tokens token assembly next error, ({} : Assembly).behind text tokens = assembly →
      motive tokens assembly → Refuses text token assembly next error →
      motive (tokens ++ [token]) next)
    (tokens : List Token) : motive tokens (({} : Assembly).behind text tokens) := by
  induction tokens using List.reverseRecOn with
  | nil => exact initial
  | append_singleton tokens token ih =>
    rw [behind_concat]
    rcases apply_cases text (({} : Assembly).behind text tokens) token with
      ⟨next, taken, takesToken⟩ | ⟨next, error, refused, refusesToken⟩
    · rw [taken]
      exact takes tokens token _ next rfl ih takesToken
    · rw [refused]
      exact refuses tokens token _ next error rfl ih refusesToken

theorem settleTarget_settleTarget (waiting : List WaitingPort) (target : Option Target) :
    settleTarget [] (settleTarget waiting target) = settleTarget waiting target := by
  cases target with
  | none => rfl
  | some target =>
    cases target with
    | waiting index => cases found : waiting[index]? <;> simp [settleTarget, found]
    | _ => rfl

@[simp]
theorem settle_settle (assembly : Assembly) : assembly.settle.settle = assembly.settle := by
  simp [settle, settleTarget_settleTarget]

theorem settle_of_eq (settled : other = assembly.settle) : other.settle = assembly.settle := by
  rw [settled, settle_settle]

theorem settle_addWaiting (assembly : Assembly) (name : String) :
    (assembly.settle.addWaiting name).settle = (assembly.addWaiting name).settle := by
  simp [settle, addWaiting, settleTarget]
  rfl

theorem settle_of_waiting {earlier : List WaitingPort} {port : WaitingPort}
    (last : assembly.waiting = earlier ++ [port])
    (target : assembly.target = some (.waiting earlier.length)) :
    assembly.settle =
      { assembly with
        ports := placePort ((earlier.map assembly.entry).foldl placePort assembly.ports)
          (assembly.entry port)
        waiting := []
        target := some (.port port.name) } := by
  have settled : settleTarget assembly.waiting assembly.target = some (.port port.name) := by
    rw [target, settleTarget, last, List.getElem?_concat_length]
    rfl
  rw [settle, settled, last, List.map_append, List.foldl_append]
  rfl

theorem finish_settle (text : String) (assembly : Assembly) :
    assembly.settle.finish text = assembly.finish text := rfl

namespace Aims

/-- Only the lists that a target points into matter to it. -/
theorem frame {target : Option Target} (aims : Aims assembly target)
    (generics : next.generics = assembly.generics) (waiting : next.waiting = assembly.waiting)
    (ports : next.ports = assembly.ports) : Aims next target := by
  cases aims with
  | none => exact .none
  | generic last => exact .generic (generics.trans last)
  | waiting last => exact .waiting (waiting.trans last)
  | port settled last => exact .port (waiting.trans settled) (ports.trans last)

theorem settle (aims : Aims assembly assembly.target) :
    Aims assembly.settle assembly.settle.target := by
  generalize found : assembly.target = target at aims
  cases aims with
  | none =>
    rw [Assembly.settle, found]
    exact .none
  | generic last =>
    rw [Assembly.settle, found]
    exact .generic last
  | port settled last =>
    rw [Assembly.settle, found, settled]
    exact .port rfl last
  | @waiting earlier port last =>
    rw [settle_of_waiting last found]
    exact @Aims.port _ _ (assembly.entry port) rfl rfl

theorem describe (aims : Aims assembly assembly.target) (line : String) :
    Aims (assembly.describe line) (assembly.describe line).target := by
  generalize found : assembly.target = target at aims
  cases aims with
  | none =>
    simp only [Assembly.describe, found]
    exact .none
  | generic last =>
    simp only [Assembly.describe, found]
    apply Aims.generic
    rw [last, Collects.modify_last]
  | waiting last =>
    simp only [Assembly.describe, found]
    apply Aims.waiting
    rw [last, Collects.modify_last]
  | @port earlier port settled last =>
    simp only [Assembly.describe, found]
    rw [last, List.map_append, List.map_singleton, if_pos rfl]
    exact @Aims.port _ _ { port with description := some [line] } settled rfl

theorem takes (aims : Aims assembly assembly.target) (takes : Takes token assembly next) :
    Aims next next.target := by
  cases takes with
  | documentation action => exact aims.describe _
  | moduleStart action | moduleEnd action outside => exact .none
  | parameterItem action => exact .generic rfl
  | namedPortStart action read named | portName action => exact .waiting rfl
  | portStart action read unnamed => exact aims.settle.frame rfl rfl rfl
  | _ => exact aims.frame rfl rfl rfl

theorem refuses (aims : Aims assembly assembly.target)
    (refuses : Refuses text token assembly next error) : Aims next next.target := by
  cases refuses with
  | guardExit action outside => exact aims
  | portStart action unreadable | moduleEnd action inside => exact aims.settle

theorem apply (aims : Aims assembly assembly.target) (text : String) (token : Token) :
    Aims (assembly.apply text token).1 (assembly.apply text token).1.target := by
  rcases apply_cases text assembly token with ⟨_, taken, takes⟩ | ⟨_, _, refused, refuses⟩
  · rw [taken]
    exact aims.takes takes
  · rw [refused]
    exact aims.refuses refuses

theorem behind (aims : Aims assembly assembly.target) (text : String) (tokens : List Token) :
    Aims (assembly.behind text tokens) (assembly.behind text tokens).target := by
  induction tokens generalizing assembly with
  | nil => exact aims
  | cons token rest ih => exact ih (aims.apply text token)

/-- A line that describes a waiting port describes it as well when it has been placed. -/
theorem settle_describe (aims : Aims assembly assembly.target) (line : String) :
    (assembly.describe line).settle = assembly.settle.describe line := by
  generalize found : assembly.target = target at aims
  cases aims with
  | none => simp [Assembly.describe, Assembly.settle, settleTarget, found]; rfl
  | generic last => simp [Assembly.describe, Assembly.settle, settleTarget, found]; rfl
  | port settled last => simp [Assembly.describe, Assembly.settle, settleTarget, found, settled]
  | @waiting earlier port last =>
    have last' : (assembly.describe line).waiting =
        earlier ++ [{ port with description := some [line] }] := by
      simp only [Assembly.describe, found, last, Collects.modify_last]
    have target : (assembly.describe line).target = some (.waiting earlier.length) := by
      simp only [Assembly.describe, found]
    have placed := Collects.map_describe_placePort
      ((earlier.map assembly.entry).foldl placePort assembly.ports) (assembly.entry port) line
    rw [settle_of_waiting last' target, settle_of_waiting last found]
    simp only [Assembly.describe, found]
    exact congrArg (fun ports => { assembly with
      ports, waiting := [], target := some (Target.port port.name) }) placed.symm

/-- A token that is taken up is taken up as well after the waiting ports have been placed, and what
comes of it differs only by that. -/
theorem takes_settle (aims : Aims assembly assembly.target) (takes : Takes token assembly next) :
    ∃ after, Takes token assembly.settle after ∧ after.settle = next.settle := by
  cases takes with
  | documentation action =>
    refine ⟨_, .documentation action, ?_⟩
    rw [← aims.settle_describe, settle_settle]
  | sectionLabel action => exact ⟨_, .sectionLabel action, settle_of_eq rfl⟩
  | guardEnter action => exact ⟨_, .guardEnter action, settle_of_eq rfl⟩
  | guardExit action inside => exact ⟨_, .guardExit action inside, settle_of_eq rfl⟩
  | moduleStart action => exact ⟨_, .moduleStart action, rfl⟩
  | parameterStart action => exact ⟨_, .parameterStart action, settle_of_eq rfl⟩
  | parameterItem action => exact ⟨_, .parameterItem action, settle_of_eq rfl⟩
  | portStart action read unnamed =>
    refine ⟨_, .portStart action read unnamed, ?_⟩
    rw [settle_settle]
  | namedPortStart action read named =>
    refine ⟨_, .namedPortStart action read named, ?_⟩
    rw [settle_settle]
  | portName action => exact ⟨_, .portName action, settle_addWaiting _ _⟩
  | moduleEnd action outside =>
    refine ⟨_, .moduleEnd action outside, ?_⟩
    rw [settle_settle]
  | comment action => exact ⟨_, .comment action, settle_settle _⟩

end Aims

theorem Refuses.settle (refuses : Refuses text token assembly next error) :
    ∃ after, Refuses text token assembly.settle after error ∧ after.settle = next.settle := by
  cases refuses with
  | guardExit action outside => exact ⟨_, .guardExit action outside, settle_settle _⟩
  | portStart action unreadable => exact ⟨_, .portStart action unreadable, settle_settle _⟩
  | moduleEnd action inside => exact ⟨_, .moduleEnd action inside, settle_settle _⟩

/-- All that a refused token does is place the waiting ports. -/
theorem Refuses.settled (refuses : Refuses text token assembly next error) :
    next.settle = assembly.settle := by
  cases refuses with
  | guardExit action outside => rfl
  | portStart action unreadable | moduleEnd action inside => exact settle_settle _

theorem apply_settled (refused : (assembly.apply text token).2 = some error) :
    (assembly.apply text token).1.settle = assembly.settle :=
  (refuses_of_apply (Prod.ext rfl refused)).settled

theorem Aims.apply_settle (aims : Aims assembly assembly.target) (text : String) (token : Token) :
    (assembly.settle.apply text token).2 = (assembly.apply text token).2 ∧
      (assembly.settle.apply text token).1.settle = (assembly.apply text token).1.settle := by
  rcases apply_cases text assembly token with ⟨_, taken, takes⟩ | ⟨_, _, refused, refuses⟩
  · obtain ⟨_, takes', same⟩ := aims.takes_settle takes
    rw [taken, apply_of_takes text takes']
    exact ⟨rfl, same⟩
  · obtain ⟨_, refuses', same⟩ := refuses.settle
    rw [refused, apply_of_refuses refuses']
    exact ⟨rfl, same⟩

/-- Assemblies that are the same once their waiting ports are placed give the same answers to all
tokens. -/
theorem Aims.answers_eq (aims : Aims assembly assembly.target) (aims' : Aims other other.target)
    (same : other.settle = assembly.settle) (text : String) (tokens : List Token) :
    other.answers text tokens = assembly.answers text tokens ∧
      (other.behind text tokens).settle = (assembly.behind text tokens).settle := by
  induction tokens generalizing assembly other with
  | nil => exact ⟨rfl, same⟩
  | cons token rest ih =>
    have alike : (other.apply text token).2 = (assembly.apply text token).2 ∧
        (other.apply text token).1.settle = (assembly.apply text token).1.settle := by
      obtain ⟨answer, placed⟩ := aims.apply_settle text token
      obtain ⟨answer', placed'⟩ := aims'.apply_settle text token
      rw [same] at answer' placed'
      exact ⟨answer'.symm.trans answer, placed'.symm.trans placed⟩
    obtain ⟨later, last⟩ := ih (aims.apply text token) (aims'.apply text token) alike.2
    refine ⟨?_, last⟩
    rw [answers, answers, alike.1, later]

/-- A token that is refused leaves no trace: the tokens behind it get the answers that they would get
without it, and in the end there are the same modules or there is the same error. -/
theorem answers_without_refused (text : String) (first second : List Token) (token : Token)
    {error : ParseError}
    (refused : ((({} : Assembly).behind text first).apply text token).2 = some error) :
    ∃ later : List (Option ParseError),
      ({} : Assembly).answers text (first ++ token :: second) =
        ({} : Assembly).answers text first ++ some error :: later ∧
      ({} : Assembly).answers text (first ++ second) =
        ({} : Assembly).answers text first ++ later ∧
      (({} : Assembly).behind text (first ++ token :: second)).finish text =
        (({} : Assembly).behind text (first ++ second)).finish text := by
  have aims := @Aims.behind {} .none text first
  generalize reached : ({} : Assembly).behind text first = assembly at aims refused
  obtain ⟨answer, last⟩ := aims.answers_eq (aims.apply text token) (apply_settled refused) text second
  refine ⟨assembly.answers text second, ?_, ?_, ?_⟩
  · rw [answers_append, reached, answers, refused, answer]
  · rw [answers_append, reached]
  · rw [behind_append, behind_append, reached, ← finish_settle, ← finish_settle text (behind _ _ _)]
    exact congrArg _ last

/-- A head that cannot be read comes between a port and the line that documents it. -/
theorem answers_without_refused_head :
    let first : List Token :=
      [{ action := .moduleStart, groups := [some "m"] },
        { action := .portStart, groups := [some "input", some "wire a"] },
        { action := .portName, groups := [some "b"] },
        { action := .portName, groups := [some "a"] }]
    let head : Token := { action := .portStart, groups := [some "output", some "[7:0"], offset := 9 }
    let second : List Token :=
      [{ action := .documentation, groups := [some " the port "] },
        { action := .portName, groups := [some "b"] }, { action := .moduleEnd }]
    ((({} : Assembly).behind "module m(" first).apply "module m(" head).2 =
        some (.unknownPortFormat "output" "[7:0" 1) ∧
      ∃ later : List (Option ParseError),
        ({} : Assembly).answers "module m(" (first ++ head :: second) =
          ({} : Assembly).answers "module m(" first ++
            some (.unknownPortFormat "output" "[7:0" 1) :: later ∧
        ({} : Assembly).answers "module m(" (first ++ second) =
          ({} : Assembly).answers "module m(" first ++ later ∧
        (({} : Assembly).behind "module m(" (first ++ head :: second)).finish "module m(" =
          (({} : Assembly).behind "module m(" (first ++ second)).finish "module m(" := by
  intro first head second
  have refused : ((({} : Assembly).behind "module m(" first).apply "module m(" head).2 =
      some (.unknownPortFormat "output" "[7:0" 1) := by
    decide +kernel
  exact ⟨refused, answers_without_refused _ first second head refused⟩

end Assembly

end VerilogInterface
