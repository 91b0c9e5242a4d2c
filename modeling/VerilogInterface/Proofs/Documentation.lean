import VerilogInterface.Proofs.Declarations

/-! What describes what. The tokens of a module fall into the region in front of its first item and
one region behind each item, so every documentation line belongs to exactly one of them. -/

namespace VerilogInterface

/-- A list of tokens is the region in front of its first item and then those of its items. -/
theorem regions_placesFrom (before tokens : List Token) :
    tokens = untilItem tokens ++
      ((placesFrom before tokens).filter (·.token.isItem)).flatMap fun place =>
        place.token :: untilItem place.after := by
  induction tokens generalizing before with
  | nil => rfl
  | cons first tokens ih =>
    rw [untilItem_cons, placesFrom, List.filter_cons]
    cases item : first.isItem with
    | true =>
      rw [if_pos rfl, if_pos rfl, List.flatMap_cons, List.nil_append, List.cons_append, ← ih]
    | false => rw [if_neg Bool.false_ne_true, if_neg Bool.false_ne_true, List.cons_append, ← ih]

namespace Span

/-- The lines from the end of the module before to the first item. -/
def documentation (span : Span) : List String :=
  documentationLines (span.lead ++ [span.start] ++ untilItem span.body)

def declarations (span : Span) : List Place := span.places.filter (·.token.isItem)

/-- The module, its parameters and its ports have the descriptions that the tokens of the span give
them; every token of the span has its place in one region. -/
structure Documents (span : Span) (module : Module) : Prop where
  description : module.description =
    if span.documentation = [] then none else some span.documentation
  generics : List.Forall₂ (fun place entry => entry.description = place.description?)
    span.parameters module.generics
  ports : ∀ port ∈ module.ports, ∃ place, span.DeclaredLast port.name place ∧
    port.description = place.description?
  regions : span.body = untilItem span.body ++
    span.declarations.flatMap fun place => place.token :: untilItem place.after

end Span

/-- Every module of a text that is read has the descriptions of its own tokens. -/
theorem exists_span_documents {text : String} {modules : List Module} {index : Nat}
    {module : Module} (parsed : parse text = .ok modules) (found : modules[index]? = some module) :
    ∃ span : Span, span.Within (tokens text) index ∧ span.Documents module := by
  obtain ⟨span, within, makes⟩ := exists_span_of_parse parsed found
  refine ⟨span, within, ?_, ?_, ?_, regions_placesFrom _ span.body⟩
  · have same : span.documentation = documentationLines (span.lead ++ untilItem span.body) := by
      simp [Span.documentation, documentationLines, within.start]
    rw [makes.description, same]
    simp only [List.isEmpty_iff]
  · rw [makes.generics, Span.generics_items, List.forall₂_map_right_iff, List.forall₂_same]
    exact fun place _ => rfl
  · intro port member
    rw [makes.ports, (Ordered.sort_perm _ _).mem_iff] at member
    obtain ⟨place, last, same⟩ := Span.mem_placed_items.1 member
    exact ⟨place, last, congrArg Parameter.description same⟩

/-- Lines in front of the module, in front of its first port, and behind one of its ports. -/
theorem exists_span_documents_latch :
    ∃ module,
      parse "//# Latch.\nmodule m (//# Clear.\ninput d, //# data\n//# in\noutput q\n);\nendmodule\n" =
        .ok [module] ∧
      module.description = some ["Latch.", "Clear."] ∧
      module.ports.map (·.description) = [some ["in"], none] ∧
      ∃ span : Span, span.Documents module := by
  have parsed :
      parse "//# Latch.\nmodule m (//# Clear.\ninput d, //# data\n//# in\noutput q\n);\nendmodule\n" =
        .ok [{
          name := "m"
          ports := [
            { name := "d", direction := some .input, dataType := "", description := some ["in"] },
            { name := "q", direction := some .output, dataType := "" }]
          description := some ["Latch.", "Clear."] }] := by
    decide +kernel
  obtain ⟨span, _, documents⟩ := @exists_span_documents _ _ 0 _ parsed rfl
  exact ⟨_, parsed, rfl, rfl, span, documents⟩

end VerilogInterface
