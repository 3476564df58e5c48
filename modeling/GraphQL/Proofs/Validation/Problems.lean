import GraphQL.Proofs.Validation.Trace
import GraphQL.Validation.Basic

/-! Which rules report problems only. Whatever is found by rules that do, validation returns. -/
namespace GraphQL.Validation

/-- A verdict on problems of the document only. -/
def Verdict.Sound (verdict : Verdict Finding) : Prop := Finding.endless ∉ verdict.findings

/-- A rule that always comes to an end. -/
structure Rule.Sound (rule : Rule Finding) : Prop where
  enter : ∀ site state, (rule.enter site state).1.Sound
  leave : ∀ site state, (rule.leave site state).1.Sound

section Verdicts

@[simp] theorem Verdict.proceed_sound : (Verdict.proceed : Verdict Finding).Sound :=
  List.not_mem_nil

@[simp] theorem Verdict.skip_sound : (Verdict.skip : Verdict Finding).Sound := List.not_mem_nil

@[simp] theorem Verdict.report_sound (findings : List Finding) :
    (Verdict.report findings).Sound ↔ Finding.endless ∉ findings := Iff.rfl

@[simp] theorem Verdict.mk_sound (findings : List Finding) (action : Ast.Action) :
    (Verdict.mk findings action).Sound ↔ Finding.endless ∉ findings := Iff.rfl

@[simp] theorem endless_ne_violation (violation : Violation) (spans : List (Option Span)) :
    Finding.endless ≠ .violation violation spans := by
  intro same
  cases same

@[simp] theorem violation_ne_endless (violation : Violation) (spans : List (Option Span)) :
    Finding.violation violation spans ≠ .endless := by
  intro same
  cases same

theorem ofCheck_sound {name : String} {enter leave : Site → Verdict Finding}
    (entering : ∀ site, (enter site).Sound) (leaving : ∀ site, (leave site).Sound) :
    (Rule.ofCheck name enter leave).Sound :=
  ⟨fun site _ => entering site, fun site _ => leaving site⟩

theorem ofSeen_sound {name : String} {enter : Site → Seen → Verdict Finding × Seen}
    (entering : ∀ site seen, (enter site seen).1.Sound) : (Rule.ofSeen name enter).Sound :=
  ⟨entering, fun _ _ => Verdict.proceed_sound⟩

theorem ofOperation_sound {name : String}
    {check : Schema → Ast.Document → Ast.OperationDefinition → List Finding}
    (checked : ∀ schema document operation, Finding.endless ∉ check schema document operation) :
    (Rule.ofOperation name check).Sound := by
  refine ofCheck_sound (fun _ => Verdict.proceed_sound) fun site => ?_
  split
  · exact checked _ _ _
  · exact Verdict.proceed_sound

theorem meet_sound (seen : Seen) (name : String) (span : Option Span)
    (repeated : String → Violation) : Finding.endless ∉ (seen.meet name span repeated).1 := by
  unfold Seen.meet
  split <;> simp

theorem repetitions_sound (repeated : String → Violation) (seen : Seen)
    (names : List (String × Option Span)) :
    Finding.endless ∉ Seen.repetitions repeated seen names := by
  induction names generalizing seen with
  | nil => exact List.not_mem_nil
  | cons first rest ih =>
    rw [Seen.repetitions, List.mem_append, not_or]
    exact ⟨meet_sound seen first.1 first.2 repeated, ih _⟩

end Verdicts

section Rules

@[simp] theorem fragmentCondition_sound (site : Site) (fragment : Option String)
    (condition : Ast.NamedType) : (Rule.fragmentCondition site fragment condition).Sound := by
  unfold Rule.fragmentCondition
  repeat' split
  all_goals simp

@[simp] theorem spreadOf_sound (site : Site) (fragment : Option String) (type : Option TypeDef)
    (span : Option Span) : (Rule.spreadOf site fragment type span).Sound := by
  unfold Rule.spreadOf
  repeat' split
  all_goals simp

@[simp] theorem defaultFindings_sound (schema : Schema) (name : String) (type : TypeRef)
    (value : Ast.Value) : Finding.endless ∉ Rule.defaultFindings schema name type value := by
  rw [Rule.defaultFindings, List.mem_append, not_or]
  constructor <;> split <;> simp

/-- The rules that look at each node as it is entered. -/
theorem entering_sound : ∀ rule ∈ [Rule.loneAnonymousOperation, Rule.singleFieldSubscriptions,
    Rule.knownTypeNames, Rule.variablesAreInputTypes, Rule.scalarLeafs, Rule.fieldsOnCorrectType,
    Rule.knownFragmentNames, Rule.possibleFragmentSpreads, Rule.knownDirectives, Rule.uniqueDirectivesPerLocation,
    Rule.knownArgumentNames, Rule.argumentsOfCorrectType, Rule.defaultValuesOfCorrectType],
    rule.Sound := by
  intro rule member
  simp only [List.mem_cons, List.not_mem_nil, or_false] at member
  rcases member with rfl | rfl | rfl | rfl | rfl | rfl | rfl | rfl | rfl | rfl | rfl | rfl | rfl
  all_goals refine ofCheck_sound (fun site => ?_) fun _ => Verdict.proceed_sound
  case inr.inr.inr.inr.inr.inr.inr.inr.inr.inl => exact repetitions_sound _ _ _
  all_goals repeat' first | split | dsimp only
  all_goals simp

theorem fragmentsOnCompositeTypes_sound : Rule.fragmentsOnCompositeTypes.Sound := by
  refine ofCheck_sound (fun site => ?_) fun _ => Verdict.proceed_sound
  split
  · rename_i inline _
    cases inline.typeCondition <;> simp
  · simp
  · simp

/-- The rules that wait until a node is left. -/
theorem leaving_sound :
    ∀ rule ∈ [Rule.noUnusedFragments, Rule.providedNonNullArguments], rule.Sound := by
  intro rule member
  simp only [List.mem_cons, List.not_mem_nil, or_false] at member
  rcases member with rfl | rfl
  all_goals refine ofCheck_sound (fun site => ?_) fun site => ?_
  all_goals repeat' split
  all_goals simp

/-- The rules that look at an operation with all that it uses. -/
theorem operation_sound : ∀ rule ∈ [Rule.noUndefinedVariables, Rule.noUnusedVariables,
    Rule.variablesInAllowedPosition], rule.Sound := by
  intro rule member
  simp only [List.mem_cons, List.not_mem_nil, or_false] at member
  rcases member with rfl | rfl | rfl
  all_goals refine ofOperation_sound fun schema document operation => ?_
  · simp
  · simp
  · intro member
    obtain ⟨usage, _, found⟩ := List.mem_filterMap.1 member
    simp only [Rule.misuse?, Option.bind_eq_bind, Option.bind_eq_some_iff] at found
    obtain ⟨_, _, _, _, _, _, found⟩ := found
    split at found
    · cases found
    · cases found

/-- The rules about names that are given twice. -/
theorem uniqueness_sound : ∀ rule ∈ [Rule.uniqueOperationNames, Rule.uniqueFragmentNames,
    Rule.uniqueVariableNames, Rule.uniqueArgumentNames], rule.Sound := by
  intro rule member
  simp only [List.mem_cons, List.not_mem_nil, or_false] at member
  rcases member with rfl | rfl | rfl | rfl
  all_goals refine ofSeen_sound fun site seen => ?_
  all_goals repeat' first | exact meet_sound _ _ _ _ | split
  all_goals simp

theorem uniqueInputFieldNames_sound : Rule.uniqueInputFieldNames.Sound := by
  constructor
  · intro site scopes
    unfold Rule.uniqueInputFieldNames
    dsimp only
    split
    · exact Verdict.proceed_sound
    · exact meet_sound _ _ _ _
    · exact Verdict.proceed_sound
  · intro site scopes
    unfold Rule.uniqueInputFieldNames
    dsimp only
    split <;> simp

theorem noFragmentCycles_sound : Rule.noFragmentCycles.Sound := by
  constructor
  · intro site unvisited
    unfold Rule.noFragmentCycles
    dsimp only
    repeat' split
    all_goals simp [FragmentCycle.finding]
  · intro site unvisited
    exact Verdict.proceed_sound

/-- All rules but one report problems only. -/
theorem standard_sound {rule : Rule Finding} (member : rule ∈ Rule.standard)
    (other : rule ≠ Rule.overlappingFieldsCanBeMerged) : rule.Sound := by
  simp only [Rule.standard, List.mem_cons, List.not_mem_nil, or_false] at member
  rcases member with rfl | rfl | rfl | rfl | rfl | rfl | rfl | rfl | rfl | rfl | rfl | rfl | rfl |
    rfl | rfl | rfl | rfl | rfl | rfl | rfl | rfl | rfl | rfl | rfl | rfl | rfl
  all_goals first
    | exact absurd rfl other
    | exact fragmentsOnCompositeTypes_sound
    | exact uniqueInputFieldNames_sound
    | exact noFragmentCycles_sound
    | (apply entering_sound; simp; done)
    | (apply leaving_sound; simp; done)
    | (apply operation_sound; simp; done)
    | (apply uniqueness_sound; simp)

end Rules

section Findings

theorem Watch.turn_sound {rule : Rule Finding} (sound : rule.Sound) (watch : Watch rule)
    (turn : Turn) : Finding.endless ∉ (watch.turn turn).1 := by
  obtain ⟨leaving, site⟩ := turn
  obtain ⟨state, attention⟩ := watch
  cases leaving with
  | true =>
    cases attention with
    | watching => exact sound.leave site state
    | skipping _ => exact List.not_mem_nil
    | done => exact List.not_mem_nil
  | false =>
    cases attention with
    | watching => exact sound.enter site state
    | skipping _ => exact List.not_mem_nil
    | done => exact List.not_mem_nil

theorem Watch.reports_sound {rule : Rule Finding} (sound : rule.Sound) (watch : Watch rule)
    (turns : List Turn) : Finding.endless ∉ watch.reports turns := by
  induction turns generalizing watch with
  | nil => exact List.not_mem_nil
  | cons turn turns ih =>
    rw [Watch.reports, List.mem_append, not_or]
    exact ⟨Watch.turn_sound sound watch turn, ih _⟩

/-- The problems of findings without an endless one. -/
theorem problems?_isSome (findings : List Finding) :
    (Finding.problems? findings).isSome = true ↔ Finding.endless ∉ findings := by
  induction findings with
  | nil => simp [Finding.problems?]
  | cons finding rest ih =>
    cases finding with
    | problem problem => simp [Finding.problems?, ih]
    | endless => simp [Finding.problems?]

theorem problems?_map (problems : List Problem) :
    Finding.problems? (problems.map .problem) = some problems := by
  induction problems with
  | nil => rfl
  | cons problem rest ih => rw [List.map_cons, Finding.problems?, ih, Option.map_some]

/-- A document is checked by a single rule. -/
theorem validateWith_of_reports {schema : Schema} {document : Ast.Document} {rule : Rule Finding}
    {problems : List Problem}
    (reported : rule.reports (documentTurns schema document) = problems.map .problem) :
    schema.validateWith [rule] document = some problems := by
  rw [Schema.validateWith, findings_singleton, reported, problems?_map]

/-- Validation returns if the rule about merging comes to an end. -/
theorem validate_isSome (schema : Schema) (document : Ast.Document) :
    (schema.validate document).isSome = true ↔ Finding.endless ∉
      Rule.overlappingFieldsCanBeMerged.reports (documentTurns schema document) := by
  rw [Schema.validate, Schema.validateWith, problems?_isSome, mem_findings]
  constructor
  · intro none member
    exact none ⟨_, by simp [Rule.standard], member⟩
  · rintro none ⟨rule, member, endless⟩
    by_cases merging : rule = Rule.overlappingFieldsCanBeMerged
    · exact none (merging ▸ endless)
    · exact Watch.reports_sound (standard_sound member merging) _ _ endless

end Findings
end GraphQL.Validation
