import GraphQL.Proofs.Overlap.Exactness
import GraphQL.Proofs.Validation.Passing
import GraphQL.Proofs.Entries
import GraphQL.Proofs.Validation.Cycles

/-! What holds of documents that validation finds nothing wrong with. -/
namespace GraphQL.Validation
open Ast (Node Document Call Tree FragmentDefinition)

variable {schema : Schema} {document : Document}

/-- A rule that never stops and goes on from every node around selections. -/
structure Rule.Steady {ε : Type} (rule : Rule ε) : Prop extends rule.Tireless where
  opens : ∀ node : Node, node.isQuiet = false → rule.Opens node

section Reports

theorem findings_nil {findings : List Finding} (none : Finding.problems? findings = some []) :
    findings = [] := by
  cases findings with
  | nil => rfl
  | cons finding rest =>
    cases finding with
    | endless => cases none
    | problem problem =>
      rw [Finding.problems?, Option.map_eq_some_iff] at none
      obtain ⟨_, _, same⟩ := none
      cases same

/-- A rule has nothing to report about a document that is accepted. -/
theorem reports_of_accepted (accepted : schema.validate document = some []) {rule : Rule Finding}
    (member : rule ∈ Rule.standard) : rule.reports (documentTurns schema document) = [] := by
  have none := findings_nil accepted
  refine List.eq_nil_iff_forall_not_mem.2 fun finding inside => ?_
  have found : finding ∈ findings schema Rule.standard document := mem_findings.2 ⟨rule, member, inside⟩
  rw [none] at found
  cases found

variable {scope : Scope} {ancestors : List Node} {node : Node}

theorem Entered.steady {rule : Rule Finding}
    (entered : Entered schema (.document document) scope ancestors node)
    (accepted : schema.validate document = some []) (member : rule ∈ Rule.standard)
    (steady : rule.Steady) :
    ∃ state last, rule.Passes state (turns schema document scope (node.tree.calls ancestors)) last :=
  entered.passes steady.toTireless (reports_of_accepted accepted member)
    fun outer inside => steady.opens outer (entered.around outer inside)

/-- What a rule that looks at each node for itself finds at a node. -/
theorem Entered.checked {name : String} {enter leave : Site → Verdict Finding}
    (entered : Entered schema (.document document) scope ancestors node)
    (accepted : schema.validate document = some [])
    (member : Rule.ofCheck name enter leave ∈ Rule.standard)
    (steady : (Rule.ofCheck name enter leave).Steady) :
    (enter ⟨schema, document, scope.enter schema node, node, ancestors⟩).findings = [] := by
  obtain ⟨state, last, passes⟩ := entered.steady accepted member steady
  exact passes.enter

/-- What such a rule finds when it leaves a node around selections. -/
theorem Entered.left {name : String} {enter leave : Site → Verdict Finding}
    (entered : Entered schema (.document document) scope ancestors node)
    (loud : node.isQuiet = false) (accepted : schema.validate document = some [])
    (member : Rule.ofCheck name enter leave ∈ Rule.standard)
    (steady : (Rule.ofCheck name enter leave).Steady) :
    (leave ⟨schema, document, scope.enter schema node, node, ancestors⟩).findings = [] := by
  obtain ⟨state, last, passes⟩ := entered.steady accepted member steady
  obtain ⟨_, -, silent, -⟩ :=
    passes.parts steady.toTireless (steady.opens node loud _ state rfl)
  have restored : leaving schema scope ancestors node = scope.enter schema node :=
    (Scope.restored_trees schema _ _ _).eq_of_idle (entered.idle.enter loud)
  rw [restored] at silent
  exact silent

end Reports

section Steady

theorem ofCheck_steady {name : String} {enter leave : Site → Verdict Finding}
    (enters : ∀ site, (enter site).action = .proceed) (leaves : ∀ site, (leave site).action = .proceed) :
    (Rule.ofCheck name enter leave).Steady where
  enter site state := by
    show (enter site).action ≠ .stop
    rw [enters]
    nofun
  leave site state := by
    show (leave site).action ≠ .stop
    rw [leaves]
    nofun
  opens _ _ site _ _ := enters site

theorem scalarLeafs_steady : Rule.scalarLeafs.Steady := by
  refine ofCheck_steady (fun site => ?_) fun _ => rfl
  repeat' split
  all_goals rfl

theorem fieldsOnCorrectType_steady : Rule.fieldsOnCorrectType.Steady := by
  refine ofCheck_steady (fun site => ?_) fun _ => rfl
  split <;> rfl

theorem knownFragmentNames_steady : Rule.knownFragmentNames.Steady := by
  refine ofCheck_steady (fun site => ?_) fun _ => rfl
  repeat' split
  all_goals rfl

theorem fragmentCondition_proceeds (site : Site) (fragment : Option String) (condition : Ast.NamedType) :
    (Rule.fragmentCondition site fragment condition).action = .proceed := by
  unfold Rule.fragmentCondition
  repeat' split
  all_goals rfl

theorem fragmentsOnCompositeTypes_steady : Rule.fragmentsOnCompositeTypes.Steady := by
  refine ofCheck_steady (fun site => ?_) fun _ => rfl
  split
  · rename_i inline _
    cases inline.typeCondition with
    | none => rfl
    | some condition => exact fragmentCondition_proceeds site none condition
  · exact fragmentCondition_proceeds site _ _
  · rfl

theorem knownTypeNames_steady : Rule.knownTypeNames.Steady where
  enter site state := by
    unfold Rule.knownTypeNames Rule.ofCheck
    dsimp only
    repeat' split
    all_goals nofun
  leave _ _ := nofun
  opens node loud site state same := by
    subst same
    unfold Rule.knownTypeNames Rule.ofCheck
    dsimp only
    split
    · split <;> rfl
    · rename_i here
      rw [here] at loud
      cases loud
    · rfl

theorem uniqueArgumentNames_steady : Rule.uniqueArgumentNames.Steady where
  enter site state := by
    unfold Rule.uniqueArgumentNames Rule.ofSeen
    dsimp only
    split <;> nofun
  leave _ _ := nofun
  opens node loud site state same := by
    subst same
    unfold Rule.uniqueArgumentNames Rule.ofSeen
    dsimp only
    split
    · rfl
    · rfl
    · rename_i here
      rw [here] at loud
      cases loud
    · rfl

end Steady

section Nodes
variable {scope : Scope} {ancestors : List Node}

/-- A field of an accepted document is defined on the type around it, and has a selection set
exactly if its type has one. -/
theorem field_accepted (accepted : schema.validate document = some []) {field : Ast.Field}
    (entered : Entered schema (.document document) scope ancestors (.field field)) {parent : TypeDef}
    (around : scope.parent = some parent) :
    ∃ definition, schema.field? parent field.name.text = some definition ∧
      ∀ type, schema.named? definition.type = some type →
        (type.isLeaf = true ↔ field.selectionSet = none) := by
  have known := entered.checked accepted (by simp [Rule.standard, Rule.fieldsOnCorrectType])
    fieldsOnCorrectType_steady
  have leaf := entered.checked accepted (by simp [Rule.standard, Rule.scalarLeafs]) scalarLeafs_steady
  have parented : (scope.enter schema (.field field)).parent = some parent := around
  have defined : (scope.enter schema (.field field)).field = schema.field? parent field.name.text := by
    show scope.parent.bind (fun parent => schema.field? parent field.name.text) = _
    rw [around]
    rfl
  have typed : (scope.enter schema (.field field)).type =
      (schema.field? parent field.name.text).map Field.type := by
    show (scope.parent.bind (fun parent => schema.field? parent field.name.text)).map Field.type = _
    rw [around]
    rfl
  cases found : schema.field? parent field.name.text with
  | none =>
    simp only [parented, defined, found] at known
    cases known
  | some definition =>
    refine ⟨definition, rfl, fun type here => ?_⟩
    simp only [typed, found, Option.map_some, here] at leaf
    generalize type.isLeaf = isLeaf, field.selectionSet = set at leaf ⊢
    cases isLeaf <;> cases set
    · cases leaf
    · exact iff_of_false Bool.false_ne_true (Option.some_ne_none _)
    · exact iff_of_true rfl rfl
    · cases leaf

/-- Spreads name fragments. -/
theorem spread_accepted (accepted : schema.validate document = some []) {spread : Ast.FragmentSpread}
    (entered : Entered schema (.document document) scope ancestors (.spread spread)) :
    ∃ fragment, document.fragment? spread.target = some fragment := by
  have known := entered.checked accepted (by simp [Rule.standard, Rule.knownFragmentNames])
    knownFragmentNames_steady
  cases found : document.fragment? spread.target with
  | some fragment => exact ⟨fragment, rfl⟩
  | none =>
    simp only [found] at known
    cases known

/-- Named types are in the schema. -/
theorem namedType_accepted (accepted : schema.validate document = some []) {type : Ast.NamedType}
    (entered : Entered schema (.document document) scope ancestors (.namedType type)) :
    ∃ found, schema.type? type.name.text = some found := by
  have known := entered.checked accepted (by simp [Rule.standard, Rule.knownTypeNames])
    knownTypeNames_steady
  cases found : schema.type? type.name.text with
  | some here => exact ⟨here, rfl⟩
  | none =>
    simp only [found] at known
    cases known

theorem composite_of_condition {site : Site} {fragment : Option String} {condition : Ast.NamedType}
    (none : (Rule.fragmentCondition site fragment condition).findings = []) {type : TypeDef}
    (found : site.schema.type? condition.name.text = some type) : type.isComposite = true := by
  rw [Rule.fragmentCondition, found] at none
  dsimp only at none
  split at none
  · assumption
  · cases none

/-- Inline fragments select from types that have selections. -/
theorem inline_accepted (accepted : schema.validate document = some []) {inline : Ast.InlineFragment}
    (entered : Entered schema (.document document) scope ancestors (.inline inline))
    {condition : Ast.NamedType} (written : inline.typeCondition = some condition) :
    ∃ type, schema.type? condition.name.text = some type ∧ type.isComposite = true := by
  have child : Node.namedType condition ∈ (Node.inline inline).children := by
    obtain ⟨_, _, _, _⟩ := inline
    cases written
    exact List.mem_cons_self
  obtain ⟨type, found⟩ := namedType_accepted accepted (entered.part rfl child)
  have composite := entered.checked accepted (by simp [Rule.standard, Rule.fragmentsOnCompositeTypes])
    fragmentsOnCompositeTypes_steady
  simp only [written, Option.elim_some] at composite
  exact ⟨type, found, composite_of_condition composite found⟩

/-- Fragments select from types that have selections. -/
theorem fragment_accepted (accepted : schema.validate document = some []) {fragment : FragmentDefinition}
    (entered : Entered schema (.document document) scope ancestors (.fragment fragment)) :
    ∃ type, schema.type? fragment.typeCondition.name.text = some type ∧ type.isComposite = true := by
  have child : Node.namedType fragment.typeCondition ∈ (Node.fragment fragment).children :=
    List.mem_cons_self
  obtain ⟨type, found⟩ := namedType_accepted accepted (entered.part rfl child)
  have composite := entered.checked accepted (by simp [Rule.standard, Rule.fragmentsOnCompositeTypes])
    fragmentsOnCompositeTypes_steady
  exact ⟨type, found, composite_of_condition composite found⟩

end Nodes

section Names
variable {scope : Scope} {ancestors : List Node}

theorem meet_nil {seen : Seen} {name : String} {span : Option Span} {repeated : String → Violation}
    (silent : (seen.meet name span repeated).1 = []) :
    seen.lookup name = none ∧ (seen.meet name span repeated).2 = (name, span) :: seen := by
  unfold Seen.meet at silent ⊢
  cases found : seen.lookup name with
  | some first =>
    rw [found] at silent
    cases silent
  | none => exact ⟨rfl, rfl⟩

theorem not_seen {seen : Seen} {name : String} (fresh : seen.lookup name = none) :
    name ∉ seen.map Prod.fst := by
  intro member
  obtain ⟨entry, inside, same⟩ := List.mem_map.1 member
  have absent := List.lookup_eq_none_iff.1 fresh entry inside
  simp [same] at absent

/-- A name that has not been met, before names that are met once. -/
theorem names_cons {seen : Seen} {name : String} {span : Option Span} {names : List String}
    (fresh : seen.lookup name = none)
    (later : (((name, span) :: seen).map Prod.fst).Disjoint names ∧ names.Nodup) :
    (seen.map Prod.fst).Disjoint (name :: names) ∧ (name :: names).Nodup := by
  obtain ⟨apart, distinct⟩ := later
  rw [List.map_cons, List.disjoint_cons_left] at apart
  rw [List.disjoint_cons_right]
  exact ⟨⟨not_seen fresh, apart.2⟩, List.nodup_cons.2 ⟨apart.1, distinct⟩⟩

/-- Items that a rule remembers the names of, one after the other, have names of their own. -/
theorem names_pass {label : String} {enter : Site → Seen → Verdict Finding × Seen}
    (tireless : (Rule.ofSeen label enter).Tireless) {α : Type} {tree : α → Tree} {name : α → String}
    {span : α → Option Span} {repeated : String → Violation} (idle : scope.Idle)
    (meets : ∀ item (seen next : Seen), (Rule.ofSeen label enter).Passes seen
      (turns schema document scope ((tree item).calls ancestors)) next →
      seen.meet (name item) (span item) repeated = ([], next))
    {items : List α} {trees : List Tree} {seen last : Seen}
    (passes : (Rule.ofSeen label enter).Passes seen
      (turns schema document scope (Tree.callsAll ancestors (items.map tree ++ trees))) last) :
    (seen.map Prod.fst).Disjoint (items.map name) ∧ (items.map name).Nodup := by
  induction items generalizing seen with
  | nil => exact ⟨List.disjoint_nil_right _, List.nodup_nil⟩
  | cons item rest ih =>
    obtain ⟨mid, here, later⟩ := passes.cons tireless idle
    have met := meets item seen mid here
    obtain ⟨fresh, added⟩ := meet_nil (congrArg Prod.fst met)
    rw [met] at added
    have added : mid = (name item, span item) :: seen := added
    rw [added] at later
    exact names_cons fresh (ih later)

theorem argument_meets {argument : Ast.Argument} {seen next : Seen}
    (passes : Rule.uniqueArgumentNames.Passes seen
      (turns schema document scope ((Node.argument argument).tree.calls ancestors)) next) :
    seen.meet argument.name.text argument.name.span .repeatedArgument = ([], next) :=
  Prod.ext passes.enter (passes.skip rfl).symm

/-- The arguments of a field have names of their own. -/
theorem field_arguments (accepted : schema.validate document = some []) {field : Ast.Field}
    (entered : Entered schema (.document document) scope ancestors (.field field)) :
    (field.arguments.map fun argument => argument.name.text).Nodup := by
  obtain ⟨state, last, passes⟩ := entered.steady accepted
    (by simp [Rule.standard]) uniqueArgumentNames_steady
  obtain ⟨mid, inner, -⟩ := passes.parts uniqueArgumentNames_steady.toTireless rfl
  obtain ⟨nickname, name, arguments, directives, set, span⟩ := field
  rw [show (Node.field ⟨nickname, name, arguments, directives, set, span⟩).tree.parts =
    arguments.map Tree.ofArgument ++ (directives.map Tree.ofDirective ++ Tree.ofOptionalSet set) from
    List.append_assoc _ _ _] at inner
  exact (names_pass uniqueArgumentNames_steady.toTireless (entered.idle.enter rfl)
    (fun argument seen next passes => argument_meets passes) inner).2

end Names
end GraphQL.Validation

/-! The fragments of an accepted document: their names are their own, and none of them spreads
itself. So the document has no fields that conflict. -/
namespace GraphQL.Validation
open Ast (Document FragmentDefinition)
open Overlap (named? Acyclic take?_eq_some)

variable {schema : Schema} {document : Document}

section Names

theorem uniqueFragmentNames_byFragment : Rule.uniqueFragmentNames.ByFragment fun seen fragment =>
    Seen.meet seen fragment.name.text fragment.name.span .repeatedFragment where
  operation := by
    rintro ⟨_, _, _, _, _⟩ state operation ⟨⟩
    rfl
  fragment := by
    rintro ⟨_, _, _, _, _⟩ state fragment ⟨⟩
    rfl
  typeSystem := by
    rintro ⟨_, _, _, _, _⟩ state definition ⟨⟩
    rfl
  leave _ _ := rfl

theorem names_met {fragments : List FragmentDefinition} {seen : Seen}
    (silent : (gather (fun (seen : Seen) (fragment : FragmentDefinition) =>
      seen.meet fragment.name.text fragment.name.span .repeatedFragment) seen fragments).1 = []) :
    (seen.map Prod.fst).Disjoint (fragments.map fun fragment => fragment.name.text) ∧
      (fragments.map fun fragment => fragment.name.text).Nodup := by
  induction fragments generalizing seen with
  | nil => exact ⟨List.disjoint_nil_right _, List.nodup_nil⟩
  | cons fragment rest ih =>
    obtain ⟨silent, later⟩ := List.append_eq_nil_iff.1 silent
    obtain ⟨fresh, met⟩ := meet_nil silent
    exact names_cons fresh (ih (met ▸ later))

/-- No two fragments of an accepted document have one name. -/
theorem fragments_distinct (accepted : schema.validate document = some []) :
    (document.fragments.map fun fragment => fragment.name.text).Nodup := by
  have silent := reports_of_accepted accepted (show Rule.uniqueFragmentNames ∈ _ by simp [Rule.standard])
  rw [uniqueFragmentNames_byFragment.reports rfl] at silent
  exact (names_met silent).2

theorem named?_of_distinct {fragments : List FragmentDefinition}
    (distinct : (fragments.map fun fragment => fragment.name.text).Nodup) {fragment : FragmentDefinition}
    (member : fragment ∈ fragments) : named? fragments fragment.name.text = some fragment :=
  find?_of_distinct distinct member

/-- The fragments are those of the document. -/
def Belong (document : Document) (fragments : List FragmentDefinition) : Prop :=
  ∀ fragment ∈ fragments, document.fragment? fragment.name.text = some fragment

theorem take?_subset {unvisited others : List FragmentDefinition} {fragment : FragmentDefinition}
    {name : String} (taken : FragmentDefinition.take? unvisited name = some (fragment, others)) :
    others ⊆ unvisited := by
  obtain ⟨-, rfl⟩ := take?_eq_some taken
  exact List.filter_subset_self _

end Names

/-- No fragment of an accepted document spreads itself. -/
theorem acyclic_of_accepted (accepted : schema.validate document = some []) : Acyclic document := by
  have silent := reports_of_accepted accepted (show Rule.noFragmentCycles ∈ _ by simp [Rule.standard])
  rw [noFragmentCycles_reports, List.map_eq_nil_iff] at silent
  exact FragmentCycle.found_complete silent

section Merging
open Overlap (DistinctArguments PlainlyConflicts merging_exact)

theorem distinctArguments_of_accepted (accepted : schema.validate document = some []) :
    DistinctArguments document := by
  intro field member
  obtain ⟨scope, ancestors, entered⟩ := entered_of_mem document rfl member
  exact field_arguments accepted entered

/-- No fields of an accepted document conflict. -/
theorem not_conflicting_of_accepted (built : schema.Built) (accepted : schema.validate document = some []) :
    ¬ PlainlyConflicts schema document := by
  obtain ⟨problems, same, reported⟩ :=
    merging_exact built (distinctArguments_of_accepted accepted) (acyclic_of_accepted accepted)
  have silent := reports_of_accepted accepted (show Rule.overlappingFieldsCanBeMerged ∈ _ by
    simp [Rule.standard])
  rw [Schema.validateWith, findings_singleton, silent] at same
  cases same
  exact fun conflicts => reported.2 conflicts rfl

end Merging
end GraphQL.Validation
