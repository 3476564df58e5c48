import GraphQL.Proofs.Validation.Passing

/-! Rules that look at definitions as wholes. In the parts of a definition they have nothing to
report, so that they report what they make of one definition after the other. -/
namespace GraphQL.Validation
open Ast (Node Document Call Tree Definition FragmentDefinition)

variable {ε : Type} {rule : Rule ε} {schema : Schema} {document : Document}

/-- What a rule reports in some turns, after which it is still called. -/
structure Rule.Tells (rule : Rule ε) (state : rule.State) (turns : List Turn) (found : List ε)
    (last : rule.State) : Prop where
  reports : @Watch.reports ε rule (state, .watching) turns = found
  after : @Watch.after ε rule (state, .watching) turns = (last, .watching)

/-- A rule goes on from a node with its state, and has nothing to report about it. -/
def Rule.PassesOver (rule : Rule ε) (node : Node) : Prop :=
  ∀ site state, site.node = node →
    rule.enter site state = (.proceed, state) ∧ rule.leave site state = (.proceed, state)

section Tells
variable {scope : Scope} {ancestors : List Node} {state mid last : rule.State} {found more : List ε}

theorem Rule.Tells.append {first second : List Turn} (here : rule.Tells state first found mid)
    (later : rule.Tells mid second more last) :
    rule.Tells state (first ++ second) (found ++ more) last := by
  constructor
  · rw [Watch.reports_append, here.reports, here.after, later.reports]
  · rw [Watch.after_append, here.after, later.after]

/-- A rule that leaves a node out reports nothing below it. -/
theorem reports_skipping (state : rule.State) {depth : Nat} {calls : List Call}
    (below : ∀ call ∈ calls, depth < call.ancestors.length) (scope : Scope) :
    @Watch.reports ε rule (state, .skipping depth) (turns schema document scope calls) = [] := by
  induction calls generalizing scope with
  | nil => rfl
  | cons call rest ih =>
    have later := ih fun other member => below other (List.mem_cons_of_mem _ member)
    have deeper := below call List.mem_cons_self
    obtain ⟨leaving, node, around⟩ := call
    cases leaving with
    | false => exact later _
    | true =>
      have still : (if depth = around.length then Attention.watching else .skipping depth) =
          .skipping depth := if_neg (Nat.ne_of_lt deeper)
      rw [turns, Watch.reports]
      show [] ++ Watch.reports
        (state, if depth = around.length then Attention.watching else .skipping depth) _ = _
      rw [still]
      exact later _

/-- Of a node that it leaves out, a rule reports what it has found when it entered the node. -/
theorem tells_skip {node : Node} (enters : rule.enter
      ⟨schema, document, scope.enter schema node, node, ancestors⟩ state = (⟨found, .skip⟩, last)) :
    rule.Tells state (turns schema document scope (node.tree.calls ancestors)) found last := by
  have skips := congrArg (fun answer => answer.1.action) enters
  rw [tree_eta node]
  constructor
  · have below : ∀ call ∈ Tree.callsAll (node :: ancestors) node.tree.parts,
        ancestors.length < call.ancestors.length :=
      fun call member => callsAll_below (node :: ancestors) node.tree.parts call member
    rw [Tree.calls, turns, turns_append, Watch.reports, Watch.turn]
    simp only [Bool.false_eq_true, if_false, Watch.enter, enters]
    rw [Watch.reports_append, reports_skipping _ below, after_skipping _ below]
    simp [turns, Watch.reports, Watch.turn, Watch.leave]
  · rw [after_skip _ skips, enters]

/-- Of a node that it goes on from, a rule reports what it finds when it enters the node, in its parts,
and when it leaves the node. -/
theorem tells_open {node : Node} {next : rule.State} {ended : List ε} (enters : rule.enter
      ⟨schema, document, scope.enter schema node, node, ancestors⟩ state = (⟨found, .proceed⟩, next))
    (inner : rule.Tells next (turns schema document (scope.enter schema node)
      (Tree.callsAll (node :: ancestors) node.tree.parts)) more mid)
    (leaves : rule.leave ⟨schema, document, leaving schema scope ancestors node, node, ancestors⟩
      mid = (⟨ended, .proceed⟩, last)) :
    rule.Tells state (turns schema document scope (node.tree.calls ancestors))
      (found ++ (more ++ ended)) last := by
  have final : rule.Tells mid
      [(true, ⟨schema, document, leaving schema scope ancestors node, node, ancestors⟩)] ended
      last := by
    constructor <;> simp [Watch.reports, Watch.after, Watch.turn, Watch.leave, leaves]
  have rest := inner.append final
  have goes := congrArg (fun answer => answer.1.action) enters
  rw [tree_eta node, Tree.calls, turns, turns_append]
  constructor
  · rw [Watch.reports, Watch.turn]
    simp only [Bool.false_eq_true, if_false, Watch.enter, enters]
    exact congrArg _ rest.reports
  · rw [after_open goes, enters]
    exact rest.after

/-- A rule that finds nothing before it leaves a node reports what it finds then. -/
theorem tells_end {node : Node} {ended : List ε} (enters : rule.enter
      ⟨schema, document, scope.enter schema node, node, ancestors⟩ state = (.proceed, state))
    (inner : rule.Tells state (turns schema document (scope.enter schema node)
      (Tree.callsAll (node :: ancestors) node.tree.parts)) [] state)
    (leaves : rule.leave ⟨schema, document, leaving schema scope ancestors node, node, ancestors⟩
      state = (⟨ended, .proceed⟩, last)) :
    rule.Tells state (turns schema document scope (node.tree.calls ancestors)) ended last :=
  tells_open enters inner leaves

/-- A rule reports nothing in calls at nodes that it passes over. -/
theorem tells_nothing {calls : List Call} (passes : ∀ call ∈ calls, rule.PassesOver call.node)
    (scope : Scope) (state : rule.State) :
    rule.Tells state (turns schema document scope calls) [] state := by
  induction calls generalizing scope with
  | nil => exact ⟨rfl, rfl⟩
  | cons call calls ih =>
    obtain ⟨leaving, node, ancestors⟩ := call
    obtain ⟨own, others⟩ := List.forall_mem_cons.1 passes
    have single (turn : Turn) (here : turn.2.node = node) : rule.Tells state [turn] [] state := by
      obtain ⟨leaving, site⟩ := turn
      obtain ⟨enters, leaves⟩ := own site state here
      cases leaving <;> constructor <;>
        simp [Watch.reports, Watch.after, Watch.turn, Watch.enter, Watch.leave, Verdict.proceed, enters,
          leaves]
    cases leaving <;> exact (single _ rfl).append (ih others _)

end Tells

/-- What is found in items that are taken one after the other, and the state after them. -/
def gather {σ α : Type} (step : σ → α → List ε × σ) (state : σ) : List α → List ε × σ
  | [] => ([], state)
  | item :: rest =>
      ((step state item).1 ++ (gather step (step state item).2 rest).1,
        (gather step (step state item).2 rest).2)

theorem gather_map {δ σ α : Type} (f : ε → δ) (step : σ → α → List ε × σ) (state : σ)
    (items : List α) :
    gather (fun state item => ((step state item).1.map f, (step state item).2)) state items =
      ((gather step state items).1.map f, (gather step state items).2) := by
  induction items generalizing state with
  | nil => rfl
  | cons item rest ih => rw [gather, ih, gather, List.map_append]

/-- Without a state, what is found in items is what is found in each. -/
theorem gather_each {σ α : Type} (found : α → List ε) (state : σ) (items : List α) :
    gather (fun state item => (found item, state)) state items = (items.flatMap found, state) := by
  induction items generalizing state with
  | nil => rfl
  | cons item rest ih => rw [gather, ih, List.flatMap_cons]

/-- A rule that looks at definitions as wholes makes something of each, and goes on. -/
def Rule.Whole (rule : Rule ε) (schema : Schema) (document : Document)
    (step : rule.State → Definition → List ε × rule.State) : Prop :=
  ∀ state definition, rule.Tells state (turns schema document {}
    ((Tree.ofDefinition definition).calls [.document document])) (step state definition).1
      (step state definition).2

section Whole
variable {step : rule.State → Definition → List ε × rule.State}

theorem Rule.Whole.definitions (whole : rule.Whole schema document step) (state : rule.State)
    (definitions : List Definition) : rule.Tells state (turns schema document {}
      (Tree.callsAll [.document document] (definitions.map Tree.ofDefinition)))
      (gather step state definitions).1 (gather step state definitions).2 := by
  induction definitions generalizing state with
  | nil => exact ⟨rfl, rfl⟩
  | cons definition rest ih =>
    rw [List.map_cons, Tree.callsAll, turns_append,
      (Scope.restored_tree schema {} _ (Tree.ofDefinition definition)).eq_of_idle ⟨rfl, rfl⟩]
    exact (whole state definition).append (ih _)

/-- A rule that looks at definitions as wholes reports what it finds when it enters the document, in
one definition after the other, and when it leaves the document. -/
theorem Rule.Whole.reports (whole : rule.Whole schema document step) {found ended : List ε}
    {state last : rule.State}
    (enters : rule.enter ⟨schema, document, {}, .document document, []⟩ rule.start =
      (⟨found, .proceed⟩, state))
    (leaves : rule.leave ⟨schema, document, {}, .document document, []⟩
      (gather step state document.definitions).2 = (⟨ended, .proceed⟩, last)) :
    rule.reports (documentTurns schema document) =
      found ++ ((gather step state document.definitions).1 ++ ended) := by
  have restored : leaving schema {} [] (.document document) = {} :=
    (Scope.restored_trees schema _ _ _).eq_of_idle ⟨rfl, rfl⟩
  have told : rule.Tells rule.start
      (turns schema document {} ((Node.document document).tree.calls [])) _ _ :=
    tells_open enters (whole.definitions state document.definitions) (restored.symm ▸ leaves)
  exact told.reports

/-- The same without a state that tells what has been seen. -/
theorem Rule.Whole.reports_each {each : Definition → List ε}
    (whole : rule.Whole schema document fun state definition => (each definition, state))
    {found ended : List ε} {state last : rule.State}
    (enters : rule.enter ⟨schema, document, {}, .document document, []⟩ rule.start =
      (⟨found, .proceed⟩, state))
    (leaves : rule.leave ⟨schema, document, {}, .document document, []⟩ state =
      (⟨ended, .proceed⟩, last)) : rule.reports (documentTurns schema document) =
      found ++ (document.definitions.flatMap each ++ ended) := by
  have same := gather_each each state document.definitions
  rw [whole.reports enters (by rw [same]; exact leaves), same]

end Whole

section ByFragment

/-- A rule that looks at fragments as wholes, and at nothing else but the document. -/
structure Rule.ByFragment (rule : Rule ε)
    (visit : rule.State → FragmentDefinition → List ε × rule.State) : Prop where
  operation : ∀ site state operation, site.node = .operation operation →
    rule.enter site state = (.skip, state)
  fragment : ∀ site state fragment, site.node = .fragment fragment →
    rule.enter site state = (⟨(visit state fragment).1, .skip⟩, (visit state fragment).2)
  typeSystem : ∀ site state definition, site.node = .typeSystem definition →
    rule.enter site state = (.proceed, state)
  leave : ∀ site state, rule.leave site state = (.proceed, state)

/-- What such a rule makes of a definition. -/
def visitDefinition {σ : Type} (visit : σ → FragmentDefinition → List ε × σ) (state : σ) :
    Definition → List ε × σ
  | .fragment fragment => visit state fragment
  | _ => ([], state)

theorem gather_fragments {σ : Type} (visit : σ → FragmentDefinition → List ε × σ) (state : σ)
    (definitions : List Definition) : gather (visitDefinition visit) state definitions =
      gather visit state (definitions.filterMap Definition.fragment?) := by
  induction definitions generalizing state with
  | nil => rfl
  | cons definition rest ih =>
    rw [gather, ih]
    cases definition <;> rfl

variable {visit : rule.State → FragmentDefinition → List ε × rule.State}

theorem Rule.ByFragment.whole (fragments : rule.ByFragment visit) :
    rule.Whole schema document (visitDefinition visit) := by
  intro state definition
  cases definition with
  | operation operation => exact tells_skip (fragments.operation _ state operation rfl)
  | fragment fragment => exact tells_skip (fragments.fragment _ state fragment rfl)
  | typeSystem definition =>
    exact tells_end (fragments.typeSystem _ state definition rfl) ⟨rfl, rfl⟩ (fragments.leave _ _)

/-- A rule that looks at fragments as wholes reports what it finds in one after the other. -/
theorem Rule.ByFragment.reports (fragments : rule.ByFragment visit) {state : rule.State}
    (enters : rule.enter ⟨schema, document, {}, .document document, []⟩ rule.start =
      (.proceed, state)) :
    rule.reports (documentTurns schema document) = (gather visit state document.fragments).1 := by
  rw [fragments.whole.reports enters (fragments.leave _ _), gather_fragments]
  simp [Document.fragments]

end ByFragment
end GraphQL.Validation
