import GraphQL.Proofs.Validation.Entered
import GraphQL.Validation.Basic

/-! Rules that have nothing to report about a document. One that never stops has then been called
for each node around selections, unless it has left out a node around that one. -/
namespace GraphQL.Validation
open Ast (Node Document Call Tree)

variable {ε : Type} {rule : Rule ε} {schema : Schema} {document : Document}

/-- The state of a rule after some turns. -/
def Watch.after (watch : Watch rule) : List Turn → Watch rule
  | [] => watch
  | turn :: rest => (watch.turn turn).2.after rest

/-- The rule has nothing to report in some turns, and is still called after them. -/
def Rule.Passes (rule : Rule ε) (state : rule.State) (turns : List Turn) (last : rule.State) : Prop :=
  @Watch.reports ε rule (state, .watching) turns = [] ∧
    @Watch.after ε rule (state, .watching) turns = (last, .watching)

/-- A rule that may leave out nodes, but never stops. -/
structure Rule.Tireless (rule : Rule ε) : Prop where
  enter : ∀ site state, (rule.enter site state).1.action ≠ .stop
  leave : ∀ site state, (rule.leave site state).1.action ≠ .stop

/-- A rule goes on to the parts of a node. -/
def Rule.Opens (rule : Rule ε) (node : Node) : Prop :=
  ∀ site state, site.node = node → (rule.enter site state).1.action = .proceed

/-- A rule keeps its state at a node. -/
def Rule.Keeps (rule : Rule ε) (node : Node) : Prop :=
  ∀ site state, site.node = node →
    (rule.enter site state).2 = state ∧ (rule.leave site state).2 = state

section Turns
variable {scope : Scope} {ancestors : List Node}

theorem Watch.reports_append (watch : Watch rule) (first second : List Turn) :
    watch.reports (first ++ second) = watch.reports first ++ (watch.after first).reports second := by
  induction first generalizing watch with
  | nil => rfl
  | cons turn rest ih =>
    rw [List.cons_append, Watch.reports, Watch.reports, Watch.after, ih, List.append_assoc]

theorem Watch.after_append (watch : Watch rule) (first second : List Turn) :
    watch.after (first ++ second) = (watch.after first).after second := by
  induction first generalizing watch with
  | nil => rfl
  | cons turn rest ih => rw [List.cons_append, Watch.after, Watch.after, ih]

mutual

theorem calls_below (ancestors : List Node) : (tree : Tree) →
    ∀ call ∈ tree.calls ancestors, ancestors.length ≤ call.ancestors.length
  | .node root parts => by
    intro call member
    simp only [Tree.calls, List.mem_cons, List.mem_append, List.not_mem_nil, or_false] at member
    rcases member with rfl | member | rfl
    · exact Nat.le_refl _
    · exact Nat.le_of_succ_le (callsAll_below (root :: ancestors) parts call member)
    · exact Nat.le_refl _

theorem callsAll_below (ancestors : List Node) : (trees : List Tree) →
    ∀ call ∈ Tree.callsAll ancestors trees, ancestors.length ≤ call.ancestors.length
  | [] => fun _ member => absurd member List.not_mem_nil
  | tree :: rest => by
    intro call member
    rw [Tree.callsAll, List.mem_append] at member
    rcases member with member | member
    · exact calls_below ancestors tree call member
    · exact callsAll_below ancestors rest call member

end

/-- A rule that leaves a node out is not called below it. -/
theorem after_skipping (state : rule.State) {depth : Nat} {calls : List Call}
    (below : ∀ call ∈ calls, depth < call.ancestors.length) (scope : Scope) :
    @Watch.after ε rule (state, .skipping depth) (turns schema document scope calls) =
      (state, .skipping depth) := by
  induction calls generalizing scope with
  | nil => rfl
  | cons call rest ih =>
    have later := ih fun other member => below other (List.mem_cons_of_mem _ member)
    have deeper := below call List.mem_cons_self
    obtain ⟨leaving, node, around⟩ := call
    cases leaving with
    | false => exact later _
    | true =>
      have still : (if depth = around.length then Attention.watching else .skipping depth) =
          .skipping depth := if_neg (Nat.ne_of_lt deeper)
      rw [turns, Watch.after]
      show Watch.after (state, if depth = around.length then Attention.watching else .skipping depth)
        _ = _
      rw [still]
      exact later _

/-- A rule that never stops is called again after the last turn of a node. -/
theorem after_leave (tireless : rule.Tireless) (site : Site) (state : rule.State) :
    @Watch.after ε rule (state, .watching) [(true, site)] =
      ((rule.leave site state).2, .watching) := by
  show ((rule.leave site state).2, if (rule.leave site state).1.action = .stop
    then Attention.done else .watching) = _
  rw [if_neg (tireless.leave site state)]

/-- A rule that goes on from a node is called for its parts, and when it is left. -/
theorem after_open {root : Node} {state : rule.State}
    (goes : (rule.enter ⟨schema, document, scope.enter schema root, root, ancestors⟩ state).1.action =
      .proceed) (rest : List Turn) :
    @Watch.after ε rule (state, .watching)
        ((false, ⟨schema, document, scope.enter schema root, root, ancestors⟩) :: rest) =
      @Watch.after ε rule
        ((rule.enter ⟨schema, document, scope.enter schema root, root, ancestors⟩ state).2, .watching)
        rest := by
  rw [Watch.after, Watch.turn]
  simp only [Bool.false_eq_true, if_false, Watch.enter, goes]

/-- A rule that leaves a node out is called again when it is left. -/
theorem after_skip {root : Node} {state : rule.State} (parts : List Tree)
    (skips : (rule.enter ⟨schema, document, scope.enter schema root, root, ancestors⟩ state).1.action =
      .skip) :
    @Watch.after ε rule (state, .watching)
        (turns schema document scope ((Ast.Tree.node root parts).calls ancestors)) =
      ((rule.enter ⟨schema, document, scope.enter schema root, root, ancestors⟩ state).2,
        .watching) := by
  rw [Tree.calls, turns, turns_append, Watch.after, Watch.turn]
  simp only [Bool.false_eq_true, if_false, Watch.enter, skips]
  rw [Watch.after_append, after_skipping _ fun call member =>
    Nat.lt_of_succ_le (callsAll_below (root :: ancestors) parts call member)]
  simp [turns, Watch.after, Watch.turn, Watch.leave]

mutual

/-- A rule that never stops is called again after a tree. -/
theorem after_tree (tireless : rule.Tireless) (scope : Scope) (ancestors : List Node)
    (state : rule.State) : (tree : Tree) →
    ∃ last, @Watch.after ε rule (state, .watching)
      (turns schema document scope (tree.calls ancestors)) = (last, .watching)
  | .node root parts => by
    cases action : (rule.enter ⟨schema, document, scope.enter schema root, root, ancestors⟩
      state).1.action with
    | stop => exact absurd action (tireless.enter _ _)
    | skip => exact ⟨_, after_skip parts action⟩
    | proceed =>
      obtain ⟨mid, inner⟩ := after_trees tireless (scope.enter schema root) (root :: ancestors)
        (rule.enter ⟨schema, document, scope.enter schema root, root, ancestors⟩ state).2 parts
      rw [Tree.calls, turns, turns_append, after_open action, Watch.after_append, inner]
      exact ⟨_, after_leave tireless _ mid⟩

theorem after_trees (tireless : rule.Tireless) (scope : Scope) (ancestors : List Node)
    (state : rule.State) : (trees : List Tree) → ∃ last, @Watch.after ε rule (state, .watching)
      (turns schema document scope (Tree.callsAll ancestors trees)) = (last, .watching)
  | [] => ⟨state, rfl⟩
  | tree :: rest => by
    obtain ⟨mid, first⟩ := after_tree tireless scope ancestors state tree
    rw [Tree.callsAll, turns_append, Watch.after_append, first]
    exact after_trees tireless _ ancestors mid rest

end

end Turns

section Passes
variable {scope : Scope} {ancestors : List Node} {state last : rule.State}

theorem Rule.Passes.append {first second : List Turn} {mid : rule.State}
    (watching : @Watch.after ε rule (state, .watching) first = (mid, .watching))
    (passes : rule.Passes state (first ++ second) last) :
    rule.Passes state first mid ∧ rule.Passes mid second last := by
  obtain ⟨none, after⟩ := passes
  rw [Watch.reports_append, List.append_eq_nil_iff, watching] at none
  rw [Watch.after_append, watching] at after
  exact ⟨⟨none.1, watching⟩, none.2, after⟩

/-- Trees are passed one after the other. -/
theorem Rule.Passes.cons (tireless : rule.Tireless) (idle : scope.Idle) {tree : Tree} {rest : List Tree}
    (passes : rule.Passes state (turns schema document scope (Tree.callsAll ancestors (tree :: rest)))
      last) :
    ∃ mid, rule.Passes state (turns schema document scope (tree.calls ancestors)) mid ∧
      rule.Passes mid (turns schema document scope (Tree.callsAll ancestors rest)) last := by
  rw [Tree.callsAll, turns_append,
    (Scope.restored_tree schema scope ancestors tree).eq_of_idle idle] at passes
  obtain ⟨mid, watching⟩ := after_tree tireless scope ancestors state tree
  exact ⟨mid, passes.append watching⟩

theorem Rule.Passes.member (tireless : rule.Tireless) (idle : scope.Idle) {tree : Tree} {trees : List Tree}
    (passes : rule.Passes state (turns schema document scope (Tree.callsAll ancestors trees)) last)
    (member : tree ∈ trees) :
    ∃ before after, rule.Passes before (turns schema document scope (tree.calls ancestors)) after := by
  induction trees generalizing state with
  | nil => cases member
  | cons first rest ih =>
    obtain ⟨mid, here, later⟩ := passes.cons tireless idle
    rcases List.mem_cons.1 member with rfl | member
    · exact ⟨state, mid, here⟩
    · exact ih later member

theorem Rule.Keeps.turn {node : Node} (keeps : rule.Keeps node) (watch : Watch rule) (turn : Turn)
    (here : turn.2.node = node) : (watch.turn turn).2.1 = watch.1 := by
  obtain ⟨state, attention⟩ := watch
  obtain ⟨leaving, site⟩ := turn
  obtain ⟨enters, leaves⟩ := keeps site state here
  cases attention <;> cases leaving <;> first | rfl | exact enters | exact leaves

/-- Turns at nodes at which a rule keeps its state do not change it. -/
theorem after_keeping {calls : List Call} (keeps : ∀ call ∈ calls, rule.Keeps call.node)
    (scope : Scope) (watch : Watch rule) :
    (watch.after (turns schema document scope calls)).1 = watch.1 := by
  induction calls generalizing scope watch with
  | nil => rfl
  | cons call calls ih =>
    obtain ⟨leaving, node, ancestors⟩ := call
    obtain ⟨own, others⟩ := List.forall_mem_cons.1 keeps
    cases leaving <;> exact (ih others _ _).trans (own.turn watch _ rfl)

theorem Rule.Passes.unchanged {calls : List Call} (keeps : ∀ call ∈ calls, rule.Keeps call.node)
    (passes : rule.Passes state (turns schema document scope calls) last) : last = state := by
  have kept : (@Watch.after ε rule (state, .watching) (turns schema document scope calls)).1 = state :=
    after_keeping keeps scope _
  rw [passes.2] at kept
  exact kept

variable {node : Node}

/-- What a rule reports of a node when it is entered. -/
theorem Rule.Passes.enter
    (passes : rule.Passes state (turns schema document scope (node.tree.calls ancestors)) last) :
    (rule.enter ⟨schema, document, scope.enter schema node, node, ancestors⟩ state).1.findings = [] := by
  obtain ⟨none, -⟩ := passes
  rw [tree_eta node, Tree.calls, turns, Watch.reports, List.append_eq_nil_iff] at none
  exact none.1

theorem Rule.Passes.skip
    (passes : rule.Passes state (turns schema document scope (node.tree.calls ancestors)) last)
    (skips : (rule.enter ⟨schema, document, scope.enter schema node, node, ancestors⟩ state).1.action =
      .skip) :
    last = (rule.enter ⟨schema, document, scope.enter schema node, node, ancestors⟩ state).2 := by
  obtain ⟨-, after⟩ := passes
  rw [tree_eta node, after_skip _ skips] at after
  exact (congrArg Prod.fst after).symm

/-- What is in scope when a node is left, before the scope is told. -/
def leaving (schema : Schema) (scope : Scope) (ancestors : List Node) (node : Node) : Scope :=
  (Tree.callsAll (node :: ancestors) node.tree.parts).foldl (Scope.move schema) (scope.enter schema node)

/-- The parts of a node that a rule goes on from are passed, and so is the node when it is left. -/
theorem Rule.Passes.parts (tireless : rule.Tireless)
    (passes : rule.Passes state (turns schema document scope (node.tree.calls ancestors)) last)
    (goes : (rule.enter ⟨schema, document, scope.enter schema node, node, ancestors⟩ state).1.action =
      .proceed) :
    ∃ mid, rule.Passes
      (rule.enter ⟨schema, document, scope.enter schema node, node, ancestors⟩ state).2
      (turns schema document (scope.enter schema node)
        (Tree.callsAll (node :: ancestors) node.tree.parts)) mid ∧
      (rule.leave ⟨schema, document, leaving schema scope ancestors node, node, ancestors⟩
        mid).1.findings = [] ∧
      last = (rule.leave ⟨schema, document, leaving schema scope ancestors node, node, ancestors⟩ mid).2 := by
  obtain ⟨none, after⟩ := passes
  have rest : rule.Passes
      (rule.enter ⟨schema, document, scope.enter schema node, node, ancestors⟩ state).2
      (turns schema document (scope.enter schema node)
        (Tree.callsAll (node :: ancestors) node.tree.parts ++ [⟨true, node, ancestors⟩])) last := by
    rw [tree_eta node, Tree.calls, turns] at none after
    rw [after_open goes] at after
    rw [Watch.reports, List.append_eq_nil_iff, Watch.turn] at none
    simp only [Bool.false_eq_true, if_false, Watch.enter, goes] at none
    exact ⟨none.2, after⟩
  rw [turns_append] at rest
  obtain ⟨mid, watching⟩ := after_trees tireless (scope.enter schema node) (node :: ancestors)
    (rule.enter ⟨schema, document, scope.enter schema node, node, ancestors⟩ state).2 node.tree.parts
  obtain ⟨inner, silent, left⟩ := rest.append watching
  rw [turns, turns, Watch.reports, List.append_eq_nil_iff] at silent
  rw [turns, turns, after_leave tireless] at left
  exact ⟨mid, inner, silent.1, (congrArg Prod.fst left).symm⟩

/-- A rule without findings passes each node around selections, if it goes on from those around
that one. -/
theorem Entered.passes (tireless : rule.Tireless) (none : rule.reports (documentTurns schema document) = [])
    (entered : Entered schema (.document document) scope ancestors node)
    (opens : ∀ outer ∈ ancestors, rule.Opens outer) :
    ∃ state last, rule.Passes state (turns schema document scope (node.tree.calls ancestors)) last := by
  induction entered with
  | root =>
    obtain ⟨last, watching⟩ := after_tree tireless {} [] rule.start (Node.document document).tree
    exact ⟨rule.start, last, none, watching⟩
  | part outer loud member ih =>
    obtain ⟨here, around⟩ := List.forall_mem_cons.1 opens
    obtain ⟨state, last, passes⟩ := ih around
    obtain ⟨mid, inner, -⟩ := passes.parts tireless (here _ state rfl)
    exact inner.member tireless (outer.idle.enter loud) (part_of_child member)

end Passes
end GraphQL.Validation
