import GraphQL.Proofs.Validation.Passing
import GraphQL.Proofs.Validation.Trace

/-! Rules that are run together and alone. Each of several rules is called as if it were the only
visitor of the walk and the walk went on as it answers, with the scope that the enclosing nodes make. -/
namespace GraphQL.Validation
open Ast (Node Document Call Tree)

variable {ε : Type} {schema : Schema} {document : Document}

/-- What is in scope inside some nodes, of which the innermost one comes first. -/
def Scope.around (schema : Schema) : List Node → Scope
  | [] => {}
  | node :: outer => (Scope.around schema outer).enter schema node

/-- What a rule is to be told of a call: what its node and the nodes around it bring into scope. -/
def turnOf (schema : Schema) (document : Document) (call : Call) : Turn :=
  (call.leaving,
    ⟨schema, document, .around schema (call.node :: call.ancestors), call.node, call.ancestors⟩)

namespace Rule

/-- A rule as the only visitor of a walk, which goes on as the rule answers. -/
def visitor (schema : Schema) (document : Document) (rule : Rule ε) :
    Ast.Visitor (rule.State × List ε) where
  enter node ancestors := fun (state, found) =>
    let (verdict, state) := rule.enter (turnOf schema document ⟨false, node, ancestors⟩).2 state
    (verdict.action, state, found ++ verdict.findings)
  leave node ancestors := fun (state, found) =>
    let (verdict, state) := rule.leave (turnOf schema document ⟨true, node, ancestors⟩).2 state
    (verdict.action, state, found ++ verdict.findings)

/-- What a rule finds in a document as the only visitor of the walk. -/
def alone (schema : Schema) (document : Document) (rule : Rule ε) : List ε :=
  (((Node.document document).walk (rule.visitor schema document)).run (rule.start, [])).2.2

/-- The rule reports all its calls, with what it finds in each of them. -/
def logged (rule : Rule ε) : Rule (Turn × List ε) where
  name := rule.name
  State := rule.State
  start := rule.start
  enter site state :=
    let (verdict, state) := rule.enter site state
    (⟨[((false, site), verdict.findings)], verdict.action⟩, state)
  leave site state :=
    let (verdict, state) := rule.leave site state
    (⟨[((true, site), verdict.findings)], verdict.action⟩, state)

end Rule

section Orderly

/-- Not a directive. -/
def notDirective : Node → Bool
  | .directive _ => false
  | _ => true

/-- Not an argument. -/
def notArgument : Node → Bool
  | .argument _ => false
  | _ => true

/-- There are no directives below a directive, and no arguments below an argument. -/
structure Orderly (scope : Scope) (tree : Tree) : Prop where
  directives : scope.directive = none ∨ tree.all notDirective = true
  arguments : scope.argument = none ∨ tree.all notArgument = true

theorem kept_directive (scope : Scope) {node : Node} (other : notDirective node = true) :
    (scope.enter schema node).directive = scope.directive ∧
      (scope.leave node).directive = scope.directive := by
  cases node with
  | directive _ => cases other
  | value value => cases value <;> exact ⟨rfl, rfl⟩
  | inline inline =>
    obtain ⟨condition, directives, set, span⟩ := inline
    cases condition <;> exact ⟨rfl, rfl⟩
  | _ => exact ⟨rfl, rfl⟩

theorem kept_argument (scope : Scope) {node : Node} (other : notArgument node = true) :
    (scope.enter schema node).argument = scope.argument ∧
      (scope.leave node).argument = scope.argument := by
  cases node with
  | argument _ => cases other
  | value value => cases value <;> exact ⟨rfl, rfl⟩
  | inline inline =>
    obtain ⟨condition, directives, set, span⟩ := inline
    cases condition <;> exact ⟨rfl, rfl⟩
  | _ => exact ⟨rfl, rfl⟩

/-- What all nodes of a kind keep, a walk of such nodes keeps. -/
theorem kept_walk {α : Type} {part : Scope → α} {kind : Node → Bool}
    (kept : ∀ scope node, kind node = true →
      part (Scope.enter schema scope node) = part scope ∧ part (scope.leave node) = part scope)
    {calls : List Call} (all : ∀ call ∈ calls, kind call.node = true) (scope : Scope) :
    part (calls.foldl (Scope.move schema) scope) = part scope := by
  induction calls generalizing scope with
  | nil => rfl
  | cons call calls ih =>
    obtain ⟨here, others⟩ := List.forall_mem_cons.1 all
    rw [List.foldl_cons, ih others, Scope.move]
    split
    · exact (kept scope call.node here).2
    · exact (kept scope call.node here).1

/-- A walk leaves the scope of an orderly tree as it has found it. -/
theorem Orderly.restored {scope : Scope} {tree : Tree} (orderly : Orderly scope tree)
    (ancestors : List Node) : (tree.calls ancestors).foldl (Scope.move schema) scope = scope := by
  obtain ⟨types, parents, inputs, fields, directive, argument⟩ :=
    Scope.restored_tree schema scope ancestors tree
  have directive : ((tree.calls ancestors).foldl (Scope.move schema) scope).directive =
      scope.directive := by
    rcases orderly.directives with none | none
    · rw [directive none, none]
    · exact kept_walk (fun _ _ other => kept_directive _ other) (Tree.calls_all ancestors tree none) scope
  have argument : ((tree.calls ancestors).foldl (Scope.move schema) scope).argument =
      scope.argument := by
    rcases orderly.arguments with none | none
    · rw [argument none, none]
    · exact kept_walk (fun _ _ other => kept_argument _ other) (Tree.calls_all ancestors tree none) scope
  generalize (tree.calls ancestors).foldl (Scope.move schema) scope = after at *
  cases after
  cases scope
  simp_all

theorem all_of_allIn {kind : Node → Bool} {trees : List Tree} (all : Tree.allIn kind trees = true) :
    ∀ tree ∈ trees, tree.all kind = true := by
  induction trees with
  | nil => exact fun _ member => absurd member List.not_mem_nil
  | cons tree rest ih =>
    rw [Tree.allIn, Bool.and_eq_true] at all
    exact List.forall_mem_cons.2 ⟨all.1, ih all.2⟩

theorem part_all {kind : Node → Bool} {node : Node} (all : node.tree.all kind = true) {tree : Tree}
    (member : tree ∈ node.tree.parts) : tree.all kind = true := by
  rw [tree_eta, Tree.all, Bool.and_eq_true] at all
  exact all_of_allIn all.2 tree member

/-- The parts of an orderly tree are orderly in the scope that its root makes. -/
theorem Orderly.part {scope : Scope} {node : Node} (orderly : Orderly scope node.tree) {tree : Tree}
    (member : tree ∈ node.tree.parts) : Orderly (scope.enter schema node) tree := by
  constructor
  · cases other : notDirective node with
    | true =>
      rw [(kept_directive scope other).1]
      exact orderly.directives.imp_right fun none => part_all none member
    | false =>
      cases node with
      | directive directive =>
        obtain ⟨argument, -, rfl⟩ := List.mem_map.1 member
        have value : (Tree.ofValue argument.value).all notDirective = true :=
          Tree.ofValue_all (fun _ => rfl) (fun _ => rfl) argument.value
        refine .inr ?_
        rw [Tree.ofArgument, Tree.all, Tree.allIn, value]
        rfl
      | _ => cases other
  · cases other : notArgument node with
    | true =>
      rw [(kept_argument scope other).1]
      exact orderly.arguments.imp_right fun none => part_all none member
    | false =>
      cases node with
      | argument argument =>
        obtain rfl := List.mem_singleton.1 member
        exact .inr (Tree.ofValue_all (fun _ => rfl) (fun _ => rfl) argument.value)
      | _ => cases other

mutual

/-- In the walk of an orderly tree, the scope is always the one that the enclosing nodes make. -/
theorem turns_tree (ancestors : List Node) : (tree : Tree) → (node : Node) → node.tree = tree →
    Orderly (.around schema ancestors) tree →
    turns schema document (.around schema ancestors) (tree.calls ancestors) =
      (tree.calls ancestors).map (turnOf schema document)
  | .node root parts => by
    intro node same orderly
    have whole := tree_eta node
    rw [same, Tree.node.injEq] at whole
    obtain ⟨rfl, split⟩ := whole
    have inner : ∀ tree ∈ parts, Orderly (.around schema (root :: ancestors)) tree :=
      fun tree member => (same ▸ orderly : Orderly _ root.tree).part (by rwa [same])
    have made : ∀ tree ∈ parts, OfNode tree := fun tree member => ofNode_part root (by rwa [same])
    obtain ⟨walked, restored⟩ := turns_trees (root :: ancestors) parts made inner
    have restored : (Tree.callsAll (root :: ancestors) parts).foldl (Scope.move schema)
        ((Scope.around schema ancestors).enter schema root) = .around schema (root :: ancestors) :=
      restored
    have walked : turns schema document ((Scope.around schema ancestors).enter schema root)
        (Tree.callsAll (root :: ancestors) parts) =
        (Tree.callsAll (root :: ancestors) parts).map (turnOf schema document) := walked
    rw [Tree.calls, turns, turns_append, restored, walked, List.map_cons, List.map_append]
    rfl

theorem turns_trees (ancestors : List Node) : (trees : List Tree) → (∀ tree ∈ trees, OfNode tree) →
    (∀ tree ∈ trees, Orderly (.around schema ancestors) tree) →
    turns schema document (.around schema ancestors) (Tree.callsAll ancestors trees) =
        (Tree.callsAll ancestors trees).map (turnOf schema document) ∧
      (Tree.callsAll ancestors trees).foldl (Scope.move schema) (.around schema ancestors) =
        .around schema ancestors
  | [] => fun _ _ => ⟨rfl, rfl⟩
  | tree :: rest => by
    intro made orderly
    obtain ⟨⟨node, same⟩, others⟩ := List.forall_mem_cons.1 made
    obtain ⟨here, later⟩ := List.forall_mem_cons.1 orderly
    obtain ⟨walked, restored⟩ := turns_trees ancestors rest others later
    rw [Tree.callsAll, turns_append, here.restored, walked, List.map_append, List.foldl_append,
      here.restored]
    exact ⟨congrArg (· ++ _) (turns_tree ancestors tree node same.symm here), restored⟩

end

/-- In the walk of a document, the scope is always the one that the enclosing nodes make. -/
theorem documentTurns_eq (schema : Schema) (document : Document) : documentTurns schema document =
    ((Node.document document).tree.calls []).map (turnOf schema document) :=
  turns_tree [] _ (.document document) rfl ⟨.inl rfl, .inl rfl⟩

end Orderly

section Simulation
variable {rule : Rule ε}

/-- A rule that has stopped finds nothing more. -/
theorem done_turns (state : rule.State) (turns : List Turn) :
    @Watch.reports ε rule (state, .done) turns = [] ∧
      @Watch.after ε rule (state, .done) turns = (state, .done) := by
  induction turns with
  | nil => exact ⟨rfl, rfl⟩
  | cons turn rest ih =>
    obtain ⟨leaving, site⟩ := turn
    cases leaving <;> exact ih

/-- A rule that leaves a node out finds nothing below it. -/
theorem skipping_turns (state : rule.State) {depth : Nat} {turns : List Turn}
    (below : ∀ turn ∈ turns, depth < turn.2.ancestors.length) :
    @Watch.reports ε rule (state, .skipping depth) turns = [] ∧
      @Watch.after ε rule (state, .skipping depth) turns = (state, .skipping depth) := by
  induction turns with
  | nil => exact ⟨rfl, rfl⟩
  | cons turn rest ih =>
    obtain ⟨deeper, others⟩ := List.forall_mem_cons.1 below
    obtain ⟨leaving, site⟩ := turn
    cases leaving with
    | false => exact ih others
    | true =>
      have still : (@Watch.leave ε rule site (state, .skipping depth)).2 = (state, .skipping depth) := by
        show (state, if depth = site.ancestors.length then Attention.watching else .skipping depth) = _
        rw [if_neg (Nat.ne_of_lt deeper)]
      rw [Watch.reports, Watch.after]
      show [] ++ Watch.reports (@Watch.leave ε rule site (state, .skipping depth)).2 rest = [] ∧
        Watch.after (@Watch.leave ε rule site (state, .skipping depth)).2 rest = _
      rw [still]
      exact ih others

/-- A walk that a rule makes alone comes to the state and the findings that the rule has after being
told of all calls, and ends early exactly if the rule is done. -/
def Simulates (rule : Rule ε) (turns : List Turn) (state : rule.State)
    (walk : StateM (rule.State × List ε) Bool) : Prop :=
  ∀ found, ∃ last finished,
    walk (state, found) = (finished, last, found ++ @Watch.reports ε rule (state, .watching) turns) ∧
    @Watch.after ε rule (state, .watching) turns = (last, if finished then .watching else .done)

/-- One walk after another, unless the first one ends early. -/
theorem Simulates.andThen {turns others : List Turn} {state : rule.State}
    {walk next : StateM (rule.State × List ε) Bool} (first : Simulates rule turns state walk)
    (second : ∀ last, Simulates rule others last next) :
    Simulates rule (turns ++ others) state (do if ← walk then next else return false) := by
  intro found
  obtain ⟨middle, finished, here, after⟩ := first found
  rw [Ast.state_bind, here, Watch.reports_append, Watch.after_append, after]
  cases finished with
  | true =>
    obtain ⟨last, finished, there, later⟩ := second middle (found ++ Watch.reports (state, .watching) turns)
    exact ⟨last, finished, by rw [← List.append_assoc]; exact there, later⟩
  | false =>
    obtain ⟨nothing, still⟩ := @done_turns ε rule middle others
    refine ⟨middle, false, ?_, still⟩
    show _ = (false, middle, found ++ (_ ++ Watch.reports (middle, .done) others))
    rw [nothing, List.append_nil]
    rfl

theorem simulates_leave (node : Node) (ancestors : List Node) (state : rule.State) :
    Simulates rule [turnOf schema document ⟨true, node, ancestors⟩] state
      (do return (← (rule.visitor schema document).leave node ancestors) != .stop) := by
  intro found
  let answer := rule.leave (turnOf schema document ⟨true, node, ancestors⟩).2 state
  refine ⟨answer.2, answer.1.action != .stop, ?_, ?_⟩
  · show (answer.1.action != .stop, answer.2, found ++ answer.1.findings) =
      (_, answer.2, found ++ (answer.1.findings ++ []))
    rw [List.append_nil]
  · show (answer.2, if answer.1.action = .stop then Attention.done else .watching) = _
    cases answer.1.action <;> rfl

mutual

/-- The walk of a tree that a rule makes alone. -/
theorem simulates_tree (ancestors : List Node) (state : rule.State) : (tree : Tree) →
    Simulates rule ((tree.calls ancestors).map (turnOf schema document)) state
      (tree.walk (rule.visitor schema document) ancestors)
  | .node root parts => by
    let site := (turnOf schema document ⟨false, root, ancestors⟩).2
    let answer := rule.enter site state
    let parted := (Tree.callsAll (root :: ancestors) parts).map (turnOf schema document)
    let left := turnOf schema document ⟨true, root, ancestors⟩
    have inner : Simulates rule (parted ++ [left]) answer.2 (do
        if ← Tree.walkAll (rule.visitor schema document) (root :: ancestors) parts then
          return (← (rule.visitor schema document).leave root ancestors) != .stop
        else return false) :=
      (simulates_trees (root :: ancestors) answer.2 parts).andThen fun last =>
        simulates_leave root ancestors last
    intro found
    rw [Tree.calls, List.map_cons, List.map_append, List.map_singleton]
    have entered : @Watch.turn ε rule (state, .watching) (turnOf schema document ⟨false, root, ancestors⟩) =
        (answer.1.findings, answer.2, match answer.1.action with
          | .proceed => .watching
          | .skip => .skipping ancestors.length
          | .stop => .done) := rfl
    have walked : (rule.visitor schema document).enter root ancestors (state, found) =
        (answer.1.action, answer.2, found ++ answer.1.findings) := rfl
    rw [Tree.walk, Ast.state_bind, walked, Watch.reports, Watch.after, entered]
    cases answer.1.action with
    | proceed =>
      obtain ⟨last, finished, walk, after⟩ := inner (found ++ answer.1.findings)
      exact ⟨last, finished, by rw [← List.append_assoc]; exact walk, after⟩
    | skip =>
      have below : ∀ turn ∈ parted, ancestors.length < turn.2.ancestors.length :=
        List.forall_mem_map.2 fun call member =>
          Nat.lt_of_succ_le (callsAll_below (root :: ancestors) parts call member)
      obtain ⟨nothing, still⟩ := @skipping_turns ε rule answer.2 ancestors.length parted below
      have again : @Watch.turn ε rule (answer.2, .skipping ancestors.length) left =
          ([], answer.2, .watching) := by
        show ([], answer.2, if ancestors.length = ancestors.length then Attention.watching else _) = _
        rw [if_pos rfl]
      refine ⟨answer.2, true, ?_, ?_⟩
      · show _ = (true, answer.2, found ++ (answer.1.findings ++
          Watch.reports (answer.2, .skipping ancestors.length) (parted ++ [left])))
        rw [Watch.reports_append, nothing, still, Watch.reports, again]
        show _ = (true, answer.2, found ++ (answer.1.findings ++ []))
        rw [List.append_nil]
        rfl
      · show Watch.after (answer.2, .skipping ancestors.length) (parted ++ [left]) = _
        rw [Watch.after_append, still, Watch.after, again]
        rfl
    | stop =>
      obtain ⟨nothing, still⟩ := @done_turns ε rule answer.2 (parted ++ [left])
      refine ⟨answer.2, false, ?_, still⟩
      show _ = (false, answer.2, found ++ (answer.1.findings ++ Watch.reports (answer.2, .done) (parted ++ [left])))
      rw [nothing, List.append_nil]
      rfl

theorem simulates_trees (ancestors : List Node) (state : rule.State) : (trees : List Tree) →
    Simulates rule ((Tree.callsAll ancestors trees).map (turnOf schema document)) state
      (Tree.walkAll (rule.visitor schema document) ancestors trees)
  | [] => fun found => ⟨state, true, by rw [Tree.callsAll, List.map_nil, Watch.reports, List.append_nil]; rfl, rfl⟩
  | tree :: rest => by
    rw [Tree.callsAll, List.map_append, Tree.walkAll]
    exact (simulates_tree ancestors state tree).andThen fun last => simulates_trees ancestors last rest

end

/-- A rule finds by itself what it finds as the only visitor of the walk. -/
theorem findings_eq_alone (schema : Schema) (document : Document) (rule : Rule ε) :
    findings schema [rule] document = rule.alone schema document := by
  obtain ⟨last, finished, walk, -⟩ := @simulates_tree ε schema document rule [] rule.start
    (Node.document document).tree []
  rw [List.nil_append] at walk
  rw [findings_singleton, documentTurns_eq]
  exact (congrArg (fun result => result.2.2) walk).symm

end Simulation

section Shares

theorem share_findings {rules : List (Rule ε)} {rule : Rule ε} {index : Nat}
    (found : rules[index]? = some rule) :
    share index (findings schema (numbered rules 0) document) = findings schema [rule] document := by
  have shared := @share_together ε (documentTurns schema document) rules rule index 0 found
  rw [Nat.zero_add] at shared
  rw [findings_eq_reports, Watches.reports_eq_flatten, share, List.filterMap_flatten]
  show ((together (numbered rules 0) (documentTurns schema document)).map (share index)).flatten = _
  rw [shared, findings_singleton, Rule.reports, Watch.reports_eq_flatten]
  rfl

/-- A rule is called for the turns that it reports. -/
theorem mem_of_logged {rule : Rule ε} (watch : Watch rule.logged) {turns : List Turn}
    {told : Turn × List ε} (member : told ∈ watch.reports turns) : told.1 ∈ turns := by
  induction turns generalizing watch with
  | nil => cases member
  | cons turn rest ih =>
    rw [Watch.reports] at member
    rcases List.mem_append.1 member with member | member
    · obtain ⟨leaving, site⟩ := turn
      obtain ⟨state, attention⟩ := watch
      cases leaving <;> cases attention with
      | watching => rw [List.mem_singleton.1 member]; exact List.mem_cons_self
      | _ => cases member
    · exact List.mem_cons_of_mem _ (ih _ member)

/-- Rules see the scope that the node of a call and the nodes around it make. -/
theorem scope_of_logged {rules : List (Rule ε)} {told : Turn × List ε}
    (member : told ∈ findings schema (rules.map Rule.logged) document) :
    told.1.2.scope = .around schema (told.1.2.node :: told.1.2.ancestors) := by
  obtain ⟨_, inside, reported⟩ := mem_findings.1 member
  obtain ⟨rule, -, rfl⟩ := List.mem_map.1 inside
  have turn := mem_of_logged _ reported
  rw [documentTurns_eq] at turn
  obtain ⟨call, -, same⟩ := List.mem_map.1 turn
  rw [← same]
  rfl

/-- Rules are run together as they are run alone. Each of them is called as if it were the only
visitor of the walk, and finds what it finds by itself; and the order of the rules only matters for
the order of what they find at one call. -/
theorem rules_run_alone (schema : Schema) (document : Document) (rules : List (Rule ε)) :
    (∀ index rule, rules[index]? = some rule →
      share index (findings schema (numbered (rules.map Rule.logged) 0) document) =
        rule.logged.alone schema document ∧
      share index (findings schema (numbered rules 0) document) = findings schema [rule] document) ∧
    (∀ told ∈ findings schema (rules.map Rule.logged) document,
      told.1.2.scope = .around schema (told.1.2.node :: told.1.2.ancestors)) ∧
    (findings schema (numbered rules 0) document).map Prod.snd = findings schema rules document ∧
    (findingsByCall schema rules document).flatten = findings schema rules document ∧
    ∀ others, rules.Perm others → List.Forall₂ List.Perm (findingsByCall schema rules document)
      (findingsByCall schema others document) := by
  refine ⟨fun index rule found => ⟨?_, share_findings found⟩, fun told => scope_of_logged, ?_,
    findingsByCall_flatten _ _ _, fun others perm => ?_⟩
  · have logged : (rules.map Rule.logged)[index]? = some rule.logged := by
      rw [List.getElem?_map, found, Option.map_some]
    rw [share_findings logged, findings_eq_alone]
  · rw [findings_eq_reports, findings_eq_reports, Watches.reports_eq_flatten,
      Watches.reports_eq_flatten, List.map_flatten]
    exact congrArg List.flatten (together_numbered rules 0)
  · rw [findingsByCall_eq_reports, findingsByCall_eq_reports]
    exact together_perm perm

/-- A rule that reports fields, and may leave out what is inside them. -/
def fieldRule (action : Ast.Action) : Rule String :=
  .ofCheck "Fields" fun site =>
    match site.node with
    | .field field => ⟨[field.name.text], action⟩
    | _ => .proceed

def fieldsSchema : Schema := ⟨{ name := "Query" }, none, none, [], []⟩

/-- A field with another one inside, and a field beside it. -/
def fieldsDocument : Document :=
  ⟨[.operation ⟨.query, none, [], [],
    ⟨[.field ⟨none, ⟨"dog", none⟩, [], [], some ⟨[.field ⟨none, ⟨"name", none⟩, [], [], none, none⟩], none⟩,
        none⟩,
      .field ⟨none, ⟨"cat", none⟩, [], [], none, none⟩], none⟩, none⟩], none⟩

/-- One rule leaves out what is inside fields, one stops at a field, and one goes on. -/
theorem fieldRules_run_alone :
    share 0 (findings fieldsSchema (numbered [fieldRule .skip, fieldRule .stop, fieldRule .proceed] 0)
      fieldsDocument) = ["dog", "cat"] ∧
    share 1 (findings fieldsSchema (numbered [fieldRule .skip, fieldRule .stop, fieldRule .proceed] 0)
      fieldsDocument) = ["dog"] ∧
    share 2 (findings fieldsSchema (numbered [fieldRule .skip, fieldRule .stop, fieldRule .proceed] 0)
      fieldsDocument) = ["dog", "name", "cat"] := by
  obtain ⟨alone, -⟩ := rules_run_alone fieldsSchema fieldsDocument
    [fieldRule .skip, fieldRule .stop, fieldRule .proceed]
  exact ⟨(alone 0 _ rfl).2.trans rfl, (alone 1 _ rfl).2.trans rfl, (alone 2 _ rfl).2.trans rfl⟩

end Shares

end GraphQL.Validation
