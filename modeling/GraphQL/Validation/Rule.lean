import GraphQL.Ast.Walk
import GraphQL.Validation.Violation
import GraphQL.Validation.Scope

/-! Rules, and how a document is checked by several of them in one walk. Each rule keeps a
state of its own; a rule that skips a node or stops is not called for what it has left out,
while the other rules go on. Findings come in the order of the walk, and at one node in the
order of the rules. -/
namespace GraphQL.Validation
open Ast (Node Action Document)

/-- What a rule sees when it is called. -/
structure Site where
  schema : Schema
  document : Document
  scope : Scope
  node : Node
  /-- The enclosing nodes, the innermost one first. -/
  ancestors : List Node

/-- What a rule answers. -/
structure Verdict (ε : Type) where
  findings : List ε := []
  action : Action := .proceed

namespace Verdict

variable {ε : Type}

def proceed : Verdict ε := {}

def skip : Verdict ε := { action := .skip }

/-- Goes on after reporting. -/
def report (findings : List ε) : Verdict ε := { findings }

def map {δ : Type} (f : ε → δ) (verdict : Verdict ε) : Verdict δ :=
  ⟨verdict.findings.map f, verdict.action⟩

end Verdict

/-- A rule reports findings of type `ε` at the nodes of a walk. -/
structure Rule (ε : Type) where
  name : String
  State : Type
  start : State
  enter : Site → State → Verdict ε × State
  leave : Site → State → Verdict ε × State

namespace Rule

variable {ε : Type}

/-- A rule that looks at each node for itself. -/
def ofCheck (name : String) (enter : Site → Verdict ε)
    (leave : Site → Verdict ε := fun _ => .proceed) : Rule ε where
  name := name
  State := Unit
  start := ()
  enter site _ := (enter site, ())
  leave site _ := (leave site, ())

def map {δ : Type} (f : ε → δ) (rule : Rule ε) : Rule δ where
  name := rule.name
  State := rule.State
  start := rule.start
  enter site state := let (verdict, state) := rule.enter site state; (verdict.map f, state)
  leave site state := let (verdict, state) := rule.leave site state; (verdict.map f, state)

end Rule

/-- Whether a rule is being called. -/
inductive Attention where
  | watching
  /-- Not before the node at this depth is left. -/
  | skipping (depth : Nat)
  | done
deriving DecidableEq

/-- The state of a rule, and whether it is being called. -/
abbrev Watch {ε : Type} (rule : Rule ε) := rule.State × Attention

namespace Watch

variable {ε : Type} {rule : Rule ε}

def enter (site : Site) : Watch rule → List ε × Watch rule
  | (state, .watching) =>
      let (verdict, state) := rule.enter site state
      let attention : Attention :=
        match verdict.action with
        | .proceed => .watching
        | .skip => .skipping site.ancestors.length
        | .stop => .done
      (verdict.findings, state, attention)
  | watch => ([], watch)

def leave (site : Site) : Watch rule → List ε × Watch rule
  | (state, .watching) =>
      let (verdict, state) := rule.leave site state
      (verdict.findings, state, if verdict.action = .stop then .done else .watching)
  | (state, .skipping depth) =>
      ([], state, if depth = site.ancestors.length then .watching else .skipping depth)
  | (state, .done) => ([], state, .done)

end Watch

/-- The states of several rules. -/
def Watches {ε : Type} : List (Rule ε) → Type
  | [] => Unit
  | rule :: rest => Watch rule × Watches rest

namespace Watches

variable {ε : Type}

def start : (rules : List (Rule ε)) → Watches rules
  | [] => ()
  | rule :: rest => ((rule.start, .watching), start rest)

def enter (site : Site) : (rules : List (Rule ε)) → Watches rules → List ε × Watches rules
  | [], _ => ([], ())
  | _ :: rest, (watch, watches) =>
      let (first, watch) := watch.enter site
      let (others, watches) := enter site rest watches
      (first ++ others, watch, watches)

def leave (site : Site) : (rules : List (Rule ε)) → Watches rules → List ε × Watches rules
  | [], _ => ([], ())
  | _ :: rest, (watch, watches) =>
      let (first, watch) := watch.leave site
      let (others, watches) := leave site rest watches
      (first ++ others, watch, watches)

end Watches

/-- How far a document has been checked. -/
structure Progress {ε : Type} (rules : List (Rule ε)) where
  scope : Scope
  watches : Watches rules
  findings : List ε

/-- Tells the scope and all rules of each node. A rule is called when the scope has entered a
node and before it leaves it. -/
def visitor {ε : Type} (schema : Schema) (document : Document) (rules : List (Rule ε)) :
    Ast.Visitor (Progress rules) where
  enter node ancestors := do
    modify fun ⟨scope, watches, findings⟩ =>
      let scope := scope.enter schema node
      let (found, watches) := watches.enter ⟨schema, document, scope, node, ancestors⟩ rules
      ⟨scope, watches, findings ++ found⟩
    return .proceed
  leave node ancestors := do
    modify fun ⟨scope, watches, findings⟩ =>
      let (found, watches) := watches.leave ⟨schema, document, scope, node, ancestors⟩ rules
      ⟨scope.leave node, watches, findings ++ found⟩
    return .proceed

/-- Everything that the rules find in a document. -/
def findings {ε : Type} (schema : Schema) (rules : List (Rule ε)) (document : Document) : List ε :=
  (((Node.document document).walk (visitor schema document rules)).run
    ⟨{}, .start rules, []⟩).2.findings

end GraphQL.Validation
