import GraphQL.Proofs.Execution.Overseen
import GraphQL.Proofs.Execution.Stability
import GraphQL.Proofs.Validation.Surroundings

/-! Fragments that can never apply. Two types overlap if some object is of both; so validation
reports a fragment where it stands exactly if, of the objects that can be selected from there, it
applies to none. -/
namespace GraphQL

namespace Schema
variable {schema : Schema} {a b : TypeDef}

section Overlap

/-- It does not matter which of two types is asked about first: their shared objects are the same. -/
theorem overlap_comm (schema : Schema) (a b : TypeDef) : schema.overlap a b = schema.overlap b a := by
  have one_way {a b : String} (shared : (schema.possibleTypes a).any (fun possible =>
      schema.isPossibleType b possible.name) = true) :
      (schema.possibleTypes b).any (fun possible => schema.isPossibleType a possible.name) = true := by
    obtain ⟨first, inside, possible⟩ := List.any_eq_true.1 shared
    obtain ⟨second, member, same⟩ := List.any_eq_true.1 possible
    refine List.any_eq_true.2 ⟨second, member, List.any_eq_true.2 ⟨first, inside, ?_⟩⟩
    exact beq_iff_eq.2 (beq_iff_eq.1 same).symm
  rw [overlap, overlap, Bool.beq_comm]
  congr 1
  cases a.isAbstract <;> cases b.isAbstract
  case true.true => exact Bool.eq_iff_iff.2 ⟨one_way, one_way⟩
  all_goals rfl

/-- The objects that stand for an abstract type are its possible types. -/
theorem StandsFor.possible {object : ObjectType} (stands : schema.StandsFor object a)
    (abstract : a.isAbstract = true) : schema.isPossibleType a.name object.name = true := by
  rcases stands with rfl | ⟨-, possible⟩
  · cases abstract
  · exact possible

/-- A type that is not abstract is stood for by itself. -/
theorem StandsFor.self {object : ObjectType} (stands : schema.StandsFor object a)
    (concrete : a.isAbstract = false) : a = .object object := by
  rcases stands with same | ⟨abstract, -⟩
  · exact same
  · rw [concrete] at abstract
    cases abstract

/-- What is possible for an abstract type, and is none itself, is an object of that type. -/
theorem Built.possible_iff (built : schema.Built) (known : b ∈ schema.types)
    (abstract : a.isAbstract = true) (concrete : b.isAbstract = false) :
    schema.isPossibleType a.name b.name = true ↔ ∃ object, .object object ∈ schema.types ∧
      schema.StandsFor object a ∧ schema.StandsFor object b := by
  constructor
  · intro possible
    obtain ⟨object, found⟩ := object_of_possible built possible
    obtain rfl : b = .object object := Option.some.inj ((built.unique known).symm.trans found)
    exact ⟨object, known, .inr ⟨abstract, possible⟩, .inl rfl⟩
  · rintro ⟨object, -, first, second⟩
    rw [second.self concrete]
    exact first.possible abstract

/-- Types overlap if some object can stand for both. -/
theorem Built.overlap_iff (built : schema.Built) (first : a ∈ schema.types) (second : b ∈ schema.types)
    (differ : a.name ≠ b.name) : schema.overlap a b = true ↔
      ∃ object, .object object ∈ schema.types ∧ schema.StandsFor object a ∧ schema.StandsFor object b := by
  rw [overlap, Bool.or_eq_true, beq_iff_eq, or_iff_right differ]
  cases left : a.isAbstract <;> cases right : b.isAbstract
  case false.false =>
    constructor
    · intro never
      cases never
    · rintro ⟨object, -, here, there⟩
      exact absurd (congrArg TypeDef.name ((here.self left).trans (there.self right).symm)) differ
  case true.false => exact built.possible_iff second left right
  case false.true =>
    rw [built.possible_iff first right left]
    exact exists_congr fun object => and_congr_right fun _ => and_comm
  case true.true =>
    constructor
    · intro shared
      obtain ⟨possible, inside, also⟩ := List.any_eq_true.1 shared
      have here : schema.isPossibleType a.name possible.name = true :=
        List.any_eq_true.2 ⟨possible, inside, beq_self_eq_true _⟩
      obtain ⟨object, found⟩ := object_of_possible built here
      rw [← name_of_type? found] at here also
      exact ⟨object, mem_of_type? found, .inr ⟨left, here⟩, .inr ⟨right, also⟩⟩
    · rintro ⟨object, -, here, there⟩
      obtain ⟨possible, inside, same⟩ := List.any_eq_true.1 (here.possible left)
      refine List.any_eq_true.2 ⟨possible, inside, ?_⟩
      rw [beq_iff_eq.1 same]
      exact there.possible right

end Overlap
end Schema

namespace Execution
variable {τ : Type} {plan : Plan τ} {object : ObjectType}

/-- The objects that values of a type have are those that stand for it. -/
theorem runtimeType_iff {schema : Schema} (built : schema.Built) {name : String} {type : TypeDef}
    (found : schema.type? name = some type) : RuntimeType schema name object ↔
      .object object ∈ schema.types ∧ schema.StandsFor object type := by
  constructor
  · rintro (known | ⟨known, abstract, own, possible⟩)
    · rw [found] at known
      cases known
      exact ⟨Schema.mem_of_type? found, .inl rfl⟩
    · rw [found] at known
      cases known
      exact ⟨Schema.mem_of_type? (Schema.type?_of_object? own), .inr ⟨abstract, possible⟩⟩
  · rintro ⟨member, rfl | ⟨abstract, possible⟩⟩
    · exact .declared found
    · have known : schema.type? object.name = some (.object object) := built.unique member
      refine .possible found abstract ?_ possible
      rw [Schema.object?, known]
      rfl

/-- Fragments apply to the objects that stand for their type. -/
theorem applies_iff_stands (built : plan.schema.Built) (member : .object object ∈ plan.schema.types)
    {condition : Ast.NamedType} {type : TypeDef}
    (found : plan.schema.type? condition.name.text = some type) :
    plan.applies object condition = true ↔ plan.schema.StandsFor object type := by
  constructor
  · intro applies
    exact applies_stands (built.unique member) applies found
  · intro stands
    rw [Plan.applies, Bool.or_eq_true, ← Schema.name_of_type? found]
    rcases stands with rfl | ⟨-, possible⟩
    · exact .inl (beq_self_eq_true _)
    · exact .inr possible

end Execution

namespace Validation
open Ast (Node Document Call)
open Execution (Plan RuntimeType runtimeType_iff applies_iff_stands kinOf houseSchema houseSchema_built)

/-- A fragment that is opened among selections: its name, if it has one, the type that it is on, and
where it is opened. -/
structure Opening where
  fragment : Option String
  condition : Ast.NamedType
  span : Option Span

/-- The fragment that a node opens, if the document has it and it says which type it is on. -/
def opening? (document : Document) : Node → Option Opening
  | .inline inline => inline.typeCondition.map fun condition => ⟨none, condition, inline.span⟩
  | .spread spread =>
      (document.fragment? spread.target).map fun fragment =>
        ⟨some spread.target, fragment.typeCondition, spread.span⟩
  | _ => none

/-- A call enters a node that opens a fragment on a type with selections, where it is known which type
is selected from. -/
structure Opens (schema : Schema) (document : Document) (call : Call) (opening : Opening)
    (parent type : TypeDef) : Prop where
  entered : call.leaving = false
  opens : opening? document call.node = some opening
  known : schema.type? opening.condition.name.text = some type
  composite : type.isComposite = true
  outer : Surroundings.parent schema call.ancestors = some parent

/-- The fragment applies to none of the objects that can be selected from, and it is not on the very
type that is selected from, which need not have objects. -/
def Opening.Dead {τ : Type} (plan : Plan τ) (opening : Opening) (parent : TypeDef) : Prop :=
  parent.name ≠ opening.condition.name.text ∧
    ∀ object, RuntimeType plan.schema parent.name object → plan.applies object opening.condition = false

/-- What is reported about a fragment that can never apply. -/
def Opening.finding (opening : Opening) (parent : TypeDef) : Finding :=
  .violation (.impossibleSpread opening.fragment parent.name opening.condition.name.text) [opening.span]

section Spreads
variable {schema : Schema} {document : Document} {call : Call} {opening : Opening}
  {parent type : TypeDef}

/-- A fragment is dead where its type does not overlap with the type that is selected from. -/
theorem dead_iff {τ : Type} {plan : Plan τ} (built : plan.schema.Built)
    (outer : parent ∈ plan.schema.types) (found : plan.schema.type? opening.condition.name.text = some type) :
    opening.Dead plan parent ↔ plan.schema.overlap type parent = false := by
  have named := Schema.name_of_type? found
  rw [Opening.Dead, ← named]
  by_cases same : parent.name = type.name
  · apply iff_of_false
    · intro dead
      exact dead.1 same
    · rw [Schema.overlap, same]
      simp
  · rw [← Bool.not_eq_true, built.overlap_iff (Schema.mem_of_type? found) outer (Ne.symm same)]
    constructor
    · rintro ⟨-, never⟩ ⟨object, member, inner, outside⟩
      have runs := (runtimeType_iff built (built.unique outer)).2 ⟨member, outside⟩
      have applies := (applies_iff_stands built member found).2 inner
      rw [never object runs] at applies
      cases applies
    · intro never
      refine ⟨same, fun object runs => ?_⟩
      obtain ⟨member, outside⟩ := (runtimeType_iff built (built.unique outer)).1 runs
      by_contra applies
      rw [Bool.not_eq_false] at applies
      exact never ⟨object, member, (applies_iff_stands built member found).1 applies, outside⟩

/-- The types that are selected from are types of the schema. -/
theorem parent_mem {nodes : List Node} (known : Surroundings.parent schema nodes = some parent) :
    parent ∈ schema.types := by
  induction nodes with
  | nil => cases known
  | cons node outer ih =>
    cases node with
    | selectionSet _ =>
      obtain ⟨reference, -, named, -⟩ := selectable_eq_some known
      exact Schema.mem_of_type? named
    | _ => exact ih known

theorem spreadOf_known {site : Site} {inner : Option TypeDef} (outer : site.scope.parent = some parent)
    (kept : inner.filter TypeDef.isComposite = some type) (fragment : Option String)
    (span : Option Span) : (Rule.spreadOf site fragment inner span).findings =
      if site.schema.overlap type parent then []
      else [.violation (.impossibleSpread fragment parent.name type.name) [span]] := by
  rw [Rule.spreadOf, outer, kept]
  dsimp only
  split <;> rfl

theorem spreadOf_unknown {site : Site} {inner : Option TypeDef}
    (unknown : site.scope.parent = none ∨ inner.filter TypeDef.isComposite = none)
    (fragment : Option String) (span : Option Span) :
    (Rule.spreadOf site fragment inner span).findings = [] := by
  rw [Rule.spreadOf]
  rcases unknown with unknown | unknown <;> rw [unknown]
  · rfl
  · cases site.scope.parent <;> rfl

/-- Any type overlaps with itself. -/
theorem spreadOf_self {site : Site} {inner : Option TypeDef}
    (same : inner.filter TypeDef.isComposite = site.scope.parent) (fragment : Option String)
    (span : Option Span) : (Rule.spreadOf site fragment inner span).findings = [] := by
  cases outer : site.scope.parent with
  | none => exact spreadOf_unknown (.inl outer) fragment span
  | some parent =>
    have self : site.schema.overlap parent parent = true := by simp [Schema.overlap]
    rw [spreadOf_known outer (same.trans outer), if_pos self]

/-- A type condition brings its type into scope, if that has selections. -/
theorem selectable_condition (schema : Schema) (condition : Ast.NamedType) :
    selectable schema (Scope.conditionType schema condition) =
      (schema.type? condition.name.text).filter TypeDef.isComposite := by
  cases kept : (schema.type? condition.name.text).filter TypeDef.isComposite with
  | some type =>
    obtain ⟨known, composite⟩ := Option.filter_eq_some_iff.1 kept
    exact selectable_of_condition known composite
  | none =>
    rw [Option.eq_none_iff_forall_ne_some]
    intro type selects
    obtain ⟨reference, brought, known, composite⟩ := selectable_eq_some selects
    obtain ⟨found, output, rfl⟩ := Option.map_eq_some_iff.1 brought
    have here := (Option.filter_eq_some_iff.1 output).1
    rw [Schema.named?, TypeRef.innermost, Schema.type?_name here] at known
    rw [here, known, Option.filter_some, if_pos composite] at kept
    cases kept

/-- What the rule finds when a node is entered. -/
def spreadFindings (schema : Schema) (document : Document) (node : Node) (ancestors : List Node) :
    List Finding :=
  (Rule.possibleFragmentSpreads.enter (turnOf schema document ⟨false, node, ancestors⟩).2 ()).1.findings

/-- What is found at a node that opens a fragment depends on the type that the fragment is on. -/
theorem spreadFindings_opening {node : Node} (opens : opening? document node = some opening)
    (ancestors : List Node) :
    ∃ inner : Option TypeDef, inner.filter TypeDef.isComposite =
        (schema.type? opening.condition.name.text).filter TypeDef.isComposite ∧
      spreadFindings schema document node ancestors = (Rule.spreadOf
        (turnOf schema document ⟨false, node, ancestors⟩).2 opening.fragment inner opening.span).findings := by
  cases node with
  | inline inline =>
    obtain ⟨condition, directives, set, span⟩ := inline
    obtain ⟨condition, rfl, rfl⟩ := Option.map_eq_some_iff.1 opens
    exact ⟨_, selectable_condition schema condition, rfl⟩
  | spread spread =>
    obtain ⟨fragment, here, rfl⟩ := Option.map_eq_some_iff.1 opens
    refine ⟨_, rfl, ?_⟩
    show (Rule.spreadOf _ _ ((document.fragment? spread.target).bind _) _).findings = _
    rw [here]
    rfl
  | _ => cases opens

/-- Inline fragments stand in selection sets. -/
theorem set_of_inline {node : Node} {inline : Ast.InlineFragment}
    (member : .inline inline ∈ node.children) : ∃ set, node = .selectionSet set := by
  have part := (Spanned.children_sublist node).subset (List.mem_map_of_mem member)
  have values (of : Ast.Value) : Spanned.value of ≠ .node (.inline inline) := nofun
  have types (of : Ast.TypeAnnotation) : Spanned.type of ≠ .node (.inline inline) := by
    cases of <;> nofun
  have directives (of : Ast.Directive) : Spanned.directive of ≠ .node (.inline inline) := nofun
  have definitions (of : Ast.Definition) : Spanned.definition of ≠ .node (.inline inline) := by
    cases of <;> nofun
  cases node with
  | selectionSet set => exact ⟨set, rfl⟩
  | typeSystem _ => cases member
  | value of => cases of <;> simp [Spanned.inner, values] at part
  | field of | inline of | objectField of =>
    cases of
    simp [Spanned.inner, (values _).symm, directives] at part
  | _ => simp [Spanned.inner, values, (values _).symm, (types _).symm, directives, definitions] at part

/-- An inline fragment without a type condition is on the type that is selected from. -/
theorem spreadFindings_unconditional {directives : List Ast.Directive} {set : Ast.SelectionSet}
    {span : Option Span} {ancestors : List Node}
    (linked : Linked (.document document) (.inline ⟨none, directives, set, span⟩ :: ancestors)) :
    spreadFindings schema document (.inline ⟨none, directives, set, span⟩) ancestors = [] := by
  cases linked with
  | @part node _ outer linked member =>
    obtain ⟨around, rfl⟩ := set_of_inline member
    have same : ((Scope.around schema outer).type.map fun type => .named type.innermost).bind
        schema.named? = (Scope.around schema outer).type.bind schema.named? := by
      cases (Scope.around schema outer).type <;> rfl
    show (Rule.spreadOf _ none (((Scope.around schema outer).type.map _).bind schema.named?)
      span).findings = []
    rw [same]
    exact spreadOf_self rfl none span

/-- Where no fragment is opened on a type of its own, nothing is found. -/
theorem spreadFindings_plain {node : Node} {ancestors : List Node}
    (linked : Linked (.document document) (node :: ancestors)) (plain : opening? document node = none) :
    spreadFindings schema document node ancestors = [] := by
  cases node with
  | inline inline =>
    obtain ⟨condition, directives, set, span⟩ := inline
    cases condition with
    | some condition => cases plain
    | none => exact spreadFindings_unconditional linked
  | spread spread =>
    show (Rule.spreadOf _ _ ((document.fragment? spread.target).bind _) _).findings = []
    rw [Option.map_eq_none_iff.1 plain]
    exact spreadOf_unknown (.inr rfl) _ _
  | _ => rfl

/-- Where a fragment is opened, the innermost selection set is still the one around it. -/
theorem around_opening {node : Node} (opens : opening? document node = some opening)
    (ancestors : List Node) :
    (Scope.around schema (node :: ancestors)).parent = Surroundings.parent schema ancestors := by
  rw [(around_parent schema (node :: ancestors)).1]
  cases node with
  | inline _ | spread _ => rfl
  | _ => cases opens

/-- A fragment on a known type is looked at where it is known which type is selected from. -/
theorem spreadFindings_opens {node : Node} {ancestors : List Node}
    (opens : Opens schema document ⟨false, node, ancestors⟩ opening parent type) :
    spreadFindings schema document node ancestors =
      if schema.overlap type parent then [] else [opening.finding parent] := by
  obtain ⟨inner, kept, found⟩ := spreadFindings_opening opens.opens ancestors
  have outer : (turnOf schema document ⟨false, node, ancestors⟩).2.scope.parent = some parent :=
    (around_opening opens.opens ancestors).trans opens.outer
  rw [opens.known, Option.filter_some, if_pos opens.composite] at kept
  rw [found, spreadOf_known outer kept, Opening.finding, Schema.name_of_type? opens.known]
  rfl

/-- Nothing is found at other nodes. -/
theorem spreadFindings_other {node : Node} {ancestors : List Node}
    (linked : Linked (.document document) (node :: ancestors))
    (other : ∀ opening parent type,
      ¬ Opens schema document ⟨false, node, ancestors⟩ opening parent type) :
    spreadFindings schema document node ancestors = [] := by
  cases opens : opening? document node with
  | none => exact spreadFindings_plain linked opens
  | some opening =>
    obtain ⟨inner, kept, found⟩ := spreadFindings_opening opens ancestors
    rw [found]
    cases outer : Surroundings.parent schema ancestors with
    | none => exact spreadOf_unknown (.inl ((around_opening opens ancestors).trans outer)) _ _
    | some parent =>
      cases known : (schema.type? opening.condition.name.text).filter TypeDef.isComposite with
      | none => exact spreadOf_unknown (.inr (kept.trans known)) _ _
      | some type =>
        obtain ⟨found, composite⟩ := Option.filter_eq_some_iff.1 known
        exact absurd ⟨rfl, opens, found, composite, outer⟩ (other opening parent type)

/-- The rule looks at all nodes, when they are entered. -/
theorem possibleFragmentSpreads_calls (schema : Schema) (document : Document) :
    findingsByCall schema [Rule.possibleFragmentSpreads] document =
      ((Node.document document).tree.calls []).map fun call =>
        if call.leaving then [] else spreadFindings schema document call.node call.ancestors := by
  have proceeds (site : Site) : (Rule.possibleFragmentSpreads.enter site ()).1.action = .proceed := by
    unfold Rule.possibleFragmentSpreads Rule.ofCheck Rule.spreadOf
    repeat' first | split | dsimp only
    all_goals rfl
  rw [findingsByCall_singleton, documentTurns_eq]
  refine (ofCheck_reportsByTurn proceeds (fun _ => rfl) _).trans ?_
  rw [List.map_map]
  rfl

/-- What is to be found at a call: dead fragments where they are opened, and nothing else. -/
structure Judges {τ : Type} (plan : Plan τ) (document : Document) (call : Call) (found : List Finding) :
    Prop where
  dead : ∀ opening parent type, Opens plan.schema document call opening parent type →
    opening.Dead plan parent → found = [opening.finding parent]
  alive : ∀ opening parent type, Opens plan.schema document call opening parent type →
    ¬ opening.Dead plan parent → found = []
  other : (∀ opening parent type, ¬ Opens plan.schema document call opening parent type) → found = []

/-- Types overlap if some object can stand for both, whichever is asked about first. So a fragment on a
known type is reported where it is opened if and only if it applies to no object that can be selected
from there, and it is not on the type that is selected from itself; and nothing else is reported. -/
theorem spreads_judged (built : schema.Built) :
    (∀ a b, schema.overlap a b = schema.overlap b a) ∧
    (∀ a ∈ schema.types, ∀ b ∈ schema.types, a.name ≠ b.name → (schema.overlap a b = true ↔
      ∃ object, .object object ∈ schema.types ∧ schema.StandsFor object a ∧ schema.StandsFor object b)) ∧
    ∀ (document : Document) (τ : Type) (plan : Plan τ), plan.schema = schema →
      (findingsByCall schema [Rule.possibleFragmentSpreads] document).flatten =
        findings schema [Rule.possibleFragmentSpreads] document ∧
      List.Forall₂ (Judges plan document) ((Node.document document).tree.calls [])
        (findingsByCall schema [Rule.possibleFragmentSpreads] document) := by
  refine ⟨schema.overlap_comm, fun a first b second => built.overlap_iff first second, ?_⟩
  rintro document τ plan rfl
  refine ⟨findingsByCall_flatten _ _ _, ?_⟩
  rw [possibleFragmentSpreads_calls, List.forall₂_map_right_iff, List.forall₂_same]
  rintro ⟨leaving, node, ancestors⟩ member
  have linked := calls_linked [] _ _ rfl .root _ member
  cases leaving with
  | true =>
    have left (opening : Opening) (parent type : TypeDef) :
        ¬ Opens plan.schema document ⟨true, node, ancestors⟩ opening parent type := fun opens =>
      Bool.noConfusion opens.entered
    exact ⟨fun _ _ _ opens => absurd opens (left _ _ _), fun _ _ _ _ _ => rfl, fun _ => rfl⟩
  | false =>
    constructor
    · intro opening parent type opens dead
      have apart := (dead_iff built (parent_mem opens.outer) opens.known).1 dead
      refine (spreadFindings_opens opens).trans (if_neg ?_)
      rw [apart]
      exact Bool.false_ne_true
    · intro opening parent type opens alive
      rw [dead_iff built (parent_mem opens.outer) opens.known, Bool.not_eq_false] at alive
      exact (spreadFindings_opens opens).trans (if_pos alive)
    · exact spreadFindings_other linked

/-- The pet of a house is asked for what cats have and for what persons have. -/
def strangeOperation : Ast.OperationDefinition :=
  ⟨.query, none, [], [], ⟨[.field ⟨none, ⟨"pet", none⟩, [], [],
    some ⟨[kinOf "Cat" "mother", kinOf "Person" "name"], none⟩, none⟩], none⟩, none⟩

def strangeDocument : Document := ⟨[.operation strangeOperation], none⟩

def strangePlan : Plan Empty := ⟨houseSchema, [], .null, strangeOperation, []⟩

def strangeCalls : List Call := (Node.document strangeDocument).tree.calls []

/-- A fragment on a type. -/
def openingOn (type : String) : Opening := ⟨none, ⟨⟨type, none⟩, none⟩, none⟩

def houseUnion : TypeDef := .union { name := "Pet", members := ["Cat", "Dog"] }

/-- Pets can be cats, but they are never persons. -/
theorem spreads_judged_pets :
    (∃ call, strangeCalls[5]? = some call ∧
      opening? strangeDocument call.node = some (openingOn "Cat")) ∧
    (findingsByCall houseSchema [Rule.possibleFragmentSpreads] strangeDocument)[5]? = some [] ∧
    (∃ call, strangeCalls[17]? = some call ∧
      opening? strangeDocument call.node = some (openingOn "Person")) ∧
    (findingsByCall houseSchema [Rule.possibleFragmentSpreads] strangeDocument)[17]? =
      some [.violation (.impossibleSpread none "Pet" "Person") [none]] := by
  obtain ⟨-, -, judged⟩ := spreads_judged houseSchema_built
  obtain ⟨same, each⟩ := List.forall₂_iff_get.1 (judged strangeDocument Empty strangePlan rfl).2
  have reached (place : Nat) (call : Call) (here : strangeCalls[place]? = some call) :
      ∃ found, (findingsByCall houseSchema [Rule.possibleFragmentSpreads]
        strangeDocument)[place]? = some found ∧ Judges strangePlan strangeDocument call found := by
    obtain ⟨inside, rfl⟩ := List.getElem?_eq_some_iff.1 here
    exact ⟨_, List.getElem?_eq_getElem (same ▸ inside), each place inside (same ▸ inside)⟩
  obtain ⟨cats, first, alive⟩ : ∃ call, strangeCalls[5]? = some call ∧
      Opens houseSchema strangeDocument call (openingOn "Cat") houseUnion
        (.object Execution.houseCatType) := ⟨_, rfl, rfl, rfl, rfl, rfl, rfl⟩
  obtain ⟨persons, second, dead⟩ : ∃ call, strangeCalls[17]? = some call ∧
      Opens houseSchema strangeDocument call (openingOn "Person") houseUnion
        (.object Execution.ownerType) := ⟨_, rfl, rfl, rfl, rfl, rfl, rfl⟩
  obtain ⟨nothing, here, silent⟩ := reached 5 cats first
  obtain ⟨something, there, reports⟩ := reached 17 persons second
  refine ⟨⟨cats, first, alive.opens⟩, ?_, ⟨persons, second, dead.opens⟩, ?_⟩
  · rw [here, silent.alive _ _ _ alive]
    rw [dead_iff houseSchema_built (parent_mem alive.outer) alive.known]
    decide +kernel
  · rw [there, reports.dead _ _ _ dead]
    · rfl
    · rw [dead_iff houseSchema_built (parent_mem dead.outer) dead.known]
      decide +kernel

end Spreads
end Validation
end GraphQL
