import GraphQL.Execution.Subscription
import GraphQL.Proofs.Execution.Inlining

/-! The field that is subscribed to. The root of a subscription has one selection, which may be a
fragment that selects fields under several keys. Those under the first key are subscribed to. -/
namespace GraphQL.Execution
open Ast (Selection SelectionSet FragmentDefinition OperationDefinition Document)
open Validation.Overlap (named? SpreadsTo spreadsTo_of_mem)

variable {τ σ : Type}

/-- A selection set that selects one field at most: its only selection is a field, or a fragment of
which this holds again. -/
inductive Plan.Narrow (plan : Plan τ) : SelectionSet → Prop
  | field {node : Ast.Field} {span : Option Span} : Plan.Narrow plan ⟨[.field node], span⟩
  | inline {condition : Option Ast.NamedType} {directives : List Ast.Directive} {set : SelectionSet}
      {around span : Option Span} : Plan.Narrow plan set →
      Plan.Narrow plan ⟨[.inline ⟨condition, directives, set, around⟩], span⟩
  | spread {spread : Ast.FragmentSpread} {fragment : FragmentDefinition} {span : Option Span} :
      plan.fragment? spread.name.text = some fragment → Plan.Narrow plan fragment.selectionSet →
      Plan.Narrow plan ⟨[.spread spread], span⟩

section Inlined
variable {plan : Plan τ} {object : ObjectType} {set : SelectionSet} {sets : List SelectionSet}
  {inlined : List Occurrence}

theorem marks_single (place : Place) (selection : Selection) (span : Option Span) :
    marks plan object place ⟨[selection], span⟩ = marksBy plan object (place.inside 0) selection := by
  rw [marks, marksFrom, marksFrom, List.append_nil]

theorem Plan.Narrow.length_le_one (narrow : plan.Narrow set) {place : Place}
    (inlines : Inlines plan object (marks plan object place set) inlined) : inlined.length ≤ 1 := by
  induction narrow generalizing place inlined with
  | field =>
    rw [marks_single, marksBy] at inlines
    split at inlines
    · cases inlines with
      | field rest =>
        cases rest
        exact Nat.le_refl 1
    · cases inlines
      exact Nat.zero_le 1
  | inline _ ih =>
    rw [marks_single, marksBy] at inlines
    split at inlines
    · exact ih inlines
    · cases inlines
      exact Nat.zero_le 1
  | @spread spread fragment span known _ ih =>
    rw [marks_single, marksBy] at inlines
    split at inlines
    · cases inlines with
      | unknown missing =>
        rw [missing] at known
        cases known
      | spread here inside rest =>
        rw [known] at here
        cases here
        cases rest
        rw [List.append_nil]
        rw [fragmentMarks] at inside
        split at inside
        · exact ih inside
        · cases inside
          exact Nat.zero_le 1
    · cases inlines
      exact Nat.zero_le 1

/-- Just what inlining gives is collected. -/
theorem mem_occurrences (unwinds : plan.Unwinds)
    (inlines : Inlines plan object (plan.marksOf object sets) inlined) (occurrence : Occurrence) :
    occurrence ∈ plan.occurrences object sets ↔ occurrence ∈ inlined := by
  obtain ⟨height, graded⟩ := unwinds.graded
  have apart := discover_apart plan object _ _ (marksOf_fresh plan object sets)
  have found := discover_inlines graded plan.fragments.reverse (plan.marksOf object sets) [] inlined
    (fun _ _ => id) (fun name gone => covered_seen fun fragment _ here => by
      rw [Plan.fragment?, gone] at here
      cases here) (List.Nodup.of_map _ apart) inlines
  rw [Plan.occurrences, found]
  simp

/-- A key has the nodes of its occurrences, of which there are some. -/
theorem mem_collect (unwinds : plan.Unwinds)
    (inlines : Inlines plan object (plan.marksOf object sets) inlined) {key : String}
    {nodes : List Ast.Field} (collected : (key, nodes) ∈ plan.collect object sets) :
    (∃ occurrence ∈ inlined, occurrence.node.responseKey = key) ∧ ∀ node, node ∈ nodes ↔
      node.responseKey = key ∧ ∃ occurrence ∈ inlined, occurrence.node = node := by
  rw [collect_occurrences, Groups.mem_ofList] at collected
  obtain ⟨rfl, node, member, keyed⟩ := collected
  obtain ⟨occurrence, inside, rfl⟩ := List.mem_map.1 member
  refine ⟨⟨occurrence, (mem_occurrences unwinds inlines _).1 inside, keyed⟩, fun node => ?_⟩
  simp only [List.mem_filter, List.mem_map, decide_eq_true_eq, mem_occurrences unwinds inlines]
  exact and_comm

/-- One key is collected at most if all that inlining gives has one key. -/
theorem collect_single (unwinds : plan.Unwinds)
    (inlines : Inlines plan object (plan.marksOf object sets) inlined) :
    (plan.collect object sets).length ≤ 1 ↔ ∀ occurrence ∈ inlined, ∀ other ∈ inlined,
      occurrence.node.responseKey = other.node.responseKey := by
  rw [collect_occurrences, Groups.length_ofList_le_one]
  simp only [List.forall_mem_map, mem_occurrences unwinds inlines]

end Inlined

section Accepted
variable {schema : Schema} {document : Document} {operation : OperationDefinition}

/-- The root of a subscription has one selection. -/
theorem single_selection (accepted : schema.validate document = some [])
    (inside : operation ∈ document.operations) (kind : operation.operation = .subscription) :
    ∃ selection, operation.selectionSet.selections = [selection] := by
  have entered : Validation.Entered schema (.document document) _ _ (.operation operation) :=
    Validation.Entered.root.part rfl (Validation.operation_child inside)
  have tireless : Validation.Rule.singleFieldSubscriptions.Tireless := by
    refine ⟨fun site state => ?_, fun _ _ => nofun⟩
    show (Validation.Rule.singleFieldSubscriptions.enter site state).1.action ≠ .stop
    unfold Validation.Rule.singleFieldSubscriptions Validation.Rule.ofCheck
    dsimp only
    repeat' split
    all_goals nofun
  obtain ⟨state, last, passes⟩ := entered.passes tireless
    (Validation.reports_of_accepted accepted (by simp [Validation.Rule.standard])) fun outer around => by
      obtain rfl := List.mem_singleton.1 around
      rintro ⟨_, _, _, _, _⟩ state ⟨⟩
      rfl
  have silent := passes.enter
  unfold Validation.Rule.singleFieldSubscriptions Validation.Rule.ofCheck at silent
  simp only [kind] at silent
  split at silent
  · cases silent
  · cases silent
  · rename_i none several
    cases selections : operation.selectionSet.selections with
    | nil => exact absurd selections (none rfl)
    | cons first rest =>
      cases rest with
      | nil => exact ⟨first, rfl⟩
      | cons second rest => exact absurd selections (several _ second rest rfl)

/-- No fragment of an accepted document spreads itself beside its fields. -/
theorem unwinds_of_accepted {plan : Plan τ} (accepted : schema.validate document = some [])
    (fragments : plan.fragments = document.fragments) : plan.Unwinds := by
  have known {name : String} {fragment : FragmentDefinition}
      (found : plan.fragment? name = some fragment) : document.fragment? name = some fragment := by
    have member := Validation.Overlap.mem_of_named? found
    rw [fragments] at member
    rw [← Validation.Overlap.name_of_named? found]
    exact Validation.named?_of_distinct (Validation.fragments_distinct accepted)
      (List.mem_reverse.1 member)
  intro name cycle
  refine Validation.acyclic_of_accepted accepted name (cycle.lift id fun outer inner spreads => ?_)
  obtain ⟨fragment, found, member⟩ := spreads
  exact spreadsTo_of_mem (known found) member

end Accepted

section Subscribed

theorem prepare_fragments {schema : Schema} {host : Host τ σ} {request : Request τ σ}
    {executor : Executor τ σ} {root : ObjectType}
    (prepared : prepare schema host request = .ok (executor, root)) :
    executor.plan.fragments = request.document.fragments := by
  rw [prepare] at prepared
  obtain ⟨operation, _, prepared⟩ := SchemaBuilder.except_bind_ok prepared
  obtain ⟨bindings, _, prepared⟩ := SchemaBuilder.except_bind_ok prepared
  obtain ⟨root, _, prepared⟩ := SchemaBuilder.except_bind_ok prepared
  cases prepared
  rfl

variable {executor : Executor τ σ} {root : ObjectType} {key : String} {site : Site}

/-- The first key that is collected is subscribed to, with all nodes under it. -/
theorem subscribed_first (found : executor.subscribed root = .ok (key, site)) :
    ∃ rest, executor.plan.collect root [executor.plan.operation.selectionSet] =
      (key, site.nodes) :: rest := by
  simp only [Executor.subscribed] at found
  split at found
  · rename_i first node nodes rest collected
    split at found
    · rename_i here defined
      cases found
      obtain ⟨field, -, same⟩ := Option.bind_eq_some_iff.1 defined
      cases same
      exact ⟨rest, collected⟩
    · cases found
  · cases found

end Subscribed

section Feeds

def feedField (name : String) : Field := { name, type := .named "String" }

def feedType : ObjectType := { name := "Feed", fields := ⟨[feedField "posts", feedField "likes"], []⟩ }

def queryType : ObjectType := { name := "Query", fields := ⟨[feedField "title"], []⟩ }

def feedBuilder : SchemaBuilder :=
  { query := some "Query", subscription := some "Feed", types := [.object queryType, .object feedType] }

open GraphQL.Introspection in
def feedSchema : Schema :=
  { query := queryType, mutation := none, subscription := some feedType
    types := [.object queryType, .scalar .string, .object feedType, .scalar .boolean,
      schemaType, typeType, typeKindType, fieldType, inputValueType, enumValueType, directiveType,
      directiveLocationType]
    directives := DirectiveDef.builtins }

theorem feedSchema_built : feedSchema.Built := by
  refine ⟨feedBuilder, SchemaBuilder.build_ok_iff.2 ⟨_, rfl, ?_, rfl, rfl, rfl, rfl, rfl, ?_⟩⟩
  · decide +kernel
  · decide +kernel

def feedNode (name : String) : Ast.Field := ⟨none, ⟨name, none⟩, [], [], none, none⟩

/-- A subscription to what a fragment selects: two fields, of any names. -/
def feedOperation : OperationDefinition :=
  ⟨.subscription, none, [], [], ⟨[.spread ⟨⟨"Both", none⟩, [], none⟩], none⟩, none⟩

def bothFragment (first second : String) : FragmentDefinition :=
  ⟨⟨"Both", none⟩, ⟨⟨"Feed", none⟩, none⟩, [],
    ⟨[.field (feedNode first), .field (feedNode second)], none⟩, none⟩

def feedRequest (first second : String) : Request Empty Unit :=
  { document := ⟨[.operation feedOperation, .fragment (bothFragment first second)], none⟩ }

def feedExecutor (first second : String) : Executor Empty Unit :=
  ⟨⟨feedSchema, [bothFragment first second], .null, feedOperation, []⟩, plainHost, []⟩

def postsSite (nodes : List Ast.Field) : Site := ⟨feedType, feedField "posts", nodes⟩

end Feeds

/-- An accepted subscription has one root selection. It is answered in full exactly if all fields that
the root selects have one response key, which is so where the selection, and what it stands for, is
single throughout. -/
theorem subscribed_in_full_iff {schema : Schema} {host : Host τ σ} {request : Request τ σ}
    {executor : Executor τ σ} {root : ObjectType}
    (accepted : schema.validate request.document = some [])
    (prepared : prepare schema host request = .ok (executor, root))
    (kind : executor.plan.operation.operation = .subscription) :
    let plan := executor.plan
    let set := plan.operation.selectionSet
    (∃ selection, set.selections = [selection]) ∧
    (∃ inlined, Inlines plan root (plan.marksOf root [set]) inlined) ∧
    (plan.Narrow set → (plan.collect root [set]).length ≤ 1) ∧
    ∀ inlined, Inlines plan root (plan.marksOf root [set]) inlined →
      ((plan.collect root [set]).length ≤ 1 ↔ ∀ occurrence ∈ inlined, ∀ other ∈ inlined,
        occurrence.node.responseKey = other.node.responseKey) ∧
      ∀ key site, executor.subscribed root = .ok (key, site) →
        (∀ node, node ∈ site.nodes ↔
          node.responseKey = key ∧ ∃ occurrence ∈ inlined, occurrence.node = node) ∧
        ((∀ occurrence ∈ inlined, occurrence.node ∈ site.nodes) ↔
          (plan.collect root [set]).length ≤ 1) := by
  intro plan set
  have unwinds : plan.Unwinds := unwinds_of_accepted accepted (prepare_fragments prepared)
  have single := single_selection accepted (selectOperation_mem (prepare_operation prepared)) kind
  refine ⟨single, unwinds.inlines _, fun narrow => ?_,
    fun inlined inlines => ⟨collect_single unwinds inlines, ?_⟩⟩
  · obtain ⟨inlined, inlines⟩ := unwinds.inlines (plan.marksOf root [set])
    have marked : plan.marksOf root [set] = marks plan root ⟨.set 0, []⟩ set := List.append_nil _
    have short : inlined.length ≤ 1 := narrow.length_le_one (marked ▸ inlines)
    refine (collect_single unwinds inlines).2 fun occurrence member other inside => ?_
    match inlined, short with
    | [first], _ => rw [List.mem_singleton.1 member, List.mem_singleton.1 inside]
  · intro key site found
    obtain ⟨rest, collected⟩ := subscribed_first found
    have here : (key, site.nodes) ∈ plan.collect root [set] := by
      rw [collected]
      exact List.mem_cons_self
    obtain ⟨⟨first, known, keyed⟩, nodes⟩ := mem_collect unwinds inlines here
    refine ⟨nodes, ?_⟩
    rw [collect_single unwinds inlines]
    constructor
    · intro all occurrence member other inside
      rw [((nodes _).1 (all occurrence member)).1, ((nodes _).1 (all other inside)).1]
    · intro same occurrence member
      exact (nodes _).2 ⟨(same occurrence member first known).trans keyed, occurrence, member, rfl⟩

/-- A fragment that selects the posts twice. -/
theorem subscribed_in_full_posts :
    feedSchema.validate (feedRequest "posts" "posts").document = some [] ∧
    prepare feedSchema plainHost (feedRequest "posts" "posts") =
      .ok (feedExecutor "posts" "posts", feedType) ∧
    ∃ inlined,
      Inlines (feedExecutor "posts" "posts").plan feedType
        ((feedExecutor "posts" "posts").plan.marksOf feedType [feedOperation.selectionSet]) inlined ∧
      ∀ occurrence ∈ inlined, occurrence.node ∈ [feedNode "posts", feedNode "posts"] := by
  have accepted : feedSchema.validate (feedRequest "posts" "posts").document = some [] := by cbv
  have prepared : prepare feedSchema plainHost (feedRequest "posts" "posts") =
      .ok (feedExecutor "posts" "posts", feedType) := rfl
  obtain ⟨-, ⟨inlined, inlines⟩, -, told⟩ := subscribed_in_full_iff accepted prepared rfl
  have subscribed : (feedExecutor "posts" "posts").subscribed feedType =
      .ok ("posts", postsSite [feedNode "posts", feedNode "posts"]) := by cbv
  have single : ((feedExecutor "posts" "posts").plan.collect feedType
      [feedOperation.selectionSet]).length ≤ 1 := by cbv
  exact ⟨accepted, prepared, inlined, inlines,
    ((told inlined inlines).2 _ _ subscribed).2.2 single⟩

/-- A fragment that selects posts and likes: the subscription is accepted, and only the posts are
subscribed to. -/
theorem subscribed_in_part :
    feedSchema.Built ∧ feedSchema.validate (feedRequest "posts" "likes").document = some [] ∧
    prepare feedSchema plainHost (feedRequest "posts" "likes") =
      .ok (feedExecutor "posts" "likes", feedType) ∧
    (feedExecutor "posts" "likes").plan.operation.operation = .subscription ∧
    (feedExecutor "posts" "likes").plan.collect feedType [feedOperation.selectionSet] =
      [("posts", [feedNode "posts"]), ("likes", [feedNode "likes"])] ∧
    (feedExecutor "posts" "likes").subscribed feedType =
      .ok ("posts", postsSite [feedNode "posts"]) := by
  refine ⟨feedSchema_built, ?_, rfl, rfl, ?_, ?_⟩
  all_goals cbv

end GraphQL.Execution
