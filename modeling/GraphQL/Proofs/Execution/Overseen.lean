import GraphQL.Proofs.Execution.Completions
import GraphQL.Proofs.Validation.Typing

/-! Executions of accepted documents: every field that is selected from an object has been seen
by validation, on a type that the object can stand for, and fields that are answered together
do not conflict. -/
namespace GraphQL.Execution
open Ast (SelectionSet Selection Document FragmentDefinition OperationDefinition)
open Validation (Overlap.Selected UsedBy SelectsFrom Typed Belong fragments_distinct
  named?_of_distinct fragment_selects operation_selects expands_typed not_conflicting_of_accepted
  take?_subset)
open Validation.Overlap (named? fieldsOf fieldsIn fieldsBy spreadsOf spreadsIn spreadsBy Expands
  Stands Conflicting SetConflicts SameArguments Apart differentObjects take?_eq_some name_of_named?
  mem_of_named?)

variable {τ σ : Type}

/-- A plan of an operation of a document that validation finds nothing wrong with. -/
structure Plan.Accepted (plan : Plan τ) (document : Document) (root : ObjectType) : Prop where
  built : plan.schema.Built
  plain : plan.schema.PlainNames
  accepted : plan.schema.validate document = some []
  fragments : plan.fragments = document.fragments
  operation : plan.operation ∈ document.operations
  root : plan.schema.rootType? plan.operation.operation = some root

section Seen
variable {plan : Plan τ} {document : Document} {object : ObjectType}

/-- An object can stand for a type, if that is known. -/
def Standing (schema : Schema) (object : ObjectType) (parent : Option TypeDef) : Prop :=
  ∀ outer, parent = some outer → schema.StandsFor object outer

/-- Validation has seen a field in one of the selection sets that it has looked at, and the object
can stand for the type that it has seen the field on. -/
inductive Seen (schema : Schema) (document : Document) (object : ObjectType)
    (views : TypeDef → SelectionSet → Prop) : Overlap.Selected → Prop
  | intro {parent : TypeDef} {set : SelectionSet} {source : Option String}
      {fields : List Overlap.Selected} {x : Overlap.Selected} : views parent set →
      Expands schema document (some parent) set source fields → x ∈ fields →
      Standing schema object x.parent → Seen schema document object views x

/-- A type whose fragments apply to objects is one that these can stand for. -/
theorem applies_stands (known : plan.schema.type? object.name = some (.object object))
    {condition : Ast.NamedType} (applies : plan.applies object condition = true) {type : TypeDef}
    (found : plan.schema.type? condition.name.text = some type) :
    plan.schema.StandsFor object type := by
  rw [Plan.applies, Bool.or_eq_true] at applies
  rcases applies with same | possible
  · rw [beq_iff_eq.1 same, known] at found
    cases found
    exact .inl rfl
  · rw [← Schema.name_of_type? found] at possible
    exact .inr ⟨Schema.abstract_of_possible (Schema.type?_name found) possible, possible⟩

mutual

/-- Fields that are selected from an object are among those that validation sees. -/
theorem field_seen (known : plan.schema.type? object.name = some (.object object)) {node : Ast.Field}
    (parent : Option TypeDef) (stands : Standing plan.schema object parent) :
    (set : SelectionSet) → .field node ∈ selected plan object set →
      ∃ x ∈ fieldsOf plan.schema parent set, x.node = node ∧
        Standing plan.schema object x.parent
  | ⟨selections, span⟩ => by
    rw [selected, fieldsOf]
    exact field_seen_in known parent stands selections

theorem field_seen_in (known : plan.schema.type? object.name = some (.object object)) {node : Ast.Field}
    (parent : Option TypeDef) (stands : Standing plan.schema object parent) :
    (selections : List Selection) → .field node ∈ selectedIn plan object selections →
      ∃ x ∈ fieldsIn plan.schema parent selections, x.node = node ∧
        Standing plan.schema object x.parent
  | [] => fun member => by
    rw [selectedIn] at member
    cases member
  | selection :: rest => by
    intro member
    rw [selectedIn] at member
    rw [fieldsIn]
    rcases List.mem_append.1 member with member | member
    · obtain ⟨x, inside, seen⟩ := field_seen_by known parent stands selection member
      exact ⟨x, List.mem_append_left _ inside, seen⟩
    · obtain ⟨x, inside, seen⟩ := field_seen_in known parent stands rest member
      exact ⟨x, List.mem_append_right _ inside, seen⟩

theorem field_seen_by (known : plan.schema.type? object.name = some (.object object)) {node : Ast.Field}
    (parent : Option TypeDef) (stands : Standing plan.schema object parent) :
    (selection : Selection) → .field node ∈ selectedBy plan object selection →
      ∃ x ∈ fieldsBy plan.schema parent selection, x.node = node ∧
        Standing plan.schema object x.parent
  | .field field => by
    intro member
    rw [selectedBy] at member
    split at member
    · cases List.mem_singleton.1 member
      rw [fieldsBy]
      exact ⟨_, List.mem_cons_self, rfl, stands⟩
    · cases member
  | .spread spread => by
    intro member
    rw [selectedBy] at member
    split at member
    · cases List.mem_singleton.1 member
    · cases member
  | .inline ⟨some condition, directives, set, span⟩ => by
    intro member
    rw [selectedBy] at member
    rw [fieldsBy]
    split at member
    · rename_i taken
      have applies : plan.applies object condition = true := (Bool.and_eq_true_iff.1 taken).2
      exact field_seen known _ (fun outer found => applies_stands known applies found) set member
    · cases member
  | .inline ⟨none, directives, set, span⟩ => by
    intro member
    rw [selectedBy] at member
    rw [fieldsBy]
    split at member
    · exact field_seen known parent stands set member
    · cases member

end

mutual

/-- Fragments that are spread for an object are among those that validation sees. -/
theorem spread_seen {name : String} : (set : SelectionSet) →
    .spread name ∈ selected plan object set → name ∈ spreadsOf set
  | ⟨selections, span⟩ => by
    rw [selected, spreadsOf]
    exact spread_seen_in selections

theorem spread_seen_in {name : String} : (selections : List Selection) →
    .spread name ∈ selectedIn plan object selections → name ∈ spreadsIn selections
  | [] => fun member => by
    rw [selectedIn] at member
    cases member
  | selection :: rest => by
    intro member
    rw [selectedIn] at member
    rw [spreadsIn]
    exact List.mem_append.2 ((List.mem_append.1 member).imp (spread_seen_by selection) (spread_seen_in rest))

theorem spread_seen_by {name : String} : (selection : Selection) →
    .spread name ∈ selectedBy plan object selection → name ∈ spreadsBy selection
  | .field field => by
    intro member
    rw [selectedBy] at member
    split at member
    · cases List.mem_singleton.1 member
    · cases member
  | .spread spread => by
    intro member
    rw [selectedBy] at member
    split at member
    · cases List.mem_singleton.1 member
      rw [spreadsBy]
      exact List.mem_cons_self
    · cases member
  | .inline ⟨condition, directives, set, span⟩ => by
    intro member
    rw [selectedBy] at member
    rw [spreadsBy]
    split at member
    · exact spread_seen set member
    · cases member

end

/-- Whatever is selected from an object, fragments included, validation has seen. -/
theorem expand_seen (known : plan.schema.type? object.name = some (.object object))
    {views : TypeDef → SelectionSet → Prop} {node : Ast.Field} (unopened : List FragmentDefinition)
    (belong : Belong document unopened) (selections : List Selected)
    (fields : ∀ node, .field node ∈ selections →
      ∃ x, Seen plan.schema document object views x ∧ x.node = node)
    (spreads : ∀ name fragment, .spread name ∈ selections → document.fragment? name = some fragment →
      ∃ parent set, views parent set ∧ Stands document.fragments (spreadsOf set) fragment)
    (member : node ∈ expand plan object unopened selections) :
    ∃ x, Seen plan.schema document object views x ∧ x.node = node := by
  fun_induction expand plan object unopened selections with
  | case1 unopened => cases member
  | case2 unopened first rest ih =>
    rcases List.mem_cons.1 member with rfl | member
    · exact fields node List.mem_cons_self
    · exact ih belong (fun other inside => fields other (List.mem_cons_of_mem _ inside))
        (fun name fragment inside => spreads name fragment (List.mem_cons_of_mem _ inside)) member
  | case3 unopened name rest missing ih =>
    exact ih belong (fun other inside => fields other (List.mem_cons_of_mem _ inside))
      (fun name fragment inside => spreads name fragment (List.mem_cons_of_mem _ inside)) member
  | case4 unopened name rest fragment others taken inside ih =>
    have named := (take?_eq_some taken).1
    have here : document.fragment? name = some fragment := by
      rw [← name_of_named? named]
      exact belong fragment (mem_of_named? named)
    obtain ⟨parent, set, view, stands⟩ := spreads name fragment List.mem_cons_self here
    have opened (item : Selected) (found : item ∈ inside) :
        plan.applies object fragment.typeCondition = true ∧
          item ∈ selected plan object fragment.selectionSet := by
      simp only [inside] at found
      by_cases applies : plan.applies object fragment.typeCondition = true
      · rw [dif_pos applies] at found
        exact ⟨applies, found⟩
      · rw [dif_neg applies] at found
        cases found
    refine ih (fun other kept => belong other (take?_subset taken kept))
      (fun other found => ?_) (fun other next found known => ?_) member
    · rcases List.mem_append.1 found with found | found
      · obtain ⟨applies, found⟩ := opened _ found
        obtain ⟨x, within, same, stood⟩ := field_seen known
          (plan.schema.type? fragment.typeCondition.name.text)
          (fun outer found => applies_stands known applies found) fragment.selectionSet found
        exact ⟨x, .intro view (.spread stands) within stood, same⟩
      · exact fields other (List.mem_cons_of_mem _ found)
    · rcases List.mem_append.1 found with found | found
      · exact ⟨parent, set, view, .through stands (spread_seen _ (opened _ found).2) known⟩
      · exact spreads other next (List.mem_cons_of_mem _ found) known

end Seen

section Merging
variable {schema : Schema} {document : Document}

/-- The name of a fragment tells its fields. -/
theorem expands_source {parent other : TypeDef} {set next : SelectionSet} {name : String}
    {fields others : List Overlap.Selected}
    (first : Expands schema document (some parent) set (some name) fields)
    (second : Expands schema document (some other) next (some name) others) : fields = others := by
  generalize here : some name = source at first
  cases first with
  | own => cases here
  | @spread fragment stands =>
    cases here
    generalize there : some fragment.name.text = source at second
    cases second with
    | own => cases there
    | spread stood =>
      have known := stands.named
      rw [Option.some.inj there, stood.named] at known
      cases known
      rfl

theorem subperm_of_ne {α : Type} {items : List α} {x y : α} (first : x ∈ items) (second : y ∈ items)
    (apart : x ≠ y) : [x, y].Subperm items :=
  List.subperm_of_subset (by simpa using apart) (by simp [first, second])

/-- Fields of a set that has no conflicts under one key are the same or do not conflict. -/
theorem expands_merge {parent : TypeDef} {set : SelectionSet}
    (free : ¬ SetConflicts schema document (some parent) set) {source other : Option String}
    {fields others : List Overlap.Selected} {x y : Overlap.Selected}
    (first : Expands schema document (some parent) set source fields)
    (second : Expands schema document (some parent) set other others) (member : x ∈ fields)
    (inside : y ∈ others) (same : x.key = y.key) : x = y ∨ ¬ Conflicting schema document false x y := by
  by_cases equal : x = y
  · exact .inl equal
  · refine .inr fun conflicts => free ⟨source, other, fields, others, x, y, first, second, member,
      inside, ?_, same, conflicts⟩
    by_cases sources : source = other
    · subst sources
      have fields : fields = others := by
        cases source with
        | some name => exact expands_source first second
        | none =>
          cases first
          cases second
          rfl
      exact .inr (subperm_of_ne member (fields ▸ inside) equal)
    · exact .inl sources

/-- The type that the selections of a field select from is the one that it has been seen with. -/
theorem below_typed {user : Ast.Node} {outer result : TypeDef} {declared : Field}
    {x : Overlap.Selected} (typed : Typed schema document user outer declared result x) :
    x.below schema = some result := by
  rw [Overlap.Selected.below, Overlap.Selected.type, typed.definition]
  exact typed.type

/-- Fields below one field, or below fields that do not conflict, are the same or do not conflict. -/
theorem below_merge (built : schema.Built) (accepted : schema.validate document = some [])
    {user : Ast.Node} {outer result : TypeDef} {declared : Field} {exclusive : Bool}
    {a b x y : Overlap.Selected} {s t : SelectionSet} {source other : Option String}
    {fields others : List Overlap.Selected} {lower next : TypeDef}
    (typed : Typed schema document user outer declared result a)
    (merge : a = b ∨ ¬ Conflicting schema document exclusive a b)
    (has : a.node.selectionSet = some s) (hasToo : b.node.selectionSet = some t)
    (under : a.below schema = some lower) (underToo : b.below schema = some next)
    (first : Expands schema document (some lower) s source fields)
    (second : Expands schema document (some next) t other others) (member : x ∈ fields)
    (inside : y ∈ others) (same : x.key = y.key) :
    x = y ∨ ¬ Conflicting schema document false x y ∨
      ¬ Conflicting schema document (exclusive || differentObjects a.parent b.parent) x y := by
  by_cases equal : x = y
  · exact .inl equal
  rcases merge with rfl | free
  · rw [has] at hasToo
    cases hasToo
    rw [under] at underToo
    cases underToo
    rw [below_typed typed] at under
    cases under
    obtain ⟨around, stop⟩ := (typed.inside _ has).stop
    exact (expands_merge (fun conflicts => not_conflicting_of_accepted built accepted
      ⟨around, _, _, stop, conflicts⟩) first second member inside same).imp id .inl
  · refine .inr (.inr fun conflicts => free ?_)
    refine .inside has hasToo (under ▸ first) (underToo ▸ second) member inside ?_ same conflicts
    cases source with
    | none => exact .inl rfl
    | some name =>
      by_cases sources : some name = other
      · subst sources
        exact .inr (.inr (subperm_of_ne member (expands_source first second ▸ inside) equal))
      · exact .inr (.inl sources)

end Merging

/-- Selection sets of an object, as validation has looked at them: each from a type that the object
can stand for. Of the fields that it has seen there none conflict. -/
structure Overseen (schema : Schema) (document : Document) (operation : OperationDefinition)
    (object : ObjectType) (sets : List SelectionSet) (views : TypeDef → SelectionSet → Prop) :
    Prop where
  known : schema.type? object.name = some (.object object)
  selects : ∀ parent set, views parent set →
    (∃ user, UsedBy document operation user ∧ SelectsFrom schema document user parent set) ∧
      schema.StandsFor object parent
  all : ∀ set ∈ sets, ∃ parent, views parent set
  merge : ∀ x y, Seen schema document object views x → Seen schema document object views y →
    x.key = y.key → x = y ∨ ¬ Conflicting schema document false x y

section Overseen
variable {schema : Schema} {document : Document} {operation : OperationDefinition}
  {object : ObjectType} {sets : List SelectionSet} {views : TypeDef → SelectionSet → Prop}
  {x y : Overlap.Selected}

theorem Seen.typed (built : schema.Built) (accepted : schema.validate document = some [])
    (overseen : Overseen schema document operation object sets views)
    (seen : Seen schema document object views x) :
    ∃ user outer declared result, UsedBy document operation user ∧
      Typed schema document user outer declared result x ∧ schema.StandsFor object outer := by
  obtain ⟨view, expands, member, stands⟩ := seen
  obtain ⟨⟨root, used, selects⟩, -⟩ := overseen.selects _ _ view
  obtain ⟨user, outer, declared, result, used, typed⟩ :=
    expands_typed built accepted used selects expands member
  exact ⟨user, outer, declared, result, used, typed, stands outer typed.parent⟩

/-- Two types that one object can stand for are not two different object types. -/
theorem together_of_stands {outer other : TypeDef} (first : schema.StandsFor object outer)
    (second : schema.StandsFor object other) : differentObjects (some outer) (some other) = false := by
  rcases first with rfl | ⟨abstract, -⟩
  · rcases second with rfl | ⟨abstract, -⟩
    · simp [differentObjects]
    · cases other with
      | interface _ | union _ => rfl
      | _ => cases abstract
  · cases outer with
    | interface _ | union _ => rfl
    | _ => cases abstract

/-- Fields that are seen under one key have the same name and the same arguments. -/
theorem Overseen.same (built : schema.Built) (accepted : schema.validate document = some [])
    (overseen : Overseen schema document operation object sets views)
    (first : Seen schema document object views x) (second : Seen schema document object views y)
    (same : x.key = y.key) :
    x.node.name.text = y.node.name.text ∧ SameArguments x.node.arguments y.node.arguments := by
  rcases overseen.merge x y first second same with rfl | free
  · exact ⟨rfl, fun _ _ => Iff.rfl⟩
  · obtain ⟨_, outer, _, _, _, typed, stands⟩ := first.typed built accepted overseen
    obtain ⟨_, other, _, _, _, typedToo, stood⟩ := second.typed built accepted overseen
    have together : (false || differentObjects x.parent y.parent) = false := by
      rw [typed.parent, typedToo.parent, Bool.false_or, together_of_stands stands stood]
    exact ⟨not_not.1 fun apart => free (.names together apart),
      not_not.1 fun apart => free (.arguments together apart)⟩

variable {plan : Plan τ} {root : ObjectType} {key : String} {nodes : List Ast.Field}

theorem Plan.Accepted.belong (accepted : plan.Accepted document root) :
    Belong document plan.fragments.reverse := by
  intro fragment member
  rw [accepted.fragments] at member
  exact named?_of_distinct (fragments_distinct accepted.accepted) (List.mem_reverse.1 member)

/-- The nodes that are collected under a key are seen. -/
theorem Overseen.collected (accepted : plan.Accepted document root)
    (overseen : Overseen plan.schema document plan.operation object sets views)
    (collected : (key, nodes) ∈ plan.collect object sets) {node : Ast.Field} (member : node ∈ nodes) :
    ∃ x, Seen plan.schema document object views x ∧ x.node = node ∧ x.key = key := by
  obtain ⟨rfl, -⟩ := (Groups.mem_ofList _ _ _ _).1 collected
  obtain ⟨member, keyed⟩ := List.mem_filter.1 member
  have seen : ∃ x, Seen plan.schema document object views x ∧ x.node = node :=
    expand_seen overseen.known plan.fragments.reverse accepted.belong _
      (fun node inside => ?_) (fun name fragment inside found => ?_) member
  · obtain ⟨x, seen, same⟩ := seen
    exact ⟨x, seen, same, by rw [Overlap.Selected.key, same]; simpa using keyed⟩
  · obtain ⟨set, inside, found⟩ := List.mem_flatMap.1 inside
    obtain ⟨parent, view⟩ := overseen.all set inside
    have stands := (overseen.selects parent set view).2
    obtain ⟨x, within, same, stood⟩ := field_seen overseen.known (some parent)
      (fun outer same => Option.some.inj same ▸ stands) set found
    exact ⟨x, .intro view .own within stood, same⟩
  · obtain ⟨set, inside, spread⟩ := List.mem_flatMap.1 inside
    obtain ⟨parent, view⟩ := overseen.all set inside
    exact ⟨parent, set, view, .spread (spread_seen set spread) found⟩

/-- The root object is overseen. -/
theorem root_overseen (accepted : plan.Accepted document root) :
    Overseen plan.schema document plan.operation root [plan.operation.selectionSet]
      fun parent set => parent = .object root ∧ set = plan.operation.selectionSet where
  known := accepted.built.rootType _ accepted.root
  selects parent set := by
    rintro ⟨rfl, rfl⟩
    exact ⟨⟨_, .operation, operation_selects accepted.built accepted.operation accepted.root⟩, .inl rfl⟩
  all set member := ⟨.object root, rfl, List.mem_singleton.1 member⟩
  merge x y := by
    rintro ⟨⟨rfl, rfl⟩, first, member, -⟩ ⟨⟨rfl, rfl⟩, second, inside, -⟩ same
    obtain ⟨around, stop⟩ :=
      (operation_selects accepted.built accepted.operation accepted.root).stop
    exact expands_merge (fun conflicts => not_conflicting_of_accepted accepted.built
      accepted.accepted ⟨around, _, _, stop, conflicts⟩) first second member inside same

/-- What an object has for a field that validation has seen on a type which it can stand for: a field
whose values can stand for those of the field that was seen, with the same arguments. -/
structure Answering (schema : Schema) (document : Document) (operation : OperationDefinition)
    (object : ObjectType) (field : Field) (x : Overlap.Selected) (user : Ast.Node) (outer : TypeDef)
    (declared : Field) (result : TypeDef) : Prop where
  used : UsedBy document operation user
  typed : Typed schema document user outer declared result x
  stands : schema.StandsFor object outer
  found : schema.objectField? object x.node.name.text = some field
  subtype : schema.isSubtype field.type declared.type = true
  arguments : field = declared ∨ ∀ argument ∈ declared.arguments.items,
    (field.arguments.find? argument.name).map InputValue.type = some argument.type

theorem Seen.answering (built : schema.Built) (plain : schema.PlainNames)
    (accepted : schema.validate document = some [])
    (overseen : Overseen schema document operation object sets views)
    (seen : Seen schema document object views x) :
    ∃ field user outer declared result,
      Answering schema document operation object field x user outer declared result := by
  obtain ⟨user, outer, declared, result, used, typed, stands⟩ := seen.typed built accepted overseen
  obtain ⟨field, found, subtype, arguments⟩ :=
    built.selects plain overseen.known typed.known stands typed.field
  exact ⟨field, user, outer, declared, result, used, typed, stands, found, subtype, arguments⟩

/-- All nodes that are collected under a key select one field of the object. -/
theorem Overseen.selected (accepted : plan.Accepted document root)
    (overseen : Overseen plan.schema document plan.operation object sets views)
    (collected : (key, nodes) ∈ plan.collect object sets) :
    ∃ field, plan.field? object nodes = some field ∧
      ∀ x, Seen plan.schema document object views x → x.key = key →
        ∃ user outer declared result,
          Answering plan.schema document plan.operation object field x user outer declared result := by
  obtain ⟨node, rest, rfl⟩ : ∃ node rest, nodes = node :: rest := by
    obtain ⟨rfl, node, member, keyed⟩ := (Groups.mem_ofList _ _ _ _).1 collected
    exact List.exists_cons_of_ne_nil (List.ne_nil_of_mem (List.mem_filter.2 ⟨member, by simpa using keyed⟩))
  obtain ⟨first, seen, rfl, rfl⟩ := overseen.collected accepted collected List.mem_cons_self
  obtain ⟨field, _, _, _, _, answering⟩ :=
    seen.answering accepted.built accepted.plain accepted.accepted overseen
  refine ⟨field, answering.found, fun x other keyed => ?_⟩
  obtain ⟨its, user, outer, declared, result, answers⟩ :=
    other.answering accepted.built accepted.plain accepted.accepted overseen
  have named := (overseen.same accepted.built accepted.accepted other seen keyed).1
  have same : some its = some field := by rw [← answers.found, named, answering.found]
  cases same
  exact ⟨user, outer, declared, result, answers⟩

theorem RuntimeType.known {name : String} (runtime : RuntimeType schema name object) :
    schema.type? object.name = some (.object object) := by
  cases runtime with
  | declared found => exact Schema.type?_name found
  | possible _ _ found _ => exact Schema.type?_of_object? found

/-- The objects of a field can stand for the type that its selections select from. -/
theorem Answering.stands_below (built : schema.Built) {field declared : Field} {user : Ast.Node}
    {outer result : TypeDef}
    (answering : Answering schema document operation object field x user outer declared result)
    {inner : ObjectType} (runtime : RuntimeType schema field.type.innermost inner) :
    schema.StandsFor inner result := by
  have below : schema.type? declared.type.innermost = some result := answering.typed.type
  rcases (Schema.narrows_of_isSubtype answering.subtype).innermost with same | ⟨type, found, abstract, possible⟩
  · rw [← same] at below
    cases runtime with
    | declared found =>
      rw [found] at below
      cases below
      exact .inl rfl
    | possible found abstract _ possible =>
      rw [found] at below
      cases below
      exact .inr ⟨abstract, possible⟩
  · rw [found] at below
    cases below
    obtain ⟨object, here⟩ := Schema.object_of_possible built possible
    have called := Schema.name_of_type? found
    cases runtime with
    | declared other =>
      have named : inner.name = field.type.innermost := Schema.name_of_type? other
      exact .inr ⟨abstract, by rw [called, named]; exact possible⟩
    | possible other its _ _ =>
      rw [here] at other
      cases other
      cases its

/-- The selection sets of the fields that validation has seen under a key, with the types that they
select from. -/
def Below (schema : Schema) (document : Document) (object : ObjectType)
    (views : TypeDef → SelectionSet → Prop) (key : String) (parent : TypeDef) (set : SelectionSet) :
    Prop :=
  ∃ x, Seen schema document object views x ∧ x.key = key ∧ x.node.selectionSet = some set ∧
    x.below schema = some parent

/-- The objects that an execution comes to at a field are overseen, if the object of the field is. -/
theorem Overseen.field (accepted : plan.Accepted document root)
    (overseen : Overseen plan.schema document plan.operation object sets views)
    (collected : (key, nodes) ∈ plan.collect object sets) {field : Field} {inner : ObjectType}
    (found : plan.field? object nodes = some field)
    (runtime : RuntimeType plan.schema field.type.innermost inner) :
    Overseen plan.schema document plan.operation inner (setsOf nodes)
      (Below plan.schema document object views key) := by
  obtain ⟨its, here, each⟩ := overseen.selected accepted collected
  rw [found] at here
  cases here
  refine ⟨runtime.known, ?_, ?_, ?_⟩
  · rintro parent set ⟨x, seen, keyed, has, under⟩
    obtain ⟨user, outer, declared, result, answering⟩ := each x seen keyed
    rw [below_typed answering.typed] at under
    cases under
    exact ⟨⟨user, answering.used, answering.typed.inside set has⟩,
      answering.stands_below accepted.built runtime⟩
  · intro set member
    obtain ⟨node, inside, has⟩ := List.mem_filterMap.1 member
    obtain ⟨x, seen, rfl, keyed⟩ := overseen.collected accepted collected inside
    obtain ⟨user, outer, declared, result, answering⟩ := each x seen keyed
    exact ⟨result, x, seen, keyed, has, below_typed answering.typed⟩
  · rintro x y ⟨⟨a, seen, keyed, has, under⟩, first, member, -⟩
      ⟨⟨b, seenToo, keyedToo, hasToo, underToo⟩, second, inside, -⟩ same
    obtain ⟨user, outer, declared, result, answering⟩ := each a seen keyed
    obtain ⟨_, other, _, _, answeringToo⟩ := each b seenToo keyedToo
    have merged := below_merge accepted.built accepted.accepted answering.typed
      (overseen.merge a b seen seenToo (keyed.trans keyedToo.symm)) has hasToo under underToo first
      second member inside same
    rw [answering.typed.parent, answeringToo.typed.parent, Bool.false_or,
      together_of_stands answering.stands answeringToo.stands, or_self] at merged
    exact merged

/-- All objects that an execution comes to are overseen. -/
theorem reaches_overseen (accepted : plan.Accepted document root)
    (reached : plan.Reaches root object sets) :
    ∃ views, Overseen plan.schema document plan.operation object sets views := by
  induction reached with
  | root => exact ⟨_, root_overseen accepted⟩
  | field _ collected found runtime ih =>
    obtain ⟨views, overseen⟩ := ih
    exact ⟨_, overseen.field accepted collected found runtime⟩

end Overseen
end GraphQL.Execution
