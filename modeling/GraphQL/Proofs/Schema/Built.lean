import GraphQL.Schema.Builder
import GraphQL.Schema.Fields

/-! What holds of every schema that has been built: nothing is wrong with it, and its root
types are among its types. -/
namespace GraphQL
open SchemaBuilder

/-- A schema that building it has not refused. -/
def Schema.Built (schema : Schema) : Prop := ∃ builder : SchemaBuilder, builder.build = .ok schema

/-- A name is that of one of the types. -/
def Known (types : List TypeDef) (name : String) : Prop := ∃ type ∈ types, type.name = name

namespace SchemaBuilder
variable {catalogue : List TypeDef}

/-- A demand is met by some types. -/
def Demand.Met (types : List TypeDef) : Demand → Prop
  | .type name _ => Known types name
  | .refuse _ => False

/-- How many demands the types that are not found yet can still make. -/
def outstanding (catalogue found : List TypeDef) : Nat :=
  ((catalogue.filter fun type => !found.any fun other => other.name == type.name).flatMap
    demands).length

theorem length_demands_cons (kept : TypeDef → Bool) (type : TypeDef) (rest : List TypeDef) :
    (((type :: rest).filter kept).flatMap demands).length =
      (if kept type = true then (demands type).length else 0) +
        ((rest.filter kept).flatMap demands).length := by
  rw [List.filter_cons]
  split
  · rw [List.flatMap_cons, List.length_append]
  · rw [Nat.zero_add]

theorem length_demands_mono {kept fewer : TypeDef → Bool}
    (less : ∀ other, fewer other = true → kept other = true) (types : List TypeDef) :
    ((types.filter fewer).flatMap demands).length ≤
      ((types.filter kept).flatMap demands).length := by
  induction types with
  | nil => exact Nat.le_refl _
  | cons other rest ih =>
    have here := less other
    rw [length_demands_cons, length_demands_cons]
    split <;> split <;> first | omega | simp_all

/-- A type that is no longer kept takes its demands away. -/
theorem length_demands_drop {types : List TypeDef} {kept fewer : TypeDef → Bool} {type : TypeDef}
    (member : type ∈ types) (here : kept type = true) (gone : fewer type = false)
    (less : ∀ other, fewer other = true → kept other = true) :
    ((types.filter fewer).flatMap demands).length + (demands type).length ≤
      ((types.filter kept).flatMap demands).length := by
  induction types with
  | nil => cases member
  | cons other rest ih =>
    rw [length_demands_cons, length_demands_cons]
    rcases List.mem_cons.1 member with rfl | member
    · have others := length_demands_mono less rest
      rw [if_pos here, if_neg (by simp [gone])]
      omega
    · have others := ih member
      have stays := less other
      split <;> split <;> first | omega | simp_all

theorem outstanding_push (found : List TypeDef) {type : TypeDef} (member : type ∈ catalogue)
    (unmet : (found.any fun other => other.name == type.name) = false) :
    outstanding catalogue (found ++ [type]) + (demands type).length ≤
      outstanding catalogue found := by
  apply length_demands_drop member
  · simp [unmet]
  · simp
  · intro other
    simp only [List.any_append, Bool.not_or, Bool.and_eq_true]
    exact And.left

/-- The types that are gathered are the catalogue's own. -/
theorem gather_own (steps : Nat) (demands : List Demand) {found types : List TypeDef}
    (gathered : gather catalogue steps demands found = .ok types)
    (own : ∀ type ∈ found, findType? catalogue type.name = some type) :
    ∀ type ∈ types, findType? catalogue type.name = some type := by
  induction steps, demands, found using gather.induct catalogue with
  | case1 steps found | case2 demand rest found =>
    rw [gather] at gathered
    cases gathered
    exact own
  | case3 steps error rest found =>
    rw [gather] at gathered
    cases gathered
  | case4 steps name referencedBy rest found met ih =>
    rw [gather, if_pos met] at gathered
    exact ih gathered own
  | case5 steps name referencedBy rest found unmet missing =>
    rw [gather, if_neg unmet, missing] at gathered
    cases gathered
  | case6 steps name referencedBy rest found unmet type known ih =>
    have called : type.name = name := by simpa using List.find?_some known
    rw [gather, if_neg unmet, known] at gathered
    refine ih gathered (List.forall_mem_append.2 ⟨own, List.forall_mem_singleton.2 ?_⟩)
    rwa [called]

/-- Where the types are gathered, they meet all demands, and those of all types that are found. -/
theorem gather_meets (steps : Nat) (demands : List Demand) {found types : List TypeDef}
    (gathered : gather catalogue steps demands found = .ok types)
    (enough : demands.length + outstanding catalogue found ≤ steps) :
    found ⊆ types ∧ (∀ demand ∈ demands, demand.Met types) ∧
      ∀ type ∈ types, type ∈ found ∨ ∀ demand ∈ SchemaBuilder.demands type, demand.Met types := by
  induction steps, demands, found using gather.induct catalogue with
  | case1 steps found =>
    rw [gather] at gathered
    cases gathered
    exact ⟨fun _ member => member, fun _ member => absurd member List.not_mem_nil,
      fun _ member => .inl member⟩
  | case2 demand rest found => simp at enough
  | case3 steps error rest found =>
    rw [gather] at gathered
    cases gathered
  | case4 steps name referencedBy rest found met ih =>
    rw [gather, if_pos met] at gathered
    obtain ⟨kept, others, inner⟩ := ih gathered (by simp at enough; omega)
    obtain ⟨type, member, named⟩ := List.any_eq_true.1 met
    exact ⟨kept, List.forall_mem_cons.2 ⟨⟨type, kept member, beq_iff_eq.1 named⟩, others⟩, inner⟩
  | case5 steps name referencedBy rest found unmet missing =>
    rw [gather, if_neg unmet, missing] at gathered
    cases gathered
  | case6 steps name referencedBy rest found unmet type known ih =>
    have called : type.name = name := by simpa using List.find?_some known
    rw [gather, if_neg unmet, known] at gathered
    have push := outstanding_push found (List.mem_of_find?_eq_some known)
      (by rw [called]; simpa using unmet)
    obtain ⟨kept, met, inner⟩ := ih gathered (by simp at enough ⊢; omega)
    obtain ⟨own, others⟩ := List.forall_mem_append.1 met
    have here : type ∈ types := kept (List.mem_append_right _ List.mem_cons_self)
    refine ⟨fun other member => kept (List.mem_append_left _ member),
      List.forall_mem_cons.2 ⟨⟨type, here, called⟩, others⟩, fun other member => ?_⟩
    rcases inner other member with member | member
    · rcases List.mem_append.1 member with member | member
      · exact .inl member
      · rw [List.mem_singleton.1 member]
        exact .inr own
    · exact .inr member

/-- The types are gathered if the catalogue meets the demands of all its types. -/
theorem gather_succeeds (steps : Nat) (demands : List Demand) (found : List TypeDef)
    (met : ∀ demand ∈ demands, demand.Met catalogue)
    (each : ∀ type ∈ catalogue, ∀ demand ∈ SchemaBuilder.demands type, demand.Met catalogue) :
    ∃ types, gather catalogue steps demands found = .ok types := by
  induction steps, demands, found using gather.induct catalogue with
  | case1 steps found => exact ⟨found, by rw [gather]⟩
  | case2 demand rest found => exact ⟨found, by rw [gather]⟩
  | case3 steps error rest found => exact (met _ List.mem_cons_self).elim
  | case4 steps name referencedBy rest found here ih =>
    rw [gather, if_pos here]
    exact ih (List.forall_mem_cons.1 met).2
  | case5 steps name referencedBy rest found unmet missing =>
    obtain ⟨type, member, named⟩ := met _ List.mem_cons_self
    exact absurd (beq_iff_eq.2 named) (List.find?_eq_none.1 missing type member)
  | case6 steps name referencedBy rest found unmet type known ih =>
    rw [gather, if_neg unmet, known]
    exact ih (List.forall_mem_append.2
      ⟨each type (List.mem_of_find?_eq_some known), (List.forall_mem_cons.1 met).2⟩)

theorem except_bind_ok {ε α β : Type} {first : Except ε α} {next : α → Except ε β} {result : β}
    (bound : first >>= next = .ok result) : ∃ value, first = .ok value ∧ next value = .ok result := by
  cases first with
  | error _ => cases bound
  | ok value => exact ⟨value, rfl, bound⟩

theorem refuseFirst_ok_iff {errors : List SchemaError} :
    refuseFirst errors = .ok () ↔ errors = [] := by
  cases errors <;> simp [refuseFirst]

/-- What a schema is built of, and when. -/
theorem build_ok_iff {builder : SchemaBuilder} {schema : Schema} :
    builder.build = .ok schema ↔ ∃ query, builder.query = some query ∧
      registrationErrors [] builder.types = [] ∧ builder.gatherTypes = .ok schema.types ∧
      builder.root query = .ok schema.query ∧
      builder.optionalRoot builder.mutation = .ok schema.mutation ∧
      builder.optionalRoot builder.subscription = .ok schema.subscription ∧
      schema.directives = builder.allDirectives ∧ schemaErrors schema = [] := by
  constructor
  · intro built
    rw [build] at built
    cases named : builder.query with
    | none => simp [named] at built
    | some query =>
      simp only [named] at built
      obtain ⟨_, registered, built⟩ := except_bind_ok built
      obtain ⟨types, gathered, built⟩ := except_bind_ok built
      obtain ⟨queryType, first, built⟩ := except_bind_ok built
      obtain ⟨mutation, second, built⟩ := except_bind_ok built
      obtain ⟨subscription, third, built⟩ := except_bind_ok built
      obtain ⟨_, passed, built⟩ := except_bind_ok built
      cases built
      exact ⟨query, rfl, refuseFirst_ok_iff.1 registered, gathered, first, second, third, rfl,
        refuseFirst_ok_iff.1 passed⟩
  · obtain ⟨root, mutation, subscription, types, directives⟩ := schema
    rintro ⟨query, named, registered, gathered, first, second, third, same, passed⟩
    dsimp only at gathered first second third same
    subst same
    simp only [build, named, registered, gathered, first, second, third, passed, refuseFirst, bind,
      Except.bind]
    rfl

/-- The parts of a schema that has been built. -/
theorem build_ok {builder : SchemaBuilder} {schema : Schema} (built : builder.build = .ok schema) :
    ∃ query, builder.query = some query ∧ builder.gatherTypes = .ok schema.types ∧
      builder.root query = .ok schema.query ∧
      builder.optionalRoot builder.mutation = .ok schema.mutation ∧
      builder.optionalRoot builder.subscription = .ok schema.subscription ∧
      schemaErrors schema = [] := by
  obtain ⟨query, named, _, gathered, first, second, third, _, passed⟩ := build_ok_iff.1 built
  exact ⟨query, named, gathered, first, second, third, passed⟩

variable {builder : SchemaBuilder} {types : List TypeDef}

theorem outstanding_nil (catalogue : List TypeDef) :
    outstanding catalogue [] = (catalogue.flatMap demands).length := by
  rw [outstanding, List.filter_eq_self.2 (by simp)]

/-- The demands of the builder are met, and those of the types that are gathered. -/
theorem gathered_meets (gathered : builder.gatherTypes = .ok types) :
    (∀ demand ∈ builder.initialDemands, demand.Met types) ∧
      ∀ type ∈ types, ∀ demand ∈ demands type, demand.Met types := by
  obtain ⟨-, met, inner⟩ := gather_meets _ _ gathered
    (Nat.add_le_add_left (Nat.le_of_eq (outstanding_nil _)) _)
  exact ⟨met, fun type member => (inner type member).resolve_left List.not_mem_nil⟩

/-- The types that are gathered are the catalogue's own, and meet the demands of the builder. -/
theorem gathered_ok (gathered : builder.gatherTypes = .ok types) :
    (∀ type ∈ types, findType? (builder.types ++ knownTypes) type.name = some type) ∧
      ∀ name referencedBy, .type name referencedBy ∈ builder.initialDemands → Known types name :=
  ⟨gather_own _ _ gathered fun _ member => absurd member List.not_mem_nil,
    fun _ _ member => (gathered_meets gathered).1 _ member⟩

theorem gatherTypes_ok (gathered : builder.gatherTypes = .ok types) :
    (∀ type ∈ types, findType? (builder.types ++ knownTypes) type.name = some type) ∧
      ∀ type ∈ builder.types, ∃ other ∈ types, other.name = type.name := by
  obtain ⟨own, met⟩ := gathered_ok gathered
  refine ⟨own, fun type member => met type.name none ?_⟩
  rw [initialDemands, List.append_assoc]
  exact List.mem_append_left _ (List.mem_map_of_mem (f := fun type => Demand.type type.name none) member)

theorem findType?_gathered (gathered : builder.gatherTypes = .ok types) (type : TypeDef)
    (found : findType? builder.types type.name = some type) :
    findType? types type.name = some type := by
  obtain ⟨own, met⟩ := gatherTypes_ok gathered
  obtain ⟨other, member, same⟩ := met type (List.mem_of_find?_eq_some found)
  have some_ : (findType? types type.name).isSome = true :=
    List.find?_isSome.2 ⟨other, member, by simp [same]⟩
  obtain ⟨first, here⟩ := Option.isSome_iff_exists.1 some_
  have called : first.name = type.name := by simpa using List.find?_some here
  have known := own first (List.mem_of_find?_eq_some here)
  rw [called, findType?, List.find?_append, ← findType?, found] at known
  cases known
  exact here

theorem root_ok {name : String} {object : ObjectType} (found : builder.root name = .ok object) :
    findType? builder.types object.name = some (.object object) := by
  rw [root] at found
  cases here : (findType? builder.types name).bind TypeDef.object? with
  | none => simp [here] at found
  | some other =>
    rw [here] at found
    cases found
    obtain ⟨type, first, same⟩ := Option.bind_eq_some_iff.1 here
    cases type with
    | object _ =>
      cases same
      have called : (TypeDef.object object).name = name := by simpa using List.find?_some first
      have called : object.name = name := called
      rwa [called]
    | _ => cases same

theorem optionalRoot_ok {name : Option String} {object : ObjectType}
    (found : builder.optionalRoot name = .ok (some object)) :
    findType? builder.types object.name = some (.object object) := by
  cases name with
  | none => cases found
  | some name =>
    rw [optionalRoot] at found
    cases here : builder.root name with
    | error _ =>
      rw [here] at found
      cases found
    | ok other =>
      rw [here] at found
      cases found
      exact root_ok here

end SchemaBuilder

namespace Schema
variable {schema : Schema}

theorem Built.faultless (built : schema.Built) : schemaErrors schema = [] := by
  obtain ⟨builder, built⟩ := built
  obtain ⟨_, _, _, _, _, _, faultless⟩ := build_ok built
  exact faultless

/-- The root types are among the types. -/
theorem Built.rootType (built : schema.Built) (operation : Ast.OperationType) {root : ObjectType}
    (found : schema.rootType? operation = some root) :
    schema.type? root.name = some (.object root) := by
  obtain ⟨builder, built⟩ := built
  obtain ⟨_, _, gathered, query, mutation, subscription, _⟩ := build_ok built
  refine findType?_gathered gathered (.object root) ?_
  cases operation with
  | query =>
    cases found
    exact root_ok query
  | mutation =>
    rw [rootType?] at found
    rw [found] at mutation
    exact optionalRoot_ok mutation
  | subscription =>
    rw [rootType?] at found
    rw [found] at subscription
    exact optionalRoot_ok subscription

theorem name_of_type? {name : String} {type : TypeDef} (found : schema.type? name = some type) :
    type.name = name := by
  simpa using List.find?_some found

theorem type?_name {name : String} {type : TypeDef} (found : schema.type? name = some type) :
    schema.type? type.name = some type := by
  rwa [name_of_type? found]

/-- Types without selections have no fields. -/
theorem Built.field?_leaf (built : schema.Built) {type : TypeDef}
    (known : schema.type? type.name = some type) (leaf : type.isComposite = false) (name : String) :
    schema.field? type name = none := by
  have notQuery : (type.name == schema.query.name) = false := by
    rw [beq_eq_false_iff_ne]
    intro same
    have root := built.rootType .query rfl
    rw [← same, known] at root
    cases root
    cases leaf
  have plain : type.field? name = none := by
    cases type with
    | object _ | interface _ => cases leaf
    | _ => rfl
  simp [field?, metaField?, notQuery, leaf, plain]

end Schema
end GraphQL
