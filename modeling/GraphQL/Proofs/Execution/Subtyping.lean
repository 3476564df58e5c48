import GraphQL.Proofs.Execution.Accepted
import GraphQL.Proofs.Execution.Responses

/-! Subtypes are an order, and they are sound for responses: what conforms to a type conforms to the
types that it narrows, so that what a field of an object is completed to conforms to the types that
the interfaces of the object declare for it. -/
namespace GraphQL

/-- How many non-null wrappers a type has. -/
def TypeRef.bangs : TypeRef → Nat
  | named _ => 0
  | list item => item.bangs
  | nonNull type => type.bangs + 1

namespace Schema
variable {schema : Schema} {a b c : TypeRef}

section Order

/-- A value that is required stands for itself. -/
theorem isSubtype_required (fits : schema.isSubtype a b = true) :
    schema.isSubtype (.nonNull a) b = true := by
  induction b generalizing a with
  | named _ | list _ =>
    rw [isSubtype.eq_def, Bool.or_eq_true]
    exact .inr fits
  | nonNull b ih =>
    rw [isSubtype.eq_def, Bool.or_eq_true]
    right
    rw [isSubtype.eq_def, Bool.or_eq_true] at fits
    rcases fits with same | fits
    · rw [beq_iff_eq.1 same]
      exact ih (isSubtype_refl schema b)
    · cases a with
      | nonNull a => exact ih fits
      | _ => cases fits

theorem isSubtype_of_narrows (narrows : schema.Narrows a b) : schema.isSubtype a b = true := by
  induction narrows with
  | refl type => exact isSubtype_refl schema type
  | possible found abstract possible =>
    rw [isSubtype.eq_def, Bool.or_eq_true, Bool.and_eq_true, found]
    exact .inr ⟨abstract, possible⟩
  | list _ ih | nonNull _ ih =>
    rw [isSubtype.eq_def, Bool.or_eq_true]
    exact .inr ih
  | required _ ih => exact isSubtype_required ih

theorem isSubtype_iff : schema.isSubtype a b = true ↔ schema.Narrows a b :=
  ⟨narrows_of_isSubtype, isSubtype_of_narrows⟩

/-- A type that can stand for an abstract one is none itself. -/
theorem Built.possible_once (built : schema.Built) {name abstract : String} {type : TypeDef}
    (possible : schema.isPossibleType abstract name = true) (found : schema.type? name = some type) :
    type.isAbstract = false := by
  obtain ⟨object, known⟩ := object_of_possible built possible
  rw [found] at known
  cases known
  rfl

theorem Narrows.trans (built : schema.Built) (first : schema.Narrows a b)
    (second : schema.Narrows b c) : schema.Narrows a c := by
  induction first generalizing c with
  | refl => exact second
  | possible found abstract possible =>
    cases second with
    | refl => exact .possible found abstract possible
    | possible _ _ again =>
      rw [built.possible_once again found] at abstract
      cases abstract
  | list inner ih =>
    cases second with
    | refl => exact .list inner
    | list outer => exact .list (ih outer)
  | nonNull inner ih =>
    cases second with
    | refl => exact .nonNull inner
    | nonNull outer => exact .nonNull (ih outer)
    | required outer => exact .required (ih outer)
  | required _ ih => exact .required (ih second)

theorem Narrows.bangs (narrows : schema.Narrows a b) : b.bangs ≤ a.bangs := by
  induction narrows with
  | refl | possible => exact Nat.le_refl _
  | list _ ih => exact ih
  | nonNull _ ih => exact Nat.succ_le_succ ih
  | required _ ih => exact Nat.le_succ_of_le ih

theorem Narrows.antisymm (built : schema.Built) (first : schema.Narrows a b)
    (second : schema.Narrows b a) : a = b := by
  induction first with
  | refl => rfl
  | possible found abstract possible =>
    cases second with
    | refl => rfl
    | possible again other _ =>
      rw [built.possible_once possible again] at other
      cases other
  | list inner ih =>
    cases second with
    | refl => rfl
    | list outer => rw [ih outer]
  | nonNull inner ih =>
    cases second with
    | refl => rfl
    | nonNull outer => rw [ih outer]
    | required outer =>
      have back := inner.bangs
      have more := outer.bangs
      simp only [TypeRef.bangs] at more
      omega
  | required inner ih =>
    have back := inner.bangs
    have more := second.bangs
    simp only [TypeRef.bangs] at more
    omega

end Order
end Schema

namespace Execution
variable {τ σ : Type} {plan : Plan τ} {sets : List Ast.SelectionSet} {value : Value}

section Conformance

/-- The objects that are values of a type are values of the abstract types it can stand for. -/
theorem RuntimeType.widen {schema : Schema} (built : schema.Built) {name abstract : String}
    {type : TypeDef} {object : ObjectType} (runs : RuntimeType schema name object)
    (found : schema.type? abstract = some type) (isAbstract : type.isAbstract = true)
    (possible : schema.isPossibleType abstract name = true) : RuntimeType schema abstract object := by
  cases runs with
  | declared known =>
    obtain rfl : object.name = name := Schema.name_of_type? known
    refine .possible found isAbstract ?_ (by rwa [Schema.name_of_type? found])
    rw [Schema.object?, known]
    rfl
  | possible known other _ _ =>
    rw [built.possible_once possible known] at other
    cases other

/-- What conforms to a type conforms to the types that it narrows. -/
theorem Conforms.widen {a b : TypeRef} (built : plan.schema.Built)
    (narrows : plan.schema.Narrows a b) (conforms : Conforms plan sets a value) :
    Conforms plan sets b value := by
  induction narrows generalizing value with
  | refl => exact conforms
  | possible found abstract possible =>
    obtain ⟨object, known⟩ := Schema.object_of_possible built possible
    cases conforms with
    | null => exact .null rfl
    | scalar other | enum other =>
      rw [known] at other
      cases other
    | object runs answers => exact .object (runs.widen built found abstract possible) answers
  | list _ ih =>
    cases conforms with
    | null => exact .null rfl
    | list each => exact .list fun item member => ih (each item member)
  | nonNull _ ih =>
    cases conforms with
    | null nullable => cases nullable
    | nonNull solid inner => exact .nonNull solid (ih inner)
  | required _ ih =>
    cases conforms with
    | null nullable => cases nullable
    | nonNull _ inner => exact ih inner

end Conformance

/-- At a place of the executor some value is completed and settled to the result. -/
def Completed (executor : Executor τ σ) (root : ObjectType) (site : Site) (type : TypeRef)
    (result : Value) : Prop :=
  executor.plan.Places root site type ∧ ∃ (limits : Limits) (path : Path) (found : FieldValue τ)
    (trace next : Trace σ), (executor.complete limits.depth site type path found >>=
      executor.settle limits).run trace = some (.ok result, next)

theorem Completed.conforms {executor : Executor τ σ} {root : ObjectType} {site : Site}
    {type : TypeRef} {result : Value} (completed : Completed executor root site type result) :
    Conforms executor.plan (setsOf site.nodes) type result := by
  obtain ⟨places, limits, path, found, trace, next, run⟩ := completed
  have keeps := keeps_anything executor root
  have settled := (complete_ensures keeps limits.depth site type path found places).bind
    fun completion errors sound => settle_ensures keeps limits (.bare sound)
  obtain ⟨-, errors, -, shielded⟩ := settled trace (.ok result) next trivial run
  exact shielded.value.1

end Execution

namespace Schema
variable {schema : Schema}

/-- The interfaces of an object are there, and the object has their fields. -/
theorem Built.interface_fields (built : schema.Built) {object : ObjectType}
    (known : schema.type? object.name = some (.object object)) {name : String}
    (implements : name ∈ object.interfaces) :
    ∃ interface, schema.type? name = some (.interface interface) ∧
      ∀ declared ∈ interface.fields.items, ∃ field, object.fields.find? declared.name = some field ∧
        schema.isSubtype field.type declared.type = true := by
  have faultless := (SchemaBuilder.schemaErrors_eq_nil_iff.1 built.faultless).1 _ (mem_of_type? known)
  obtain ⟨-, present⟩ := ((SchemaBuilder.membershipErrors_eq_nil_iff _).1 faultless.1).1 object rfl
  obtain ⟨interface, found⟩ := present name implements
  refine ⟨interface, found, fun declared inside => ?_⟩
  obtain ⟨field, has, fits, -⟩ := (SchemaBuilder.implementationErrors_eq_nil_iff _).1 faultless.2.2
    object rfl name implements interface found declared inside
  exact ⟨field, has, fits⟩

open Execution

/-- Subtypes are an order. They are sound for responses: what conforms to a type, or is completed at
it, conforms to the types that it is a subtype of. So what a field of an object is completed to
conforms to the type that each of its interfaces declares for it. -/
theorem subtyping_sound (built : schema.Built) :
    ((∀ a, schema.isSubtype a a = true) ∧
      (∀ a b c, schema.isSubtype a b = true → schema.isSubtype b c = true →
        schema.isSubtype a c = true) ∧
      ∀ a b, schema.isSubtype a b = true → schema.isSubtype b a = true → a = b) ∧
    (∀ a b, schema.isSubtype a b = true →
      (∀ (τ : Type) (plan : Plan τ), plan.schema = schema → ∀ sets value,
        Conforms plan sets a value → Conforms plan sets b value) ∧
      ∀ (τ σ : Type) (executor : Executor τ σ), executor.plan.schema = schema →
        ∀ root site result, Completed executor root site a result →
          Conforms executor.plan (setsOf site.nodes) b result) ∧
    ∀ object : ObjectType, schema.type? object.name = some (.object object) →
      ∀ name ∈ object.interfaces, ∃ interface, schema.type? name = some (.interface interface) ∧
        ∀ declared ∈ interface.fields.items, ∃ field,
          object.fields.find? declared.name = some field ∧
            ∀ (τ σ : Type) (executor : Executor τ σ), executor.plan.schema = schema →
              ∀ root site result, site.parent = object → site.field = field →
                Completed executor root site field.type result →
                Conforms executor.plan (setsOf site.nodes) declared.type result := by
  refine ⟨⟨isSubtype_refl schema, fun a b c first second => ?_, fun a b first second => ?_⟩,
    fun a b fits => ⟨?_, ?_⟩, fun object known name implements => ?_⟩
  · exact isSubtype_iff.2 ((isSubtype_iff.1 first).trans built (isSubtype_iff.1 second))
  · exact (isSubtype_iff.1 first).antisymm built (isSubtype_iff.1 second)
  · rintro τ plan rfl sets value conforms
    exact conforms.widen built (isSubtype_iff.1 fits)
  · rintro τ σ executor rfl root site result completed
    exact completed.conforms.widen built (isSubtype_iff.1 fits)
  · obtain ⟨interface, here, fields⟩ := built.interface_fields known implements
    refine ⟨interface, here, fun declared inside => ?_⟩
    obtain ⟨field, has, fits⟩ := fields declared inside
    refine ⟨field, has, ?_⟩
    rintro τ σ executor rfl root site result - - completed
    exact completed.conforms.widen built (isSubtype_iff.1 fits)

/-- A list of dogs that has to be there is a list of pets, and what its fields are completed to are
values of the fields of pets. -/
theorem subtyping_sound_pets :
    petSchema.isSubtype (.nonNull (.list (.named "Dog"))) (.list (.named "Pet")) = true ∧
    Conforms petPlan [] (.list (.named "Pet")) (.list []) ∧
    ∃ interface, petSchema.type? "Pet" = some (.interface interface) ∧
      ∀ declared ∈ interface.fields.items, ∃ field, dogType.fields.find? declared.name = some field := by
  obtain ⟨order, sound, fields⟩ := subtyping_sound petSchema_built
  have fits : petSchema.isSubtype (.nonNull (.list (.named "Dog"))) (.list (.named "Pet")) = true := by
    apply order.2.1 _ (.list (.named "Dog"))
    · decide +kernel
    · decide +kernel
  have empty : Conforms petPlan [] (.nonNull (.list (.named "Dog"))) (.list []) :=
    .nonNull rfl (.list nofun)
  refine ⟨fits, (sound _ _ fits).1 _ petPlan rfl [] (.list []) empty, ?_⟩
  obtain ⟨interface, found, each⟩ := fields dogType rfl "Pet" (by decide)
  exact ⟨interface, found, fun declared inside => (each declared inside).imp fun _ has => has.1⟩

end Schema
end GraphQL
