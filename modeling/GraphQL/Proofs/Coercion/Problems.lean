import GraphQL.Proofs.Coercion.Acceptable

/-! Everything wrong with an input. What is told of an input that a type does not accept are the faults
of the inputs inside it, each with the path to its place. -/
namespace GraphQL.Coercion
variable {schema : Schema}

/-- A step into a value: to an item of a list or to a field of an object. -/
inductive Step where
  | element (index : Nat)
  | field (name : String)

/-- Tells of a problem that is a step away. -/
def Step.tell : Step → String → String
  | element index => inElement index
  | field name => inField name

/-- Tells of a problem at the end of a path. -/
def tell (path : List Step) (problem : String) : String := path.foldr Step.tell problem

/-- Inside an input of a type, at the end of a path, another input is read at another type. -/
inductive Place (schema : Schema) : TypeRef → Value → List Step → TypeRef → Value → Prop
  | here {type : TypeRef} {given : Value} : Place schema type given [] type given
  | nonNull {type inner : TypeRef} {given part : Value} {path : List Step} : given.isNull = false →
      Place schema type given path inner part → Place schema (.nonNull type) given path inner part
  | item {item inner : TypeRef} {givens : List Value} {given part : Value} {index : Nat}
      {path : List Step} : givens[index]? = some given → Place schema item given path inner part →
      Place schema (.list item) (.list givens) (.element index :: path) inner part
  | single {item inner : TypeRef} {given part : Value} {path : List Step} : given.isNull = false →
      given.list? = none → Place schema item given path inner part →
      Place schema (.list item) given path inner part
  | field {name : String} {input : InputObjectType} {entries : Entries Value} {declared : InputValue}
      {given part : Value} {inner : TypeRef} {path : List Step} :
      schema.type? name = some (.inputObject input) → declared ∈ input.fields.items →
      entries.get? declared.name = some given → Place schema declared.type given path inner part →
      Place schema (.named name) (.object entries) (.field declared.name :: path) inner part

/-- What is wrong with an input of a type, its parts not counted. -/
inductive Fault (schema : Schema) : TypeRef → Value → String → Prop
  | null {type : TypeRef} : type.isNonNull = true → Fault schema type .null (foundNull type)
  | leaf {name : String} {type : TypeDef} {given : Value} : schema.type? name = some type →
      type.isLeaf = true → given.isNull = false → type.parseInput given = none →
      Fault schema (.named name) given (unexpected name given.json)
  | notAnObject {name : String} {input : InputObjectType} {given : Value} :
      schema.type? name = some (.inputObject input) → given.isNull = false → given.object? = none →
      Fault schema (.named name) given (notAnObject name)
  | unknownField {name : String} {input : InputObjectType} {entries : Entries Value} {key : String} :
      schema.type? name = some (.inputObject input) → key ∈ entries.keys →
      input.fields.contains key = false →
      Fault schema (.named name) (.object entries) (unknownField key)
  | missing {name : String} {input : InputObjectType} {entries : Entries Value} {declared : InputValue} :
      schema.type? name = some (.inputObject input) → declared ∈ input.fields.items →
      entries.get? declared.name = none → declared.type.isNonNull = true → declared.default = none →
      Fault schema (.named name) (.object entries) (inField declared.name (foundNull declared.type))
  | unknownType {name : String} {given : Value} :
      (∀ type, schema.type? name = some type → type.isInput = false) → given.isNull = false →
      Fault schema (.named name) given ("Unknown input type \"" ++ name ++ "\".")

section Problems

/-- The problems of a result. -/
def problemsOf {α : Type} : Except Problems α → Problems
  | .ok _ => []
  | .error problems => problems

theorem problemsOf_map {α β : Type} (f : α → β) (result : Except Problems α) :
    problemsOf (result.map f) = problemsOf result := by
  cases result <;> rfl

/-- A result that is there unless there are problems. -/
theorem problemsOf_unless {α : Type} (problems : Problems) (value : α) :
    problemsOf (if problems.isEmpty then .ok value else .error problems) = problems := by
  split
  · rename_i empty
    exact (List.isEmpty_iff.1 empty).symm
  · rfl

theorem problemsOf_ofItems (results : List (Except Problems Value)) :
    problemsOf (ofItems results) =
      results.zipIdx.flatMap fun pair => (problemsOf pair.1).map (inElement pair.2) := by
  refine (problemsOf_unless _ _).trans (List.flatMap_congr fun pair _ => ?_)
  obtain ⟨result, index⟩ := pair
  cases result <;> rfl

theorem problemsOf_ofFields (fields : List (String × Input)) (input : InputObjectType) :
    problemsOf (ofFields fields input) =
      ((fields.filter fun field => !input.fields.contains field.1).map fun field =>
        unknownField field.1) ++ input.fields.items.flatMap fun declared =>
          (problemsOf (ofField fields declared)).map (inField declared.name) := by
  refine (problemsOf_unless _ _).trans (congrArg (_ ++ ·) ?_)
  rw [List.flatMap_map]
  refine List.flatMap_congr fun declared _ => ?_
  cases ofField fields declared <;> rfl

theorem mem_item_problems {givens : List Value} {item : TypeRef} {message : String} :
    message ∈ problemsOf (schema.coerce (.list givens) (.list item)) ↔
      ∃ index given, givens[index]? = some given ∧
        ∃ problem ∈ problemsOf (schema.coerce given item), inElement index problem = message := by
  rw [coerce_list, problemsOf_ofItems]
  simp only [List.mem_flatMap, List.mem_map, Prod.exists, List.mk_mem_zipIdx_iff_getElem?,
    List.getElem?_map, Option.map_eq_some_iff]
  constructor
  · rintro ⟨_, index, ⟨given, here, rfl⟩, problem⟩
    exact ⟨index, given, here, problem⟩
  · rintro ⟨index, given, here, problem⟩
    exact ⟨_, index, ⟨given, here, rfl⟩, problem⟩

theorem mem_field_problems {name : String} {input : InputObjectType}
    (known : schema.type? name = some (.inputObject input)) {entries : Entries Value} {message : String} :
    message ∈ problemsOf (schema.coerce (.object entries) (.named name)) ↔
      (∃ key ∈ entries.keys, input.fields.contains key = false ∧ unknownField key = message) ∨
      ∃ declared ∈ input.fields.items, ∃ problem, inField declared.name problem = message ∧
        match entries.get? declared.name with
        | some given => problem ∈ problemsOf (schema.coerce given declared.type)
        | none => declared.type.isNonNull = true ∧ declared.default = none ∧
            problem = foundNull declared.type := by
  have field (declared : InputValue) (problem : String) :
      problem ∈ problemsOf (ofField (entries.map fun entry => (entry.1, schema.coerce entry.2)) declared) ↔
        match entries.get? declared.name with
        | some given => problem ∈ problemsOf (schema.coerce given declared.type)
        | none => declared.type.isNonNull = true ∧ declared.default = none ∧
            problem = foundNull declared.type := by
    rw [ofField_entries]
    cases entries.get? declared.name with
    | some given => exact iff_of_eq (congrArg (problem ∈ ·) (problemsOf_map some _))
    | none =>
      cases declared.default <;> cases declared.type.isNonNull <;> simp [problemsOf]
  rw [coerce_object known, problemsOf_ofFields, List.mem_append]
  refine or_congr ?_ ?_
  · simp only [List.mem_map, List.mem_filter, Entries.keys, Bool.not_eq_true', and_assoc,
      exists_exists_and_eq_and]
  · simp only [List.mem_flatMap, List.mem_map, field]
    exact exists_congr fun declared => and_congr_right fun _ => exists_congr fun problem => and_comm

end Problems

section Reports

/-- What is wrong with an input itself is told. -/
theorem Fault.told {type : TypeRef} {given : Value} {problem : String}
    (fault : Fault schema type given problem) : problem ∈ problemsOf (schema.coerce given type) := by
  cases fault with
  | null nonNull =>
    rw [coerce_null, if_pos nonNull]
    exact List.mem_singleton_self _
  | leaf known leaf solid unread =>
    rw [coerce_leaf known leaf solid, unread]
    exact List.mem_singleton_self _
  | notAnObject known solid other =>
    rw [coerce_notObject known solid other]
    exact List.mem_singleton_self _
  | unknownField known given unknown =>
    exact (mem_field_problems known).2 (.inl ⟨_, given, unknown, rfl⟩)
  | missing known inside absent nonNull without =>
    refine (mem_field_problems known).2 (.inr ⟨_, inside, _, rfl, ?_⟩)
    rw [absent]
    exact ⟨nonNull, without, rfl⟩
  | unknownType unknown solid =>
    rw [coerce_unknown unknown solid]
    exact List.mem_singleton_self _

/-- What is told of a part of an input is told of the input, with the path of the part. -/
theorem Place.told {type inner : TypeRef} {given part : Value} {path : List Step}
    (place : Place schema type given path inner part) {problem : String}
    (told : problem ∈ problemsOf (schema.coerce part inner)) :
    tell path problem ∈ problemsOf (schema.coerce given type) := by
  induction place with
  | here => exact told
  | nonNull solid _ ih =>
    rw [coerce_nonNull solid]
    exact ih told
  | item here _ ih => exact mem_item_problems.2 ⟨_, _, here, _, ih told, rfl⟩
  | single solid single _ ih =>
    rw [coerce_single solid single, problemsOf_map]
    exact ih told
  | field known inside here _ ih =>
    refine (mem_field_problems known).2 (.inr ⟨_, inside, _, rfl, ?_⟩)
    rw [here]
    exact ih told

/-- Only what is wrong with an input or a part of it is told. -/
def Justified (schema : Schema) (type : TypeRef) (given : Value) (message : String) : Prop :=
  ∃ path inner part problem, Place schema type given path inner part ∧
    Fault schema inner part problem ∧ message = tell path problem

theorem named_justified {given : Value} (solid : given.isNull = false)
    (parts : ∀ part ∈ given.parts, ∀ type, ∀ message ∈ problemsOf (schema.coerce part type),
      Justified schema type part message) {name message : String}
    (told : message ∈ problemsOf (schema.coerce given (.named name))) :
    Justified schema (.named name) given message := by
  have here {problem : String} (fault : Fault schema (.named name) given problem)
      (same : message = problem) : Justified schema (.named name) given message :=
    ⟨[], _, _, _, .here, fault, same⟩
  rcases named_cases schema name with unknown | ⟨type, known, leaf⟩ | ⟨input, known⟩
  · rw [coerce_unknown unknown solid] at told
    exact here (.unknownType unknown solid) (List.mem_singleton.1 told)
  · rw [coerce_leaf known leaf solid] at told
    cases read : type.parseInput given with
    | none =>
      rw [read] at told
      exact here (.leaf known leaf solid read) (List.mem_singleton.1 told)
    | some value =>
      rw [read] at told
      cases told
  · cases object : given.object? with
    | none =>
      rw [coerce_notObject known solid object] at told
      exact here (.notAnObject known solid object) (List.mem_singleton.1 told)
    | some entries =>
      obtain rfl := Value.eq_object object
      rcases (mem_field_problems known).1 told with
        ⟨key, given, unknown, rfl⟩ | ⟨declared, inside, problem, rfl, here_told⟩
      · exact here (.unknownField known given unknown) rfl
      · cases found : entries.get? declared.name with
        | some given =>
          rw [found] at here_told
          obtain ⟨path, inner, part, problem, place, fault, rfl⟩ :=
            parts given (List.mem_map.2 ⟨_, Entries.mem_of_get? found, rfl⟩) _ _ here_told
          exact ⟨_, _, _, _, .field known inside found place, fault, rfl⟩
        | none =>
          rw [found] at here_told
          obtain ⟨nonNull, without, rfl⟩ := here_told
          exact here (.missing known inside found nonNull without) rfl

theorem justified (given : Value) : ∀ type, ∀ message ∈ problemsOf (schema.coerce given type),
    Justified schema type given message := by
  refine given.byParts (motive := fun given => ∀ type, ∀ message ∈ problemsOf (schema.coerce given type),
    Justified schema type given message) ?_
  intro given parts type
  cases null : given.isNull with
  | true =>
    obtain rfl := eq_null_of_isNull null
    intro message told
    rw [coerce_null] at told
    split at told
    · rename_i nonNull
      exact ⟨[], _, _, _, .here, .null nonNull, List.mem_singleton.1 told⟩
    · cases told
  | false =>
    induction type with
    | nonNull type ih =>
      intro message told
      rw [coerce_nonNull null] at told
      obtain ⟨path, inner, part, problem, place, wrong⟩ := ih message told
      exact ⟨path, inner, part, problem, .nonNull null place, wrong⟩
    | list item ih =>
      intro message told
      cases single : given.list? with
      | some givens =>
        obtain rfl := Value.eq_list single
        obtain ⟨index, given, here, problem, inside, rfl⟩ := mem_item_problems.1 told
        obtain ⟨path, inner, part, problem, place, fault, rfl⟩ :=
          parts given (List.mem_of_getElem? here) item problem inside
        exact ⟨_, _, _, _, .item here place, fault, rfl⟩
      | none =>
        rw [coerce_single null single, problemsOf_map] at told
        obtain ⟨path, inner, part, problem, place, wrong⟩ := ih message told
        exact ⟨path, inner, part, problem, .single null single place, wrong⟩
    | named name => exact fun message => named_justified null parts

end Reports

section Whole

/-- What is told of an input is what is wrong with it and with its parts. -/
theorem mem_problems_iff {type : TypeRef} {given : Value} {problems : Problems}
    (failed : schema.coerce given type = .error problems) (message : String) :
    message ∈ problems ↔ Justified schema type given message := by
  have same : problems = problemsOf (schema.coerce given type) := by rw [failed]; rfl
  rw [same]
  constructor
  · exact justified given type message
  · rintro ⟨path, inner, part, problem, place, fault, rfl⟩
    exact place.told fault.told

/-- An input has a value exactly if the type accepts it. -/
theorem coerce_ok_iff {type : TypeRef} {given : Value} :
    (∃ value, schema.coerce given type = .ok value) ↔ Acceptable schema type given := by
  constructor
  · rintro ⟨value, read⟩
    exact (coerce_becomes given type value read).acceptable
  · intro acceptable
    obtain ⟨value, becomes⟩ := acceptable.becomes
    exact ⟨value, becomes.coerce⟩

/-- Something is told of an input that the type does not accept. -/
theorem told_of_unacceptable {type : TypeRef} {given : Value}
    (unacceptable : ¬Acceptable schema type given) :
    ∃ problem, problem ∈ problemsOf (schema.coerce given type) := by
  cases read : schema.coerce given type with
  | ok value => exact absurd (coerce_ok_iff.1 ⟨value, read⟩) unacceptable
  | error problems =>
    cases problems with
    | nil => exact absurd read (ofValue_ne_nil given type)
    | cons problem _ => exact ⟨problem, List.mem_cons_self⟩

end Whole

end GraphQL.Coercion

namespace GraphQL
open Coercion

/-- Inputs have a value exactly if their type accepts them. Otherwise all their faults are told, and no
others, each with the path to its place; so something is told, with its path, of each input inside that
is not acceptable where it is read. Where defaults are admitted and parsing never yields null, a value
is admitted by its type, with its declared fields in their order and its defaults filled in; and where
parsed values and defaults stay as they are, so do all values. -/
theorem coerce_accepts (schema : Schema) (type : TypeRef) (given : Value) :
    ((∃ value, schema.coerce given type = .ok value) ↔ Acceptable schema type given) ∧
    (∀ problems, schema.coerce given type = .error problems → problems ≠ [] ∧
      (∀ message, message ∈ problems ↔ ∃ path inner part problem, Place schema type given path inner part ∧
        Coercion.Fault schema inner part problem ∧ message = tell path problem) ∧
      ∀ path inner part, Place schema type given path inner part → ¬Acceptable schema inner part →
        ∃ problem, tell path problem ∈ problems) ∧
    ∀ value, schema.coerce given type = .ok value → Becomes schema type given value ∧
      (∀ takes, schema.Throughout (TypeDef.AdmitsInputs schema takes) type →
        Admits schema takes type value) ∧
      (schema.Throughout (TypeDef.KeepsInputs schema) type → schema.coerce value type = .ok value) := by
  refine ⟨coerce_ok_iff, fun problems failed => ⟨?_, mem_problems_iff failed, ?_⟩, fun value read => ?_⟩
  · rintro rfl
    exact ofValue_ne_nil given type failed
  · intro path inner part place unacceptable
    obtain ⟨problem, told⟩ := told_of_unacceptable unacceptable
    refine ⟨problem, ?_⟩
    have told := place.told told
    rwa [failed] at told
  · have becomes := coerce_becomes given type value read
    exact ⟨becomes, fun takes throughout => becomes.admits throughout,
      fun throughout => (becomes.again throughout).coerce⟩

section Filters

/-- A filter with a field that is not declared and an identity that is none. -/
def wrongFilter : Value :=
  .object [("colour", .string "RED"), ("ids", .list [.int 7, .boolean true])]

def rightFilter : Value := .object [("color", .string "RED"), ("ids", .int 7)]

theorem filterSchema_nullFree : filterSchema.NullFree where
  scalar scalar member := ScalarType.builtins_nullFree scalar (filterSchema_scalar member)
  enum enum member choice inside := (filterSchema_admitted.enum enum member choice inside).1

/-- Identities stay as they are once they are strings. -/
theorem filterSchema_keeps :
    filterSchema.Throughout (TypeDef.KeepsInputs filterSchema) (.list (.named "ID")) := by
  intro name found path known
  have only : name = "ID" := by
    rcases Relation.ReflTransGen.cases_head path with same | ⟨_, ⟨input, other, -⟩, -⟩
    · exact same.symm
    · cases other
  subst only
  cases known
  refine ⟨fun given value solid read => ?_, fun given value solid read => ?_, nofun, nofun⟩
  · exact (ScalarType.builtins_nullFree .id (by simp [ScalarType.builtins])).value given value solid read
  · cases given <;> cases read <;> rfl

/-- A filter that is not acceptable, one that is, and a list of identities that is coerced twice. -/
theorem coerce_accepts_filters :
    filterSchema.coerce wrongFilter (.named "Filter") = .error ["In field \"colour\": Unknown field.",
      "In field \"ids\": In element #1: Expected type \"ID\", found true."] ∧
    ¬Acceptable filterSchema (.named "Filter") wrongFilter ∧
    (∃ path inner part problem, Place filterSchema (.named "Filter") wrongFilter path inner part ∧
      Coercion.Fault filterSchema inner part problem ∧
      tell path problem = "In field \"ids\": In element #1: Expected type \"ID\", found true.") ∧
    filterSchema.coerce rightFilter (.named "Filter") =
      .ok (.object [("ids", .list [.string "7"]), ("color", .int 1), ("limit", .int 10)]) ∧
    Admits filterSchema TypeDef.Reads (.named "Filter")
      (.object [("ids", .list [.string "7"]), ("color", .int 1), ("limit", .int 10)]) ∧
    filterSchema.coerce (.int 7) (.list (.named "ID")) = .ok (.list [.string "7"]) ∧
    filterSchema.coerce (.list [.string "7"]) (.list (.named "ID")) = .ok (.list [.string "7"]) := by
  have failed : filterSchema.coerce wrongFilter (.named "Filter") = .error
      ["In field \"colour\": Unknown field.",
        "In field \"ids\": In element #1: Expected type \"ID\", found true."] := rfl
  have red : filterSchema.coerce rightFilter (.named "Filter") =
      .ok (.object [("ids", .list [.string "7"]), ("color", .int 1), ("limit", .int 10)]) := rfl
  have seven : filterSchema.coerce (.int 7) (.list (.named "ID")) = .ok (.list [.string "7"]) := rfl
  obtain ⟨accepts, told, -⟩ := coerce_accepts filterSchema (.named "Filter") wrongFilter
  obtain ⟨-, -, gives⟩ := coerce_accepts filterSchema (.named "Filter") rightFilter
  obtain ⟨-, -, keeps⟩ := coerce_accepts filterSchema (.list (.named "ID")) (.int 7)
  refine ⟨failed, fun acceptable => ?_, ?_, red, ?_, seven, (keeps _ seven).2.2 filterSchema_keeps⟩
  · obtain ⟨value, read⟩ := accepts.2 acceptable
    rw [failed] at read
    cases read
  · obtain ⟨path, inner, part, problem, place, fault, same⟩ :=
      ((told _ failed).2.1 _).1 (List.mem_cons_of_mem _ List.mem_cons_self)
    exact ⟨path, inner, part, problem, place, fault, same.symm⟩
  · exact (gives _ red).2.1 _ (filterSchema_nullFree.throughout filterSchema_admitted.names
      filterSchema_admitted.defaults _)

end Filters

end GraphQL
