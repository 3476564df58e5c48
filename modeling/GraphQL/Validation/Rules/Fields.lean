import GraphQL.Validation.Rule

/-! Rules about selected fields. -/
namespace GraphQL.Validation.Rule

/-- Fields have a selection of their own exactly if their type has one. -/
def scalarLeafs : Rule Finding :=
  ofCheck "ScalarLeafs" fun site =>
    match site.node, site.scope.type with
    | .field field, some type =>
        match (site.schema.named? type).map TypeDef.isLeaf, field.selectionSet with
        | some true, some selections =>
            .report [.violation (.selectionOnLeaf field.name.text type) [selections.span]]
        | some false, none =>
            .report [.violation (.missingSelection field.name.text type) [field.span]]
        | _, _ => .proceed
    | _, _ => .proceed

/-- How many of the object types implement each interface that has the field, in the order
in which the interfaces are met. -/
def interfaceUses (schema : Schema) (field : String) (objects : List ObjectType) : Entries Nat :=
  let interfaces := objects.flatMap fun object =>
    object.interfaces.filter fun name =>
      ((schema.type? name).bind fun type => type.field? field).isSome
  interfaces.foldl (fun uses name => Entries.put name ((uses.get? name).getD 0 + 1) uses) []

/-- The types that can stand for an abstract one and have a field: interfaces first, the one
with the most implementations leading, then objects. -/
def typesWithField (schema : Schema) (type : TypeDef) (field : String) : List String :=
  if type.isAbstract then
    let objects := (schema.possibleTypes type.name).filter fun object =>
      (object.fields.find? field).isSome
    let uses := (interfaceUses schema field objects).mergeSort fun a b => a.2 ≥ b.2
    uses.map Prod.fst ++ objects.map ObjectType.name
  else []

/-- Fields are defined on the type that they are selected from. -/
def fieldsOnCorrectType : Rule Finding :=
  ofCheck "FieldsOnCorrectType" fun site =>
    match site.node, site.scope.parent, site.scope.field with
    | .field field, some parent, none =>
        let name := field.name.text
        let types := typesWithField site.schema parent name
        let fields := Suggestion.closest name
          (parent.fields?.elim [] fun fields => fields.items.map Field.name)
        .report [.violation (.unknownField name parent.name types fields) [field.span]]
    | _, _, _ => .proceed

end GraphQL.Validation.Rule
