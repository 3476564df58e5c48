import GraphQL.Coercion.Input
import GraphQL.Decimal.Style

/-! Literals that stand for values, as descriptions of default values show them. -/
namespace GraphQL
namespace ToLiteral

/-- The literal of a value at each type. -/
abbrev Writing := TypeRef → Option Ast.Value

mutual

/-- The literal of a scalar's response value. Digits alone are an Int literal where
`isId` holds. -/
def ofSerialized (isId : Bool) : Value → Ast.Value
  | .null => .null none
  | .boolean b => .boolean b none
  | .int i => .int (toString i) none
  | .float x =>
      if (Decimal.wholeNumber? x).isSome then .int (Decimal.plainText x) none
      else .float (Decimal.plainText x) none
  | .string s =>
      if isId && !s.isEmpty && s.toList.all Decimal.isDigit then .int s none else .string s none
  | .enum s => .string s none
  | .list values => .list (ofSerializedList isId values) none
  | .object entries => .object (ofSerializedEntries isId entries) none

def ofSerializedList (isId : Bool) : List Value → List Ast.Value
  | [] => []
  | value :: rest => ofSerialized isId value :: ofSerializedList isId rest

def ofSerializedEntries (isId : Bool) : List (String × Value) → List Ast.ObjectField
  | [] => []
  | (key, value) :: rest =>
      ⟨⟨key, none⟩, ofSerialized isId value, none⟩ :: ofSerializedEntries isId rest

end

/-- The literals of the fields that have one. -/
def ofFields (fields : List (String × Writing)) (type : InputObjectType) : List Ast.ObjectField :=
  type.fields.items.filterMap fun declared => do
    let writing ← Layer.field? fields declared.name
    let literal ← writing declared.type
    return ⟨⟨declared.name, none⟩, literal, none⟩

/-- The literal of a value, given the literals of its parts. -/
def ofLayer (schema : Schema) (value : Value) (layer : Layer Writing) : Writing
  | .nonNull type => if value.isNull then none else ofLayer schema value layer type
  | .list item =>
      if value.isNull then some (.null none)
      else
        match layer with
        | .list items =>
            (items.mapM fun (writing : Writing) => writing item).map fun literals => .list literals none
        | _ => ofLayer schema value layer item
  | .named name =>
      if value.isNull then some (.null none)
      else
        match schema.type? name with
        | some (.inputObject input) =>
            match layer with
            | .object fields => some (.object (ofFields fields input) none)
            | _ => none
        | some (.enum enum) =>
            match enum.serialize value with
            | some (.enum name) => some (.enum name none)
            | _ => none
        | some (.scalar scalar) =>
            (scalar.serialize value).toOption.map (ofSerialized (name == "ID"))
        | _ => none

mutual

def ofValue (schema : Schema) : Value → Writing
  | .list values => ofLayer schema (.list values) (.list (ofValues schema values))
  | .object entries => ofLayer schema (.object entries) (.object (ofEntries schema entries))
  | value => ofLayer schema value .leaf

def ofValues (schema : Schema) : List Value → List Writing
  | [] => []
  | value :: rest => ofValue schema value :: ofValues schema rest

def ofEntries (schema : Schema) : List (String × Value) → List (String × Writing)
  | [] => []
  | (key, value) :: rest => (key, ofValue schema value) :: ofEntries schema rest

end

section Layers
variable {schema : Schema}

theorem ofLayer_null (layer : Layer Writing) (type : TypeRef) : ofLayer schema .null layer type =
    if type.isNonNull then none else some (.null none) := by
  cases type <;> rw [ofLayer.eq_def] <;> rfl

theorem ofLayer_nonNull {value : Value} (solid : value.isNull = false) (layer : Layer Writing)
    (type : TypeRef) : ofLayer schema value layer (.nonNull type) = ofLayer schema value layer type := by
  rw [ofLayer, if_neg (Bool.eq_false_iff.1 solid)]

end Layers
end ToLiteral

/-- A literal that stands for a value at a type. -/
def Schema.literalOf (schema : Schema) (value : Value) (type : TypeRef) : Option Ast.Value :=
  ToLiteral.ofValue schema value type

end GraphQL
