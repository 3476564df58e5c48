import GraphQL.Ast.Document

/-! Nodes without the spans that they were read from. Two nodes that are alike up to locations are
equal without them. -/
namespace GraphQL.Ast

def Name.unlocated (name : Name) : Name := ⟨name.text, none⟩

def Variable.unlocated (of : Variable) : Variable := ⟨of.name.unlocated, none⟩

mutual

def Value.unlocated : Value → Value
  | .var of => .var of.unlocated
  | .int text _ => .int text none
  | .float text _ => .float text none
  | .string value _ => .string value none
  | .boolean value _ => .boolean value none
  | .null _ => .null none
  | .enum name _ => .enum name none
  | .list values _ => .list (unlocatedValues values) none
  | .object fields _ => .object (unlocatedFields fields) none

def unlocatedValues : List Value → List Value
  | [] => []
  | value :: rest => value.unlocated :: unlocatedValues rest

def ObjectField.unlocated : ObjectField → ObjectField
  | ⟨name, value, _⟩ => ⟨name.unlocated, value.unlocated, none⟩

def unlocatedFields : List ObjectField → List ObjectField
  | [] => []
  | field :: rest => field.unlocated :: unlocatedFields rest

end

@[simp] theorem unlocatedValues_eq (values : List Value) :
    unlocatedValues values = values.map Value.unlocated := by
  induction values with
  | nil => rfl
  | cons value rest ih => rw [unlocatedValues, ih, List.map_cons]

@[simp] theorem unlocatedFields_eq (fields : List ObjectField) :
    unlocatedFields fields = fields.map ObjectField.unlocated := by
  induction fields with
  | nil => rfl
  | cons field rest ih => rw [unlocatedFields, ih, List.map_cons]

def NamedType.unlocated (type : NamedType) : NamedType := ⟨type.name.unlocated, none⟩

def TypeAnnotation.unlocated : TypeAnnotation → TypeAnnotation
  | named type => .named type.unlocated
  | list item _ => .list item.unlocated none
  | nonNull type _ => .nonNull type.unlocated none

def Argument.unlocated (argument : Argument) : Argument :=
  ⟨argument.name.unlocated, argument.value.unlocated, none⟩

def Directive.unlocated (directive : Directive) : Directive :=
  ⟨directive.name.unlocated, directive.arguments.map Argument.unlocated, none⟩

def FragmentSpread.unlocated (spread : FragmentSpread) : FragmentSpread :=
  ⟨spread.name.unlocated, spread.directives.map Directive.unlocated, none⟩

mutual

def Selection.unlocated : Selection → Selection
  | .field field => .field field.unlocated
  | .spread spread => .spread spread.unlocated
  | .inline inline => .inline inline.unlocated

def Field.unlocated : Field → Field
  | ⟨nickname, name, arguments, directives, selections, _⟩ =>
      ⟨nickname.map Name.unlocated, name.unlocated, arguments.map Argument.unlocated,
        directives.map Directive.unlocated, unlocatedSet? selections, none⟩

def InlineFragment.unlocated : InlineFragment → InlineFragment
  | ⟨condition, directives, selections, _⟩ =>
      ⟨condition.map NamedType.unlocated, directives.map Directive.unlocated,
        selections.unlocated, none⟩

def SelectionSet.unlocated : SelectionSet → SelectionSet
  | ⟨selections, _⟩ => ⟨unlocatedSelections selections, none⟩

def unlocatedSet? : Option SelectionSet → Option SelectionSet
  | none => none
  | some selections => some selections.unlocated

def unlocatedSelections : List Selection → List Selection
  | [] => []
  | selection :: rest => selection.unlocated :: unlocatedSelections rest

end

@[simp] theorem unlocatedSet?_eq (selections : Option SelectionSet) :
    unlocatedSet? selections = selections.map SelectionSet.unlocated := by
  cases selections <;> rfl

@[simp] theorem unlocatedSelections_eq (selections : List Selection) :
    unlocatedSelections selections = selections.map Selection.unlocated := by
  induction selections with
  | nil => rfl
  | cons selection rest ih => rw [unlocatedSelections, ih, List.map_cons]

def VariableDefinition.unlocated (definition : VariableDefinition) : VariableDefinition :=
  ⟨definition.target.unlocated, definition.type.unlocated,
    definition.defaultValue.map Value.unlocated, none⟩

def OperationDefinition.unlocated (definition : OperationDefinition) : OperationDefinition :=
  ⟨definition.operation, definition.name.map Name.unlocated,
    definition.variableDefinitions.map VariableDefinition.unlocated,
    definition.directives.map Directive.unlocated, definition.selectionSet.unlocated, none⟩

def FragmentDefinition.unlocated (definition : FragmentDefinition) : FragmentDefinition :=
  ⟨definition.name.unlocated, definition.typeCondition.unlocated,
    definition.directives.map Directive.unlocated, definition.selectionSet.unlocated, none⟩

def OperationTypeDefinition.unlocated (definition : OperationTypeDefinition) :
    OperationTypeDefinition := ⟨definition.operation, definition.type.unlocated, none⟩

def SchemaDefinition.unlocated (definition : SchemaDefinition) : SchemaDefinition :=
  ⟨definition.directives.map Directive.unlocated,
    definition.operationTypes.map OperationTypeDefinition.unlocated, none⟩

def InputValueDefinition.unlocated (definition : InputValueDefinition) : InputValueDefinition :=
  ⟨definition.name.unlocated, definition.type.unlocated,
    definition.defaultValue.map Value.unlocated, definition.directives.map Directive.unlocated,
    none⟩

def FieldDefinition.unlocated (definition : FieldDefinition) : FieldDefinition :=
  ⟨definition.name.unlocated, definition.arguments.map InputValueDefinition.unlocated,
    definition.type.unlocated, definition.directives.map Directive.unlocated, none⟩

def ScalarTypeDefinition.unlocated (definition : ScalarTypeDefinition) : ScalarTypeDefinition :=
  ⟨definition.name.unlocated, definition.directives.map Directive.unlocated, none⟩

def ObjectTypeDefinition.unlocated (definition : ObjectTypeDefinition) : ObjectTypeDefinition :=
  ⟨definition.name.unlocated, definition.interfaces.map NamedType.unlocated,
    definition.directives.map Directive.unlocated, definition.fields.map FieldDefinition.unlocated,
    none⟩

def InterfaceTypeDefinition.unlocated (definition : InterfaceTypeDefinition) :
    InterfaceTypeDefinition :=
  ⟨definition.name.unlocated, definition.directives.map Directive.unlocated,
    definition.fields.map FieldDefinition.unlocated, none⟩

def UnionTypeDefinition.unlocated (definition : UnionTypeDefinition) : UnionTypeDefinition :=
  ⟨definition.name.unlocated, definition.directives.map Directive.unlocated,
    definition.types.map NamedType.unlocated, none⟩

def EnumValueDefinition.unlocated (definition : EnumValueDefinition) : EnumValueDefinition :=
  ⟨definition.name.unlocated, definition.directives.map Directive.unlocated, none⟩

def EnumTypeDefinition.unlocated (definition : EnumTypeDefinition) : EnumTypeDefinition :=
  ⟨definition.name.unlocated, definition.directives.map Directive.unlocated,
    definition.values.map EnumValueDefinition.unlocated, none⟩

def InputObjectTypeDefinition.unlocated (definition : InputObjectTypeDefinition) :
    InputObjectTypeDefinition :=
  ⟨definition.name.unlocated, definition.directives.map Directive.unlocated,
    definition.fields.map InputValueDefinition.unlocated, none⟩

def TypeDefinition.unlocated : TypeDefinition → TypeDefinition
  | scalar d => .scalar d.unlocated
  | object d => .object d.unlocated
  | interface d => .interface d.unlocated
  | union d => .union d.unlocated
  | enum d => .enum d.unlocated
  | inputObject d => .inputObject d.unlocated

def TypeExtension.unlocated (extension : TypeExtension) : TypeExtension :=
  ⟨extension.definition.unlocated, none⟩

def DirectiveDefinition.unlocated (definition : DirectiveDefinition) : DirectiveDefinition :=
  ⟨definition.name.unlocated, definition.arguments.map InputValueDefinition.unlocated,
    definition.locations.map Name.unlocated, none⟩

def TypeSystemDefinition.unlocated : TypeSystemDefinition → TypeSystemDefinition
  | schema d => .schema d.unlocated
  | type d => .type d.unlocated
  | extension d => .extension d.unlocated
  | directive d => .directive d.unlocated

def Definition.unlocated : Definition → Definition
  | operation d => .operation d.unlocated
  | fragment d => .fragment d.unlocated
  | typeSystem d => .typeSystem d.unlocated

def Document.unlocated (document : Document) : Document :=
  ⟨document.definitions.map Definition.unlocated, none⟩

end GraphQL.Ast
