import GraphQL.Coercion.Input

/-! Values of literals. A literal has a value at a type, given the values of
variables, or it has none. -/
namespace GraphQL
namespace LiteralValue

/-- The value of a literal at each type. -/
abbrev Reading := TypeRef → Option Value

def isNull : Ast.Value → Bool
  | .null _ => true
  | _ => false

/-- A variable without a value counts as null. -/
def ofVariable (bindings : Entries Value) (name : String) : Reading := fun type =>
  let value := (bindings.get? name).getD .null
  if value.isNull && type.isNonNull then none else some value

/-- The value of a declared field: as written, else its default, else absent. -/
def ofField (fields : List (String × Reading)) (declared : InputValue) : Option (Option Value) :=
  match Layer.field? fields declared.name with
  | some reading => (reading declared.type).map some
  | none =>
      match declared.default with
      | some value => some (some value)
      | none => if declared.type.isNonNull then none else some none

/-- The entries of the declared fields, unless one has no value. -/
def ofDeclared (fields : List (String × Reading)) : List InputValue → Option (Entries Value)
  | [] => some []
  | declared :: rest => do
      let value ← ofField fields declared
      let entries ← ofDeclared fields rest
      return (value.toList.map fun value => (declared.name, value)) ++ entries

/-- The value of a literal, given the values of its parts. -/
def ofLayer (schema : Schema) (literal : Ast.Value) (layer : Layer Reading) : Reading
  | .nonNull type => if isNull literal then none else ofLayer schema literal layer type
  | .list item =>
      if isNull literal then some .null
      else
        match layer with
        | .list items => (items.mapM fun (reading : Reading) => reading item).map Value.list
        | _ => (ofLayer schema literal layer item).map fun single => .list [single]
  | .named name =>
      if isNull literal then some .null
      else
        match schema.type? name with
        | some (.scalar scalar) => scalar.parseLiteral literal
        | some (.enum enum) => enum.parseLiteral literal
        | some (.inputObject input) =>
            match layer with
            | .object fields =>
                if fields.all fun field => input.fields.contains field.1 then
                  (ofDeclared fields input.fields.items).map Value.object
                else none
            | _ => none
        | _ => none

mutual

def ofLiteral (schema : Schema) (bindings : Entries Value) : Ast.Value → Reading
  | .var of => ofVariable bindings of.name.text
  | .list literals span =>
      ofLayer schema (.list literals span) (.list (ofLiterals schema bindings literals))
  | .object fields span =>
      ofLayer schema (.object fields span) (.object (ofFields schema bindings fields))
  | literal => ofLayer schema literal .leaf

def ofLiterals (schema : Schema) (bindings : Entries Value) : List Ast.Value → List Reading
  | [] => []
  | literal :: rest => ofLiteral schema bindings literal :: ofLiterals schema bindings rest

def ofFields (schema : Schema) (bindings : Entries Value) :
    List Ast.ObjectField → List (String × Reading)
  | [] => []
  | ⟨name, literal, _⟩ :: rest =>
      (name.text, ofLiteral schema bindings literal) :: ofFields schema bindings rest

end
end LiteralValue

/-- The value that a literal stands for at a type. -/
def Schema.literalValue (schema : Schema) (bindings : Entries Value) (literal : Ast.Value)
    (type : TypeRef) : Option Value :=
  LiteralValue.ofLiteral schema bindings literal type

end GraphQL
