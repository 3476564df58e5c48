import GraphQL.Ast.TypeSystem
import GraphQL.Schema.Basic
import GraphQL.Schema.Introspection

/-! What selections start from and what they see: the root types, and the fields of a
type, among them those by which a schema describes itself. -/
namespace GraphQL.Schema

/-- The type that operations of a kind start from. -/
def rootType? (schema : Schema) : Ast.OperationType → Option ObjectType
  | .query => some schema.query
  | .mutation => schema.mutation
  | .subscription => schema.subscription

/-- The fields that types have without defining them. -/
def metaField? (schema : Schema) (parent : TypeDef) (name : String) : Option Field :=
  let isQuery := parent.name == schema.query.name
  if name == "__schema" && isQuery then some Introspection.schemaField
  else if name == "__type" && isQuery then some Introspection.typeField
  else if name == "__typename" && parent.isComposite then some Introspection.typenameField
  else none

/-- The definition of a selected field. -/
def field? (schema : Schema) (parent : TypeDef) (name : String) : Option Field :=
  (schema.metaField? parent name).or (parent.field? name)

def objectField? (schema : Schema) (parent : ObjectType) (name : String) : Option Field :=
  schema.field? (.object parent) name

end GraphQL.Schema
