import GraphQL.Ast.Value
import GraphQL.Decimal.Reader
import GraphQL.Value.Basic

/-! Scalar types: how results are written out, and how input values and literals
are read. -/
namespace GraphQL

/-- The value of a literal without regard to a type. Literals with variables and
numbers out of range have none. -/
def Ast.Value.constant? : Ast.Value → Option GraphQL.Value
  | .var _ => none
  | .int text _ => (Decimal.int64? text).map GraphQL.Value.int
  | .float text _ => (Decimal.float? text.toList).map GraphQL.Value.float
  | .string value _ => some (.string value)
  | .boolean value _ => some (.boolean value)
  | .null _ => some .null
  | .enum name _ => some (.enum name)
  | .list values _ => (constants? values).map GraphQL.Value.list
  | .object fields _ => (constantFields? fields).map fun pairs => .object (Entries.ofPairs pairs)
where
  constants? : List Ast.Value → Option (List GraphQL.Value)
    | [] => some []
    | literal :: rest => do
        let value ← literal.constant?
        return value :: (← constants? rest)
  constantFields? : List Ast.ObjectField → Option (List (String × GraphQL.Value))
    | [] => some []
    | ⟨name, literal, _⟩ :: rest => do
        let value ← literal.constant?
        return (name.text, value) :: (← constantFields? rest)

structure ScalarType where
  name : String
  description : Option String := none
  /-- The response value of a result, or why there is none. -/
  serialize : Value → Except String Value := .ok
  /-- The value that an input value stands for. -/
  parseValue : Value → Option Value := some
  /-- The value that a literal stands for. -/
  parseLiteral : Ast.Value → Option Value := Ast.Value.constant?

end GraphQL
