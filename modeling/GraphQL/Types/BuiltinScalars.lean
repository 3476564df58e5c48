import GraphQL.Types.Scalar
import GraphQL.Decimal.Style
import GraphQL.Value.Json

/-! The five built-in scalars: Int, Float, String, Boolean and ID. -/
namespace GraphQL.ScalarType

/-- An integer of 32 bits. -/
def int32? (i : Int) : Option Value := if Decimal.fitsBits 32 i then some (.int i) else none

/-- A whole number of 32 bits. -/
def wholeInt32? (x : Float) : Option Value := Decimal.wholeNumber? x >>= int32?

def isWhole (x : Float) : Bool := (Decimal.wholeNumber? x).isSome

/-- A number written in a text, blanks around it aside. -/
def numberIn? (s : String) : Option Float := Decimal.float? (Decimal.trim s.toList)

def serializeInt (value : Value) : Except String Value :=
  let outOfRange := "Int cannot represent non 32-bit signed integer value: " ++ value.json
  let nonInteger := "Int cannot represent non-integer value: " ++ value.json
  let whole (x : Float) : Except String Value :=
    if isWhole x then (wholeInt32? x).elim (.error outOfRange) .ok else .error nonInteger
  match value with
  | .int i => (int32? i).elim (.error outOfRange) .ok
  | .float x => whole x
  | .boolean b => .ok (.int (if b then 1 else 0))
  | .string s => (numberIn? s).elim (.error nonInteger) whole
  | .null => .ok .null
  | _ => .error nonInteger

def serializeFloat (value : Value) : Except String Value :=
  let nonNumeric := "Float cannot represent non numeric value: " ++ value.json
  let finite (x : Float) : Except String Value :=
    if x.isFinite then .ok (.float x) else .error nonNumeric
  match value with
  | .int i => finite (Float.ofInt i)
  | .float x => finite x
  | .boolean b => .ok (.float (if b then 1.0 else 0.0))
  | .string s => (numberIn? s).elim (.error nonNumeric) finite
  | .null => .ok .null
  | _ => .error nonNumeric

def serializeString (value : Value) : Except String Value :=
  match value with
  | .string s | .enum s => .ok (.string s)
  | .int i => .ok (.string (toString i))
  | .float x => .ok (.string (Decimal.plainText x))
  | .boolean b => .ok (.string (Json.boolean b))
  | .null => .ok .null
  | _ => .error ("String cannot represent value: " ++ value.json)

def serializeBoolean (value : Value) : Except String Value :=
  match value with
  | .boolean b => .ok (.boolean b)
  | .int i => .ok (.boolean (i != 0))
  | .float x => .ok (.boolean (x != 0.0))
  | .null => .ok .null
  | _ => .error ("Boolean cannot represent a non boolean value: " ++ value.json)

def serializeId (value : Value) : Except String Value :=
  match value with
  | .string s => .ok (.string s)
  | .int i => .ok (.string (toString i))
  | .null => .ok .null
  | _ => .error ("ID cannot represent value: " ++ value.json)

def int : ScalarType where
  name := "Int"
  description := some
    "The `Int` scalar type represents non-fractional signed whole numeric values. Int can represent values between -(2^31) and 2^31 - 1."
  serialize := serializeInt
  parseValue
    | .int i => int32? i
    | .float x => wholeInt32? x
    | _ => none
  parseLiteral
    | .int text _ => Decimal.int64? text >>= int32?
    | _ => none

def float : ScalarType where
  name := "Float"
  description := some
    "The `Float` scalar type represents signed double-precision fractional values as specified by [IEEE 754](http://en.wikipedia.org/wiki/IEEE_floating_point)."
  serialize := serializeFloat
  parseValue
    | .int i => some (.float (Float.ofInt i))
    | .float x => if x.isFinite then some (.float x) else none
    | _ => none
  parseLiteral
    | .int text _ | .float text _ =>
        ((Decimal.float? text.toList).filter Float.isFinite).map Value.float
    | _ => none

def string : ScalarType where
  name := "String"
  description := some
    "The `String` scalar type represents textual data, represented as UTF-8 character sequences. The String type is most often used by GraphQL to represent free-form human-readable text."
  serialize := serializeString
  parseValue
    | .string s => some (.string s)
    | _ => none
  parseLiteral
    | .string s _ => some (.string s)
    | _ => none

def boolean : ScalarType where
  name := "Boolean"
  description := some "The `Boolean` scalar type represents `true` or `false`."
  serialize := serializeBoolean
  parseValue
    | .boolean b => some (.boolean b)
    | _ => none
  parseLiteral
    | .boolean b _ => some (.boolean b)
    | _ => none

def id : ScalarType where
  name := "ID"
  description := some
    "The `ID` scalar type represents a unique identifier, often used to refetch an object or as key for a cache. The ID type appears in a JSON response as a String; however, it is not intended to be human-readable. When expected as an input type, any string (such as `\"4\"`) or integer (such as `4`) input value will be accepted as an ID."
  serialize := serializeId
  parseValue
    | .string s => some (.string s)
    | .int i => some (.string (toString i))
    | _ => none
  parseLiteral
    | .string text _ | .int text _ => some (.string text)
    | _ => none

/-- The scalars that every schema knows. -/
def builtins : List ScalarType := [int, float, string, boolean, id]

end GraphQL.ScalarType
