import GraphQL.Ast.Document
import GraphQL.Language.Token

/-! The grammar of documents. A phrase is a condition on the tokens it is made of, and for each
sort of node there is the phrase that it is read from. A node spans its tokens; `place` tells the
span between two offsets. `depth` is how many more levels of nesting are allowed. -/
namespace GraphQL.Grammar
open Ast

variable {α : Type}

/-- A condition on the tokens that a phrase is made of. -/
abbrev Phrase := List Token → Prop

/-- The phrases one after the other. -/
def Parts : List Phrase → Phrase
  | [], tokens => tokens = []
  | part :: parts, tokens => ∃ first rest, tokens = first ++ rest ∧ part first ∧ Parts parts rest

/-- A single token. -/
def lexeme (expected : Lexeme) : Phrase :=
  fun tokens => ∃ token, tokens = [token] ∧ token.lexeme = expected

def mark (expected : Punctuator) : Phrase := lexeme (.punctuator expected)

def word (text : String) : Phrase := lexeme (.name text)

/-- A phrase with a side condition. -/
def given (condition : Prop) (phrase : Phrase) : Phrase := fun tokens => condition ∧ phrase tokens

/-- What no tokens are. -/
def never : Phrase := fun _ => False

/-- A phrase that may be left out. -/
def perhaps (phrase : Phrase) : Phrase := fun tokens => tokens = [] ∨ phrase tokens

def optional (phrase : α → Phrase) : Option α → Phrase
  | none => Parts []
  | some value => phrase value

def each (item : α → Phrase) (values : List α) : Phrase := Parts (values.map item)

/-- Any number of items between two marks. -/
def any (opening : Punctuator) (item : α → Phrase) (closing : Punctuator) (values : List α) :
    Phrase := Parts (mark opening :: (values.map item ++ [mark closing]))

/-- One or more items between two marks. -/
def many (opening : Punctuator) (item : α → Phrase) (closing : Punctuator) (values : List α) :
    Phrase := given (values ≠ []) (any opening item closing values)

/-- `many`, or nothing where there are no items. -/
def optionalMany (opening : Punctuator) (item : α → Phrase) (closing : Punctuator) :
    List α → Phrase
  | [] => Parts []
  | values => many opening item closing values

/-- One or more items separated by bars, a leading bar allowed. -/
def barred (item : α → Phrase) : List α → Phrase
  | [] => never
  | first :: rest =>
      Parts [perhaps (mark .pipe), item first,
        each (fun value => Parts [mark .pipe, item value]) rest]

/-- Where tokens end that follow an offset. -/
def ending (offset : Nat) (tokens : List Token) : Nat :=
  tokens.foldl (fun _ token => token.stop) offset

/-- How deeply selection sets, list and object literals and list types may nest. -/
def deepest : Nat := 128

section Nodes
variable (place : Nat → Nat → Option Span) (isConst : Bool)

/-- The span from the first of the tokens to the last. -/
def extent : List Token → Option Span
  | [] => none
  | first :: rest => place first.start (ending first.stop rest)

/-- A node that spans its parts. -/
def node (span : Option Span) (parts : List Phrase) : Phrase :=
  fun tokens => span = extent place tokens ∧ Parts parts tokens

def name : Name → Phrase
  | ⟨text, span⟩ => node place span [word text]

def variableName : Variable → Phrase
  | ⟨label, span⟩ => node place span [mark .dollar, name place label]

/-! Value literals, arguments, directives and types -/

def objectField (value : Value → Phrase) : ObjectField → Phrase
  | ⟨label, of, span⟩ => node place span [name place label, mark .colon, value of]

/-- A value literal; a constant one holds no variables. -/
def value : Nat → Value → Phrase
  | _, .var of => given (isConst = false) (variableName place of)
  | _, .int text span => node place span [lexeme (.int text)]
  | _, .float text span => node place span [lexeme (.float text)]
  | _, .string text span => node place span [lexeme (.string text)]
  | _, .boolean true span => node place span [word "true"]
  | _, .boolean false span => node place span [word "false"]
  | _, .null span => node place span [word "null"]
  | _, .enum text span =>
      given (text ∉ ["true", "false", "null"]) (node place span [word text])
  | 0, .list _ _ | 0, .object _ _ => never
  | depth + 1, .list values span => node place span [any .bracketL (value depth) .bracketR values]
  | depth + 1, .object fields span =>
      given (fields.map fun field => field.name.text).Nodup
        (node place span [any .braceL (objectField place (value depth)) .braceR fields])

def argument (depth : Nat) : Argument → Phrase
  | ⟨label, of, span⟩ =>
      node place span [name place label, mark .colon, value place isConst depth of]

def arguments (depth : Nat) : List Argument → Phrase :=
  optionalMany .parenL (argument place isConst depth) .parenR

def directive (depth : Nat) : Directive → Phrase
  | ⟨label, of, span⟩ =>
      node place span [mark .atSign, name place label, arguments place isConst depth of]

def directives (depth : Nat) : List Directive → Phrase := each (directive place isConst depth)

def namedType : NamedType → Phrase
  | ⟨label, span⟩ => node place span [name place label]

/-- A type, in which no bang follows a bang. -/
def anyType : Nat → TypeAnnotation → Phrase
  | _, .named type => namedType place type
  | 0, .list _ _ => never
  | depth + 1, .list item span =>
      node place span [mark .bracketL, anyType depth item, mark .bracketR]
  | depth, .nonNull type span =>
      given (∀ inner at', type ≠ .nonNull inner at')
        (node place span [anyType depth type, mark .bang])

/-! Selections, operations and fragments -/

/-- The name of a field, with the name to answer under before it if there is one. -/
def fieldLabel : Option Name × Name → Phrase
  | (none, label) => name place label
  | (some nickname, label) => Parts [name place nickname, mark .colon, name place label]

def field (selectionSet : SelectionSet → Phrase) (depth : Nat) : Field → Phrase
  | ⟨nickname, label, with', directed, selections, span⟩ =>
      node place span [fieldLabel place (nickname, label), arguments place false depth with',
        directives place false depth directed, optional selectionSet selections]

def typeCondition : Option NamedType → Phrase :=
  optional fun type => Parts [word "on", namedType place type]

def fragmentName (label : Name) : Phrase := given (label.text ≠ "on") (name place label)

def selection (selectionSet : SelectionSet → Phrase) (depth : Nat) : Selection → Phrase
  | .field of => field place selectionSet depth of
  | .spread ⟨label, directed, span⟩ =>
      node place span [mark .spread, fragmentName place label,
        directives place false depth directed]
  | .inline ⟨condition, directed, selections, span⟩ =>
      node place span [mark .spread, typeCondition place condition,
        directives place false depth directed, selectionSet selections]

def selectionSet : Nat → SelectionSet → Phrase
  | 0, _ => never
  | depth + 1, ⟨selections, span⟩ =>
      node place span [many .braceL (selection place (selectionSet depth) depth) .braceR selections]

def operationType (operation : OperationType) : Phrase := word operation.text

def defaultValue : Option Value → Phrase :=
  optional fun of => Parts [mark .equals, value place true deepest of]

def variableDefinition : VariableDefinition → Phrase
  | ⟨target, type, default, span⟩ =>
      node place span [variableName place target, mark .colon, anyType place deepest type,
        defaultValue place default]

/-- An operation; a query may be written as its selections alone. -/
def operationDefinition : OperationDefinition → Phrase
  | ⟨operation, label, definitions, directed, selections, span⟩ => fun tokens =>
      given (operation = .query ∧ label = none ∧ definitions = [] ∧ directed = [])
        (node place span [selectionSet place deepest selections]) tokens ∨
      node place span [operationType operation, optional (name place) label,
        optionalMany .parenL (variableDefinition place) .parenR definitions,
        directives place false deepest directed, selectionSet place deepest selections] tokens

def fragmentDefinition : FragmentDefinition → Phrase
  | ⟨label, condition, directed, selections, span⟩ =>
      node place span [word "fragment", fragmentName place label, word "on",
        namedType place condition, directives place false deepest directed,
        selectionSet place deepest selections]

/-! Definitions of the type system -/

def constDirectives : List Directive → Phrase := directives place true deepest

def operationTypeDefinition : OperationTypeDefinition → Phrase
  | ⟨operation, type, span⟩ =>
      node place span [operationType operation, mark .colon, namedType place type]

def schemaDefinition : SchemaDefinition → Phrase
  | ⟨directed, operationTypes, span⟩ =>
      node place span [word "schema", constDirectives place directed,
        many .braceL (operationTypeDefinition place) .braceR operationTypes]

def inputValueDefinition : InputValueDefinition → Phrase
  | ⟨label, type, default, directed, span⟩ =>
      node place span [name place label, mark .colon, anyType place deepest type,
        defaultValue place default, constDirectives place directed]

def argumentDefinitions : List InputValueDefinition → Phrase :=
  optionalMany .parenL (inputValueDefinition place) .parenR

def fieldDefinition : FieldDefinition → Phrase
  | ⟨label, arguments, type, directed, span⟩ =>
      node place span [name place label, argumentDefinitions place arguments, mark .colon,
        anyType place deepest type, constDirectives place directed]

def fieldDefinitions : List FieldDefinition → Phrase :=
  any .braceL (fieldDefinition place) .braceR

def scalarTypeDefinition : ScalarTypeDefinition → Phrase
  | ⟨label, directed, span⟩ =>
      node place span [word "scalar", name place label, constDirectives place directed]

def implementedInterfaces : List NamedType → Phrase
  | [] => Parts []
  | types => Parts [word "implements", each (namedType place) types]

def objectTypeDefinition : ObjectTypeDefinition → Phrase
  | ⟨label, interfaces, directed, fields, span⟩ =>
      node place span [word "type", name place label, implementedInterfaces place interfaces,
        constDirectives place directed, fieldDefinitions place fields]

def interfaceTypeDefinition : InterfaceTypeDefinition → Phrase
  | ⟨label, directed, fields, span⟩ =>
      node place span [word "interface", name place label, constDirectives place directed,
        fieldDefinitions place fields]

def unionTypeDefinition : UnionTypeDefinition → Phrase
  | ⟨label, directed, types, span⟩ =>
      node place span [word "union", name place label, constDirectives place directed, mark .equals,
        barred (namedType place) types]

def enumValueDefinition : EnumValueDefinition → Phrase
  | ⟨label, directed, span⟩ => node place span [name place label, constDirectives place directed]

def enumTypeDefinition : EnumTypeDefinition → Phrase
  | ⟨label, directed, values, span⟩ =>
      node place span [word "enum", name place label, constDirectives place directed,
        many .braceL (enumValueDefinition place) .braceR values]

def inputObjectTypeDefinition : InputObjectTypeDefinition → Phrase
  | ⟨label, directed, fields, span⟩ =>
      node place span [word "input", name place label, constDirectives place directed,
        any .braceL (inputValueDefinition place) .braceR fields]

def typeExtension : TypeExtension → Phrase
  | ⟨definition, span⟩ => node place span [word "extend", objectTypeDefinition place definition]

def directiveDefinition : DirectiveDefinition → Phrase
  | ⟨label, arguments, locations, span⟩ =>
      node place span [word "directive", mark .atSign, name place label,
        argumentDefinitions place arguments, word "on", barred (name place) locations]

def definition : Definition → Phrase
  | .operation of => operationDefinition place of
  | .fragment of => fragmentDefinition place of
  | .typeSystem (.schema of) => schemaDefinition place of
  | .typeSystem (.type (.scalar of)) => scalarTypeDefinition place of
  | .typeSystem (.type (.object of)) => objectTypeDefinition place of
  | .typeSystem (.type (.interface of)) => interfaceTypeDefinition place of
  | .typeSystem (.type (.union of)) => unionTypeDefinition place of
  | .typeSystem (.type (.enum of)) => enumTypeDefinition place of
  | .typeSystem (.type (.inputObject of)) => inputObjectTypeDefinition place of
  | .typeSystem (.extension of) => typeExtension place of
  | .typeSystem (.directive of) => directiveDefinition place of

/-- One or more definitions up to the end of the text. -/
def document : Document → Phrase
  | ⟨definitions, span⟩ =>
      given (definitions ≠ [])
        (node place span [each (definition place) definitions, lexeme .finish])

end Nodes
end GraphQL.Grammar
