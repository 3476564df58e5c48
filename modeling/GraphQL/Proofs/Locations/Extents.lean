import GraphQL.Proofs.Locations.Parts

/-! The tokens that parts are read from. A part spans its own tokens, and its parts are read from
some of these, one behind the other. -/
namespace GraphQL.Spanned
open Ast
open Grammar (Phrase Parts Begins extent deepest mark word each any many optional)

variable {α : Type} (place : Nat → Nat → Option Span)

/-- A phrase that stands at any depth, as a constant or not. -/
def nested (phrase : Bool → Nat → Phrase) : Phrase :=
  fun tokens => ∃ isConst, ∃ depth ≤ deepest, phrase isConst depth tokens

/-- The phrase that a part is read from. -/
def Read : Spanned → Phrase
  | name of => Grammar.name place of
  | rootOperation of => Grammar.operationTypeDefinition place of
  | input of => Grammar.inputValueDefinition place of
  | fieldDefinition of => Grammar.fieldDefinition place of
  | enumValue of => Grammar.enumValueDefinition place of
  | node (.document of) => Grammar.document place of
  | node (.operation of) => Grammar.operationDefinition place of
  | node (.variableDefinition of) => Grammar.variableDefinition place of
  | node (.var of) => Grammar.variableName place of
  | node (.selectionSet of) => nested fun _ depth => Grammar.selectionSet place depth of
  | node (.field of) => nested fun _ depth =>
      Grammar.selection place (Grammar.selectionSet place depth) depth (.field of)
  | node (.argument of) => nested fun isConst depth => Grammar.argument place isConst depth of
  | node (.spread of) => nested fun _ depth =>
      Grammar.selection place (Grammar.selectionSet place depth) depth (.spread of)
  | node (.inline of) => nested fun _ depth =>
      Grammar.selection place (Grammar.selectionSet place depth) depth (.inline of)
  | node (.fragment of) => Grammar.fragmentDefinition place of
  | node (.value of) => nested fun isConst depth => Grammar.value place isConst depth of
  | node (.objectField of) => nested fun isConst depth =>
      Grammar.objectField place (Grammar.value place isConst depth) of
  | node (.directive of) => nested fun isConst depth => Grammar.directive place isConst depth of
  | node (.namedType of) => Grammar.namedType place of
  | node (.listType item span) => nested fun _ depth =>
      Grammar.anyType place depth (.list item span)
  | node (.nonNullType of span) => nested fun _ depth =>
      Grammar.anyType place depth (.nonNull of span)
  | node (.typeSystem of) => Grammar.definition place (.typeSystem of)

/-- The parts are read from some of the tokens, one behind the other. -/
inductive Among : List Spanned → List Token → Prop
  | done (tokens : List Token) : Among [] tokens
  | pass {parts : List Spanned} {tokens : List Token} (token : Token) :
      Among parts tokens → Among parts (token :: tokens)
  | take {part : Spanned} {parts : List Spanned} {first rest : List Token} :
      part.Read place first → Among parts rest → Among (part :: parts) (first ++ rest)

/-- Wherever the phrase stands, the parts are read from some of its tokens. -/
def Covers (phrase : Phrase) (parts : List Spanned) : Prop :=
  ∀ tokens, phrase tokens → Among place parts tokens

variable {place} {parts more : List Spanned} {part : Spanned} {phrase : Phrase} {rest : List Phrase}
  {tokens : List Token} {isConst : Bool} {depth : Nat}

section Combinators

theorem Among.behind (first : List Token) (among : Among place parts tokens) :
    Among place parts (first ++ tokens) := by
  induction first with
  | nil => exact among
  | cons token first ih => exact .pass token ih

theorem Among.append {second : List Token} (among : Among place parts tokens)
    (others : Among place more second) : Among place (parts ++ more) (tokens ++ second) := by
  induction among with
  | done tokens => exact others.behind tokens
  | pass token _ ih => exact .pass token ih
  | take read _ ih =>
    rw [List.append_assoc]
    exact .take read ih

theorem Among.mem (among : Among place parts tokens) (member : part ∈ parts) :
    ∃ own, own <:+: tokens ∧ part.Read place own := by
  induction among with
  | done tokens => cases member
  | pass token _ ih =>
    obtain ⟨own, inside, read⟩ := ih member
    exact ⟨own, List.infix_cons inside, read⟩
  | @take first parts tokens rest read _ ih =>
    rcases List.mem_cons.mp member with rfl | member
    · exact ⟨tokens, (List.prefix_append tokens rest).isInfix, read⟩
    · obtain ⟨own, inside, here⟩ := ih member
      exact ⟨own, inside.trans (List.suffix_append tokens rest).isInfix, here⟩

theorem Covers.none : Covers place phrase [] := fun tokens _ => .done tokens

theorem Covers.never : Covers place Grammar.never parts := fun _ => False.elim

theorem Covers.single (read : ∀ tokens, phrase tokens → part.Read place tokens) :
    Covers place phrase [part] := fun tokens holds => by
  have among : Among place [part] (tokens ++ []) := .take (read tokens holds) (.done [])
  rwa [List.append_nil] at among

theorem Covers.skip (covers : Covers place (Parts rest) parts) :
    Covers place (Parts (phrase :: rest)) parts := by
  rintro _ ⟨first, others, rfl, -, holds⟩
  exact (covers others holds).behind first

theorem Covers.one (read : ∀ tokens, phrase tokens → part.Read place tokens)
    (covers : Covers place (Parts rest) parts) :
    Covers place (Parts (phrase :: rest)) (part :: parts) := by
  rintro _ ⟨first, others, rfl, here, holds⟩
  exact .take (read first here) (covers others holds)

theorem Covers.then (first : Covers place phrase parts) (covers : Covers place (Parts rest) more) :
    Covers place (Parts (phrase :: rest)) (parts ++ more) := by
  rintro _ ⟨front, others, rfl, here, holds⟩
  exact (first front here).append (covers others holds)

/-- Only the first phrase has parts to cover. -/
theorem Covers.front (covers : Covers place phrase parts) :
    Covers place (Parts (phrase :: rest)) parts := by
  have whole : Covers place (Parts (phrase :: rest)) (parts ++ []) := covers.then .none
  rwa [List.append_nil] at whole

theorem Covers.node {span : Option Span} (covers : Covers place (Parts rest) parts) :
    Covers place (Grammar.node place span rest) parts := fun tokens holds => covers tokens holds.2

theorem Covers.given {condition : Prop} (covers : Covers place phrase parts) :
    Covers place (Grammar.given condition phrase) parts := fun tokens holds => covers tokens holds.2

variable {item : α → Phrase} {of : α → Spanned}

theorem Covers.optional (covers : ∀ a, Covers place (item a) [of a]) (value : Option α) :
    Covers place (optional item value) (value.toList.map of) := by
  cases value with
  | none => exact .none
  | some a => exact covers a

theorem Covers.items (covers : ∀ a, Covers place (item a) [of a]) (values : List α) :
    Covers place (Parts (values.map item ++ rest)) (values.map of) := by
  induction values with
  | nil => exact .none
  | cons a values ih => exact (covers a).then ih

theorem Covers.each (covers : ∀ a, Covers place (item a) [of a]) (values : List α) :
    Covers place (each item values) (values.map of) := by
  have items : Covers place (Parts (values.map item ++ [])) (values.map of) :=
    .items covers values
  rwa [List.append_nil] at items

theorem Covers.any {opening closing : Punctuator} (covers : ∀ a, Covers place (item a) [of a])
    (values : List α) : Covers place (any opening item closing values) (values.map of) :=
  .skip (.items covers values)

theorem Covers.many {opening closing : Punctuator} (covers : ∀ a, Covers place (item a) [of a])
    (values : List α) : Covers place (many opening item closing values) (values.map of) :=
  .given (.any covers values)

theorem Covers.optionalMany {opening closing : Punctuator}
    (covers : ∀ a, Covers place (item a) [of a]) (values : List α) :
    Covers place (Grammar.optionalMany opening item closing values) (values.map of) := by
  cases values with
  | nil => exact .none
  | cons a values => exact .many covers (a :: values)

theorem Covers.barred (covers : ∀ a, Covers place (item a) [of a]) (values : List α) :
    Covers place (Grammar.barred item values) (values.map of) := by
  cases values with
  | nil => exact .never
  | cons a values =>
    exact .skip ((covers a).then (.front (.each (fun a => .skip (covers a).front) values)))

end Combinators

/-! Each part covers itself -/

theorem name_covers (of : Name) : Covers place (Grammar.name place of) [name of] :=
  .single fun _ holds => holds

theorem namedType_covers (of : NamedType) :
    Covers place (Grammar.namedType place of) [node (.namedType of)] := .single fun _ holds => holds

theorem rootOperation_covers (of : OperationTypeDefinition) :
    Covers place (Grammar.operationTypeDefinition place of) [rootOperation of] :=
  .single fun _ holds => holds

theorem input_covers (of : InputValueDefinition) :
    Covers place (Grammar.inputValueDefinition place of) [input of] := .single fun _ holds => holds

theorem fieldDefinition_covers (of : FieldDefinition) :
    Covers place (Grammar.fieldDefinition place of) [fieldDefinition of] :=
  .single fun _ holds => holds

theorem enumValue_covers (of : EnumValueDefinition) :
    Covers place (Grammar.enumValueDefinition place of) [enumValue of] :=
  .single fun _ holds => holds

theorem variable_covers (of : Variable) :
    Covers place (Grammar.variableName place of) [node (.var of)] := .single fun _ holds => holds

theorem variableDefinition_covers (of : VariableDefinition) :
    Covers place (Grammar.variableDefinition place of) [node (.variableDefinition of)] :=
  .single fun _ holds => holds

theorem definition_covers (of : Definition) :
    Covers place (Grammar.definition place of) [definition of] :=
  .single fun _ holds => by cases of <;> exact holds

section Nested
variable (shallow : depth ≤ deepest)
include shallow

theorem value_covers (of : Value) :
    Covers place (Grammar.value place isConst depth of) [value of] :=
  .single fun _ holds => ⟨isConst, depth, shallow, holds⟩

theorem objectField_covers (of : ObjectField) :
    Covers place (Grammar.objectField place (Grammar.value place isConst depth) of)
      [node (.objectField of)] := .single fun _ holds => ⟨isConst, depth, shallow, holds⟩

theorem argument_covers (of : Argument) :
    Covers place (Grammar.argument place isConst depth of) [node (.argument of)] :=
  .single fun _ holds => ⟨isConst, depth, shallow, holds⟩

theorem directive_covers (of : Directive) :
    Covers place (Grammar.directive place isConst depth of) [directive of] :=
  .single fun _ holds => ⟨isConst, depth, shallow, holds⟩

theorem type_covers (of : TypeAnnotation) :
    Covers place (Grammar.anyType place depth of) [type of] := by
  cases of with
  | named of =>
    rw [Grammar.anyType]
    exact namedType_covers of
  | list item span => exact .single fun _ holds => ⟨false, depth, shallow, holds⟩
  | nonNull of span => exact .single fun _ holds => ⟨false, depth, shallow, holds⟩

theorem selection_covers (of : Selection) :
    Covers place (Grammar.selection place (Grammar.selectionSet place depth) depth of)
      [selection of] := by
  cases of <;> exact .single fun _ holds => ⟨false, depth, shallow, holds⟩

theorem set_covers (of : SelectionSet) :
    Covers place (Grammar.selectionSet place depth of) [node (.selectionSet of)] :=
  .single fun _ holds => ⟨false, depth, shallow, holds⟩

theorem arguments_covers (of : List Argument) : Covers place
    (Grammar.arguments place isConst depth of) (of.map fun of => node (.argument of)) :=
  .optionalMany (argument_covers shallow) of

theorem directives_covers (of : List Directive) :
    Covers place (Grammar.directives place isConst depth of) (of.map directive) :=
  .each (directive_covers shallow) of

end Nested

theorem constDirectives_covers (of : List Directive) :
    Covers place (Grammar.constDirectives place of) (of.map directive) :=
  directives_covers (Nat.le_refl deepest) of

theorem inputs_covers (of : List InputValueDefinition) :
    Covers place (Grammar.argumentDefinitions place of) (of.map input) :=
  .optionalMany input_covers of

theorem fields_covers (of : List FieldDefinition) :
    Covers place (Grammar.fieldDefinitions place of) (of.map fieldDefinition) :=
  .any fieldDefinition_covers of

theorem default_covers (of : Option Value) :
    Covers place (Grammar.defaultValue place of) (of.toList.map value) :=
  .optional (fun of => .skip (.front (value_covers (Nat.le_refl deepest) of))) of

theorem label_covers (label : Option Name × Name) :
    Covers place (Grammar.fieldLabel place label) (label.1.toList.map name ++ [name label.2]) := by
  obtain ⟨_ | nickname, label⟩ := label
  · exact name_covers label
  · exact (name_covers nickname).then (.skip (.front (name_covers label)))

/-! Each node covers its parts -/

section Nested
variable (shallow : depth ≤ deepest)
include shallow

theorem field_inner (of : Field) : Covers place
    (Grammar.field place (Grammar.selectionSet place depth) depth of) (node (.field of)).inner := by
  obtain ⟨nickname, label, arguments, directives, selections, span⟩ := of
  rw [inner, List.append_cons]
  exact .node (.then (label_covers (nickname, label)) (.then (arguments_covers shallow arguments)
    (.then (directives_covers shallow directives)
      (.front (.optional (set_covers shallow) selections)))))

theorem selection_inner (of : Selection) : Covers place
    (Grammar.selection place (Grammar.selectionSet place depth) depth of) (selection of).inner := by
  rcases of with of | of | ⟨condition, directives, selections, span⟩
  · exact field_inner shallow of
  · exact .node (.skip (.then (.given (name_covers of.name))
      (.front (directives_covers shallow of.directives))))
  · exact .node (.skip (.then (.optional (fun of => .skip (.front (namedType_covers of))) condition)
      (.then (directives_covers shallow directives) (.front (set_covers shallow selections)))))

theorem value_inner (of : Value) :
    Covers place (Grammar.value place isConst depth of) (value of).inner := by
  cases of with
  | var of =>
    rw [Grammar.value]
    exact .given (.node (.skip (.front (name_covers of.name))))
  | list values span =>
    cases depth with
    | zero => exact .never
    | succ depth =>
      rw [Grammar.value]
      exact .node (.front (.any (value_covers (Nat.le_of_succ_le shallow)) values))
  | object fields span =>
    cases depth with
    | zero => exact .never
    | succ depth =>
      rw [Grammar.value]
      exact .given (.node (.front (.any (objectField_covers (Nat.le_of_succ_le shallow)) fields)))
  | _ => exact .none

theorem type_inner (of : TypeAnnotation) :
    Covers place (Grammar.anyType place depth of) (type of).inner := by
  cases of with
  | named of =>
    rw [Grammar.anyType]
    exact .node (.front (name_covers of.name))
  | list item span =>
    cases depth with
    | zero => exact .never
    | succ depth =>
      rw [Grammar.anyType]
      exact .node (.skip (.front (type_covers (Nat.le_of_succ_le shallow) item)))
  | nonNull of span =>
    rw [Grammar.anyType]
    exact .given (.node (.front (type_covers shallow of)))

theorem set_inner (of : SelectionSet) :
    Covers place (Grammar.selectionSet place depth of) (node (.selectionSet of)).inner := by
  obtain ⟨selections, span⟩ := of
  cases depth with
  | zero => exact .never
  | succ depth =>
    exact .node (.front (.many (selection_covers (Nat.le_of_succ_le shallow)) selections))

end Nested

theorem operation_inner (of : OperationDefinition) :
    Covers place (Grammar.operationDefinition place of) (node (.operation of)).inner := by
  obtain ⟨operation, label, definitions, directives, selections, span⟩ := of
  have set : Covers place (Grammar.selectionSet place deepest selections) _ :=
    set_covers (Nat.le_refl deepest) selections
  rintro tokens (⟨⟨-, rfl, rfl, rfl⟩, holds⟩ | holds)
  · exact Covers.node (.front set) tokens holds
  · exact Covers.node (.skip (.then (.optional name_covers label)
      (.then (.optionalMany variableDefinition_covers definitions)
        (.then (directives_covers (Nat.le_refl deepest) directives) (.front set))))) tokens holds

theorem interfaces_covers (of : List NamedType) :
    Covers place (Grammar.implementedInterfaces place of)
      (of.map fun of => node (.namedType of)) := by
  cases of with
  | nil => exact .none
  | cons first others => exact .skip (.front (.each namedType_covers (first :: others)))

theorem typeSystem_inner (of : TypeSystemDefinition) :
    Covers place (Grammar.definition place (.typeSystem of)) (ofTypeSystem of) := by
  -- most definitions are a word, a name and directives, and then what is their own
  have named {label : Name} {directives : List Directive} {span : Option Span} {text : String}
      {rest : List Phrase} {parts : List Spanned} (own : Covers place (Parts rest) parts) :
      Covers place (Grammar.node place span
        (word text :: Grammar.name place label :: Grammar.constDirectives place directives :: rest))
        (name label :: (directives.map directive ++ parts)) :=
    .node (.skip (.then (name_covers label) (.then (constDirectives_covers directives) own)))
  rcases of with of | (of | of | of | of | of | of) | of | of
  · exact .node (.skip (.then (constDirectives_covers of.directives)
      (.front (.many rootOperation_covers of.operationTypes))))
  · exact .node (.skip (.then (name_covers of.name)
      (.front (constDirectives_covers of.directives))))
  · exact .node (.skip (.then (name_covers of.name) (.then (interfaces_covers of.interfaces)
      (.then (constDirectives_covers of.directives) (.front (fields_covers of.fields))))))
  · exact named (.front (fields_covers of.fields))
  · exact named (.skip (.front (.barred namedType_covers of.types)))
  · exact named (.front (.many enumValue_covers of.values))
  · exact named (.front (.any input_covers of.fields))
  · exact .node (.skip (.front (.single fun _ holds => holds)))
  · exact .node (.skip (.skip (.then (name_covers of.name) (.then (inputs_covers of.arguments)
      (.skip (.front (.barred name_covers of.locations)))))))

/-- The parts of a part are read from some of its tokens, one behind the other. -/
theorem inner_among (read : part.Read place tokens) : Among place part.inner tokens := by
  have whole : Covers place (part.Read place) part.inner → Among place part.inner tokens :=
    fun covers => covers tokens read
  have deeper {phrase : Bool → Nat → Phrase}
      (covers : ∀ isConst, ∀ depth ≤ deepest, Covers place (phrase isConst depth) part.inner)
      (read : nested phrase tokens) : Among place part.inner tokens := by
    obtain ⟨isConst, depth, shallow, holds⟩ := read
    exact covers isConst depth shallow tokens holds
  have flat := Nat.le_refl deepest
  cases part with
  | name of => exact .done tokens
  | rootOperation of => exact whole (.node (.skip (.skip (.front (namedType_covers of.type)))))
  | input of =>
    exact whole (.node (.then (name_covers of.name) (.skip (.then (type_covers flat of.type)
      (.then (default_covers of.defaultValue) (.front (constDirectives_covers of.directives)))))))
  | fieldDefinition of =>
    exact whole (.node (.then (name_covers of.name) (.then (inputs_covers of.arguments)
      (.skip (.then (type_covers flat of.type) (.front (constDirectives_covers of.directives)))))))
  | enumValue of =>
    exact whole (.node (.then (name_covers of.name)
      (.front (constDirectives_covers of.directives))))
  | node of =>
    cases of with
    | document of => exact whole (.given (.node (.front (.each definition_covers of.definitions))))
    | operation of => exact whole (operation_inner of)
    | variableDefinition of =>
      exact whole (.node (.then (variable_covers of.target) (.skip
        (.then (type_covers flat of.type) (.front (default_covers of.defaultValue))))))
    | var of => exact whole (.node (.skip (.front (name_covers of.name))))
    | selectionSet of => exact deeper (fun _ _ shallow => set_inner shallow of) read
    | field of => exact deeper (fun _ _ shallow => selection_inner shallow (.field of)) read
    | argument of =>
      exact deeper (fun _ _ shallow => .node (.then (name_covers of.name)
        (.skip (.front (value_covers shallow of.value))))) read
    | spread of => exact deeper (fun _ _ shallow => selection_inner shallow (.spread of)) read
    | inline of => exact deeper (fun _ _ shallow => selection_inner shallow (.inline of)) read
    | fragment of =>
      exact whole (.node (.skip (.then (.given (name_covers of.name)) (.skip
        (.then (namedType_covers of.typeCondition) (.then (directives_covers flat of.directives)
          (.front (set_covers flat of.selectionSet))))))))
    | value of => exact deeper (fun _ _ shallow => value_inner shallow of) read
    | objectField of =>
      obtain ⟨label, held, span⟩ := of
      exact deeper (fun _ _ shallow => .node (.then (name_covers label)
        (.skip (.front (value_covers shallow held))))) read
    | directive of =>
      exact deeper (fun _ _ shallow => .node (.skip (.then (name_covers of.name)
        (.front (arguments_covers shallow of.arguments))))) read
    | namedType of => exact whole (.node (.front (name_covers of.name)))
    | listType item span =>
      exact deeper (fun _ _ shallow => type_inner shallow (.list item span)) read
    | nonNullType of span =>
      exact deeper (fun _ _ shallow => type_inner shallow (.nonNull of span)) read
    | typeSystem of => exact whole (typeSystem_inner of)

/-- What is within a part is read from consecutive tokens of the part. -/
theorem within_read {root : Spanned} (read : root.Read place tokens) (within : root.Within part) :
    ∃ own, own <:+: tokens ∧ part.Read place own := by
  induction within with
  | refl => exact ⟨tokens, List.infix_rfl, read⟩
  | tail _ member ih =>
    obtain ⟨outer, part', read⟩ := ih
    obtain ⟨own, inside, here⟩ := (inner_among read).mem member
    exact ⟨own, inside.trans part', here⟩

/-! Each part spans its tokens -/

theorem value_span {of : Value} (holds : Grammar.value place isConst depth of tokens) :
    of.span = extent place tokens := by
  cases of with
  | var of =>
    rw [Grammar.value] at holds
    exact holds.2.1
  | boolean of span =>
    cases of <;>
    · rw [Grammar.value] at holds
      exact holds.1
  | enum text span =>
    rw [Grammar.value] at holds
    exact holds.2.1
  | list values span =>
    cases depth with
    | zero => exact holds.elim
    | succ depth =>
      rw [Grammar.value] at holds
      exact holds.1
  | object fields span =>
    cases depth with
    | zero => exact holds.elim
    | succ depth =>
      rw [Grammar.value] at holds
      exact holds.2.1
  | _ =>
    rw [Grammar.value] at holds
    exact holds.1

theorem type_span {of : TypeAnnotation} (holds : Grammar.anyType place depth of tokens) :
    of.span = extent place tokens := by
  cases of with
  | named of =>
    rw [Grammar.anyType] at holds
    exact holds.1
  | list item span =>
    cases depth with
    | zero => exact holds.elim
    | succ depth =>
      rw [Grammar.anyType] at holds
      exact holds.1
  | nonNull of span =>
    rw [Grammar.anyType] at holds
    exact holds.2.1

theorem selection_span {set : SelectionSet → Phrase} {of : Selection}
    (holds : Grammar.selection place set depth of tokens) : of.span = extent place tokens := by
  rcases of with of | of | of
  · cases of
    exact holds.1
  · exact holds.1
  · cases of
    exact holds.1

theorem set_span {of : SelectionSet} (holds : Grammar.selectionSet place depth of tokens) :
    of.span = extent place tokens := by
  cases of
  cases depth with
  | zero => exact holds.elim
  | succ depth => exact holds.1

theorem typeSystem_span {of : TypeSystemDefinition}
    (holds : Grammar.definition place (.typeSystem of) tokens) : of.span = extent place tokens := by
  rcases of with of | (of | of | of | of | of | of) | of | of <;> exact holds.1

theorem read_span (read : part.Read place tokens) : part.span = extent place tokens := by
  cases part with
  | node of =>
    cases of with
    | document of => exact read.2.1
    | operation of => exact read.elim (fun holds => holds.2.1) (fun holds => holds.1)
    | selectionSet of => exact read.elim fun _ ⟨_, _, holds⟩ => set_span holds
    | field of | spread of | inline of =>
      exact read.elim fun _ ⟨_, _, holds⟩ => selection_span holds
    | value of => exact read.elim fun _ ⟨_, _, holds⟩ => value_span holds
    | argument of | directive of => exact read.elim fun _ ⟨_, _, holds⟩ => holds.1
    | objectField of =>
      cases of
      exact read.elim fun _ ⟨_, _, holds⟩ => holds.1
    | listType item span | nonNullType of span =>
      exact read.elim fun _ ⟨_, _, holds⟩ => type_span holds
    | typeSystem of => exact typeSystem_span read
    | variableDefinition of | var of | fragment of | namedType of => exact read.1
  | _ => exact read.1

/-- The kinds that parts start with. -/
def starts : List Lexeme.Kind :=
  .punctuator .atSign :: .punctuator .spread :: Grammar.literalStarts

/-- A part has tokens, and does not start at the end of the text. -/
theorem read_begins (part : Spanned) : Begins starts (part.Read place) := by
  have deeper {phrase : Bool → Nat → Phrase}
      (begins : ∀ isConst depth, Begins starts (phrase isConst depth)) :
      Begins starts (nested phrase) :=
    ⟨fun tokens ⟨isConst, depth, _, holds⟩ => (begins isConst depth).leads tokens holds,
      fun ⟨isConst, depth, _, holds⟩ => (begins isConst depth).filled holds⟩
  have selection (of : Selection) : Begins starts (nested fun _ depth =>
      Grammar.selection place (Grammar.selectionSet place depth) depth of) :=
    deeper fun _ _ => (Grammar.selection_begins of).mono (by decide)
  have type (of : TypeAnnotation) :
      Begins starts (nested fun _ depth => Grammar.anyType place depth of) :=
    deeper fun _ _ => (Grammar.anyType_begins of).mono (by decide)
  have definition (of : Definition) : Begins starts (Grammar.definition place of) :=
    (Grammar.definition_begins of).mono (by decide)
  cases part with
  | name of => exact (Grammar.name_begins of).mono (by decide)
  | rootOperation of => exact (Grammar.operationTypeDefinition_begins of).mono (by decide)
  | input of => exact (Grammar.inputValueDefinition_begins of).mono (by decide)
  | fieldDefinition of => exact (Grammar.fieldDefinition_begins of).mono (by decide)
  | enumValue of => exact (Grammar.enumValueDefinition_begins of).mono (by decide)
  | node of =>
    cases of with
    | document of =>
      obtain ⟨_ | ⟨first, others⟩, span⟩ := of
      · exact .given fun some => absurd rfl some
      · exact .given fun _ => (definition first).parts.node
    | operation of => exact definition (.operation of)
    | variableDefinition of => exact (Grammar.variableDefinition_begins of).mono (by decide)
    | var of => exact (Grammar.variableName_begins of).mono (by decide)
    | selectionSet of => exact deeper fun _ _ => (Grammar.selectionSet_begins of).mono (by decide)
    | field of => exact selection (.field of)
    | argument of => exact deeper fun _ _ => (Grammar.argument_begins of).mono (by decide)
    | spread of => exact selection (.spread of)
    | inline of => exact selection (.inline of)
    | fragment of => exact definition (.fragment of)
    | value of => exact deeper fun _ _ => (Grammar.value_begins of).mono (by decide)
    | objectField of => exact deeper fun _ _ => (Grammar.objectField_begins of).mono (by decide)
    | directive of => exact deeper fun _ _ => (Grammar.directive_begins of).mono (by decide)
    | namedType of => exact (Grammar.namedType_begins of).mono (by decide)
    | listType item span => exact type (.list item span)
    | nonNullType of span => exact type (.nonNull of span)
    | typeSystem of => exact definition (.typeSystem of)

end GraphQL.Spanned
