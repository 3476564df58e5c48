import GraphQL.Proofs.Grammar.Productions

/-! What phrases are made of, and the tokens that they start with. A phrase may have no tokens at
all; most have some. -/
namespace GraphQL.Grammar
open Ast

variable {α : Type} {starts more : List Lexeme.Kind} {phrase : Phrase} {rest : List Phrase}
  {item : α → Phrase}

theorem parts_concat {first second : List Phrase} {tokens : List Token} :
    Parts (first ++ second) tokens ↔
      ∃ before after, tokens = before ++ after ∧ Parts first before ∧ Parts second after := by
  induction first generalizing tokens with
  | nil =>
    constructor
    · exact fun holds => ⟨[], tokens, rfl, rfl, holds⟩
    · rintro ⟨_, _, rfl, rfl, holds⟩
      exact holds
  | cons part first ih =>
    constructor
    · rintro ⟨us, rest, rfl, here, more⟩
      obtain ⟨before, after, rfl, inner, outer⟩ := ih.mp more
      exact ⟨us ++ before, after, (List.append_assoc ..).symm, ⟨us, before, rfl, here, inner⟩,
        outer⟩
    · rintro ⟨_, after, rfl, ⟨us, before, rfl, here, inner⟩, outer⟩
      exact ⟨us, before ++ after, List.append_assoc .., here,
        ih.mpr ⟨before, after, rfl, inner, outer⟩⟩

theorem parts_single {phrase : Phrase} {tokens : List Token} :
    Parts [phrase] tokens ↔ phrase tokens := by
  simp [Parts]

/-- Parts among other parts. -/
theorem parts_flatten {first inner second : List Phrase} {tokens : List Token} :
    Parts (first ++ Parts inner :: second) tokens ↔ Parts (first ++ (inner ++ second)) tokens := by
  rw [parts_concat, parts_concat]
  refine exists_congr fun before => exists_congr fun after => and_congr_right fun _ =>
    and_congr_right fun _ => ?_
  rw [parts_concat]
  rfl

theorem parts_count {parts : List Phrase} (filled : ∀ part ∈ parts, ¬ part []) {tokens : List Token}
    (holds : Parts parts tokens) : parts.length ≤ tokens.length := by
  induction parts generalizing tokens with
  | nil => exact Nat.zero_le _
  | cons part parts ih =>
    obtain ⟨first, rest, rfl, here, more⟩ := holds
    have some : first ≠ [] := by
      rintro rfl
      exact filled part List.mem_cons_self here
    have count := ih (fun part member => filled part (List.mem_cons_of_mem _ member)) more
    have := List.length_pos_iff.mpr some
    simp only [List.length_cons, List.length_append]
    omega

theorem ending_append (offset : Nat) (first second : List Token) :
    ending offset (first ++ second) = ending (ending offset first) second := List.foldl_append

/-- Tokens of the phrase, if there are any, start with one of the kinds. -/
def Leads (starts : List Lexeme.Kind) (phrase : Phrase) : Prop :=
  ∀ tokens, phrase tokens → ∀ token ∈ tokens.head?, token.lexeme.kind ∈ starts

/-- There are tokens of the phrase, and they start with one of the kinds. -/
structure Begins (starts : List Lexeme.Kind) (phrase : Phrase) : Prop where
  leads : Leads starts phrase
  filled : ¬ phrase []

theorem Leads.mono (leads : Leads starts phrase) (wider : starts ⊆ more) : Leads more phrase :=
  fun tokens holds token head => wider (leads tokens holds token head)

theorem Begins.mono (begins : Begins starts phrase) (wider : starts ⊆ more) : Begins more phrase :=
  ⟨begins.leads.mono wider, begins.filled⟩

theorem Begins.given {condition : Prop} (begins : condition → Begins starts phrase) :
    Begins starts (given condition phrase) where
  leads tokens holds := (begins holds.1).leads tokens holds.2
  filled holds := (begins holds.1).filled holds.2

theorem Begins.never : Begins starts never := ⟨fun _ => False.elim, False.elim⟩

theorem Leads.nil : Leads starts (Parts []) := by
  rintro _ rfl token ⟨⟩

theorem lexeme_begins (l : Lexeme) : Begins [l.kind] (lexeme l) where
  leads := by
    rintro _ ⟨token, rfl, rfl⟩ _ ⟨⟩
    exact List.mem_singleton_self _
  filled := by
    rintro ⟨token, ⟨⟩, -⟩

theorem mark_begins (expected : Punctuator) : Begins [.punctuator expected] (mark expected) :=
  lexeme_begins (.punctuator expected)

theorem word_begins (text : String) : Begins [.name] (word text) := lexeme_begins (.name text)

/-- Parts begin as the first of them does. -/
theorem Begins.parts (begins : Begins starts phrase) : Begins starts (Parts (phrase :: rest)) where
  leads := by
    rintro _ ⟨first, rest, rfl, here, -⟩ token head
    cases first with
    | nil => exact absurd here begins.filled
    | cons => exact begins.leads _ here token head
  filled := by
    rintro ⟨first, rest, split, here, -⟩
    rw [(List.append_eq_nil_iff.mp split.symm).1] at here
    exact begins.filled here

theorem Begins.either {first second : Phrase} (left : Begins starts first)
    (right : Begins starts second) : Begins starts fun tokens => first tokens ∨ second tokens where
  leads tokens holds := holds.elim (left.leads tokens) (right.leads tokens)
  filled holds := holds.elim left.filled right.filled

theorem Begins.node {place : Nat → Nat → Option Span} {span : Option Span}
    (begins : Begins starts phrase) : Begins starts (node place span (phrase :: rest)) where
  leads tokens holds := begins.parts.leads tokens holds.2
  filled holds := begins.parts.filled holds.2

theorem any_begins {opening close : Punctuator} (values : List α) :
    Begins [.punctuator opening] (any opening item close values) := (mark_begins opening).parts

theorem many_begins {opening close : Punctuator} (values : List α) :
    Begins [.punctuator opening] (many opening item close values) :=
  .given fun _ => any_begins values

theorem optionalMany_leads {opening close : Punctuator} (values : List α) :
    Leads [.punctuator opening] (optionalMany opening item close values) := by
  cases values with
  | nil => exact .nil
  | cons => exact (many_begins _).leads

theorem optional_leads (begins : ∀ value, Begins starts (item value)) (value : Option α) :
    Leads starts (optional item value) := by
  cases value with
  | none => exact .nil
  | some value => exact (begins value).leads

theorem each_leads (begins : ∀ value, Begins starts (item value)) (values : List α) :
    Leads starts (each item values) := by
  cases values with
  | nil => exact .nil
  | cons value values => exact (begins value).parts.leads

variable {place : Nat → Nat → Option Span} {isConst : Bool} {depth : Nat}

theorem name_begins (label : Name) : Begins [.name] (name place label) := (word_begins _).node

theorem variableName_begins (target : Variable) :
    Begins [.punctuator .dollar] (variableName place target) := (mark_begins _).node

theorem objectField_begins {value : Value → Phrase} (field : ObjectField) :
    Begins [.name] (objectField place value field) := by
  obtain ⟨label, of, span⟩ := field
  exact (name_begins label).node

/-- The kinds that a value literal starts with. -/
def literalStarts : List Lexeme.Kind :=
  [.punctuator .bracketL, .punctuator .braceL, .punctuator .dollar, .name, .int, .float, .string]

theorem value_begins (of : Value) : Begins literalStarts (value place isConst depth of) := by
  have single (l : Lexeme) (span : Option Span) (known : l.kind ∈ literalStarts) :
      Begins literalStarts (node place span [lexeme l]) :=
    (lexeme_begins l).node.mono (by simpa using known)
  have many {item : Phrase} {m : Punctuator} (span : Option Span)
      (begins : Begins [.punctuator m] item) (known : .punctuator m ∈ literalStarts) :
      Begins literalStarts (node place span [item]) :=
    begins.node.mono (by simpa using known)
  cases of with
  | var of =>
    rw [value]
    exact .given fun _ => (variableName_begins of).mono (by decide)
  | int text span | float text span | string text span =>
    rw [value]
    exact single _ span (by simp [Lexeme.kind, literalStarts])
  | boolean of span =>
    cases of with
    | true =>
      rw [value]
      exact single (.name "true") span (by decide)
    | false =>
      rw [value]
      exact single (.name "false") span (by decide)
  | null span =>
    rw [value]
    exact single (.name "null") span (by decide)
  | enum text span =>
    rw [value]
    exact .given fun _ => single (.name _) span (by simp [Lexeme.kind, literalStarts])
  | list values span =>
    cases depth with
    | zero => exact .never
    | succ depth =>
      rw [value]
      exact many span (any_begins values) (by decide)
  | object fields span =>
    cases depth with
    | zero => exact .never
    | succ depth =>
      rw [value]
      exact .given fun _ => many span (any_begins fields) (by decide)

theorem argument_begins (of : Argument) : Begins [.name] (argument place isConst depth of) :=
  (name_begins of.name).node

theorem arguments_leads (of : List Argument) :
    Leads [.punctuator .parenL] (arguments place isConst depth of) := optionalMany_leads of

theorem directive_begins (of : Directive) :
    Begins [.punctuator .atSign] (directive place isConst depth of) := (mark_begins .atSign).node

theorem directives_leads (of : List Directive) :
    Leads [.punctuator .atSign] (directives place isConst depth of) :=
  each_leads directive_begins of

theorem namedType_begins (type : NamedType) : Begins [.name] (namedType place type) :=
  (name_begins type.name).node

theorem anyType_begins (type : TypeAnnotation) :
    Begins [.name, .punctuator .bracketL] (anyType place depth type) := by
  induction type generalizing depth with
  | named type =>
    rw [anyType]
    exact (namedType_begins type).mono (by decide)
  | list item span ih =>
    cases depth with
    | zero => exact .never
    | succ depth => exact (mark_begins .bracketL).node.mono (by decide)
  | nonNull type span ih =>
    rw [anyType]
    exact .given fun _ => ih.node

theorem fieldLabel_begins (label : Option Name × Name) :
    Begins [.name] (fieldLabel place label) := by
  obtain ⟨_ | nickname, label⟩ := label
  · exact name_begins label
  · exact (name_begins nickname).parts

theorem field_begins {selectionSet : SelectionSet → Phrase} (of : Field) :
    Begins [.name] (field place selectionSet depth of) := by
  obtain ⟨nickname, label, _⟩ := of
  exact (fieldLabel_begins (nickname, label)).node

theorem fragmentName_begins (label : Name) : Begins [.name] (fragmentName place label) :=
  .given fun _ => name_begins label

theorem selection_begins {selectionSet : SelectionSet → Phrase} (of : Selection) :
    Begins [.name, .punctuator .spread] (selection place selectionSet depth of) := by
  have spread : Begins [.name, .punctuator .spread] (mark .spread) :=
    (mark_begins .spread).mono (by decide)
  rcases of with of | of | ⟨condition, _⟩
  · exact (field_begins of).mono (by decide)
  · exact spread.node
  · exact spread.node

theorem selectionSet_begins (of : SelectionSet) :
    Begins [.punctuator .braceL] (selectionSet place depth of) := by
  obtain ⟨selections, span⟩ := of
  cases depth with
  | zero => exact .never
  | succ depth => exact (many_begins selections).node

theorem defaultValue_leads (of : Option Value) :
    Leads [.punctuator .equals] (defaultValue place of) :=
  optional_leads (fun _ => (mark_begins .equals).parts) of

theorem variableDefinition_begins (of : VariableDefinition) :
    Begins [.punctuator .dollar] (variableDefinition place of) :=
  (variableName_begins of.target).node

theorem operationType_begins (operation : OperationType) :
    Begins [.name] (operationType operation) :=
  word_begins operation.text

theorem operationTypeDefinition_begins (of : OperationTypeDefinition) :
    Begins [.name] (operationTypeDefinition place of) :=
  (operationType_begins of.operation).node

theorem inputValueDefinition_begins (of : InputValueDefinition) :
    Begins [.name] (inputValueDefinition place of) := (name_begins of.name).node

theorem fieldDefinition_begins (of : FieldDefinition) :
    Begins [.name] (fieldDefinition place of) := (name_begins of.name).node

theorem enumValueDefinition_begins (of : EnumValueDefinition) :
    Begins [.name] (enumValueDefinition place of) := (name_begins of.name).node

/-- A definition begins with a word, or as an operation that is its selections alone. -/
theorem definition_begins (of : Definition) :
    Begins [.name, .punctuator .braceL] (definition place of) := by
  have worded {text : String} {parts : List Phrase} (span : Option Span) :
      Begins [.name, .punctuator .braceL] (node place span (word text :: parts)) :=
    (word_begins text).node.mono (by decide)
  rcases of with of | of | of | (of | of | of | of | of | of) | of | of
  · exact .either (.given fun _ => ((selectionSet_begins _).mono (by decide)).node) (worded of.span)
  all_goals exact worded of.span

end GraphQL.Grammar
