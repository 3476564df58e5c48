import GraphQL.Parser.TypeSystem
import GraphQL.Proofs.Grammar.Lookahead

/-! The parsers read the phrases of the grammar as what they stand for. -/
namespace GraphQL.Parser
open Ast
open Grammar (Phrase Parts mark word Leads Begins)

variable {input : Input} {last : State} {outer : List Lexeme.Kind}

/-! Names, value literals, arguments, directives and types -/

theorem name_complete : Complete input name (Grammar.name input.place) [] := by
  rintro ⟨text, span⟩ last
  exact .token fun token here => by rw [here]

theorem variableName_complete :
    Complete input variableName (Grammar.variableName input.place) [] :=
  fun ⟨_, _⟩ _ => .node (Grammar.mark_begins .dollar).parts fun _ same =>
    .expectMark (.bind (name_complete _) .any (.close same))

/-- One field of an object literal, as `objectFields` reads it. -/
def objectField (value : Parser Value) (seen : List String) : Parser ObjectField := do
  let start ← start
  let name ← name
  if seen.contains name.text then faultAt start (.duplicateObjectField name.text)
  expectMark .colon
  let of ← value
  return ⟨name, of, ← spanFrom start⟩

theorem objectFields_succ (value : Parser Value) (fuel : Nat) (seen : List String) :
    objectFields value (fuel + 1) seen = do
      if ← skipMark .braceR then return []
      else
        let field ← objectField value seen
        return field :: (← objectFields value fuel (field.name.text :: seen)) := by
  simp only [objectFields, objectField, bind_assoc]
  congr! 6
  funext name
  split <;> simp only [bind_assoc, pure_bind]

section Values
variable {value : Parser Value} {phrase : Value → Phrase}

theorem objectField_reads (complete : Complete input value phrase []) {field : ObjectField}
    {seen : List String} (new : field.name.text ∉ seen) :
    Reads input last (objectField value seen) field (Grammar.objectField input.place phrase field)
      [] := by
  obtain ⟨label, of, span⟩ := field
  refine .node (Grammar.name_begins label).parts fun start same => .bind (name_complete _) .any ?_
  have fresh : seen.contains label.text = false := by simpa using new
  rw [fresh]
  exact .expectMark (.bind (complete _) .any (.close same))

theorem objectFields_complete (complete : Complete input value phrase [])
    {fields : List ObjectField} {seen : List String}
    (others : ∀ field ∈ fields, field.name.text ∉ seen)
    (distinct : (fields.map fun field => field.name.text).Nodup) {fuel : Nat}
    (enough : fields.length < fuel) :
    Reads input last (objectFields value fuel seen) fields
      (Parts (fields.map (Grammar.objectField input.place phrase) ++ [mark .braceR])) outer := by
  induction fields generalizing fuel seen with
  | nil =>
    cases fuel with
    | zero => simp at enough
    | succ fuel => exact .marked .pure
  | cons first rest ih =>
    cases fuel with
    | zero => simp at enough
    | succ fuel =>
      rw [List.map_cons, List.nodup_cons] at distinct
      have fresh : ∀ field ∈ rest, field.name.text ∉ first.name.text :: seen := by
        intro field member
        simp only [List.mem_cons, not_or]
        exact ⟨fun same => distinct.1 (List.mem_map.mpr ⟨field, member, same⟩),
          others field (List.mem_cons_of_mem _ member)⟩
      rw [objectFields_succ]
      refine .unmarked (.begins (Grammar.objectField_begins first).parts (by decide)) ?_
      exact .bind (fun _ => objectField_reads complete (others first List.mem_cons_self)) .any
        (.map (ih fresh distinct.2 (Nat.lt_of_succ_lt_succ enough)))

end Values

theorem value_complete (isConst : Bool) (depth : Nat) :
    Complete input (value isConst depth) (Grammar.value input.place isConst depth) [] := by
  induction depth using Nat.strong_induction_on with
  | _ depth inner =>
    intro of last
    rw [value]
    cases of with
    | var target =>
      rw [Grammar.value]
      rintro state tokens ⟨free, holds⟩
      have dollar : Heads (.punctuator .dollar) (Grammar.variableName input.place target) :=
        fun tokens holds => Heads.lexeme.cons tokens holds.2
      refine Reads.look dollar (fun token here => ?_) state tokens holds
      rw [here, free]
      exact .map (variableName_complete target last)
    | int text span | float text span | string text span =>
      rw [Grammar.value]
      exact .token fun token here => by rw [here]
    | boolean of span =>
      cases of with
      | true =>
        rw [Grammar.value]
        exact .token fun token here => by rw [here]; rfl
      | false =>
        rw [Grammar.value]
        exact .token fun token here => by rw [here]; rfl
    | null span =>
      rw [Grammar.value]
      exact .token fun token here => by rw [here]; rfl
    | enum text span =>
      rw [Grammar.value]
      rintro state tokens ⟨other, holds⟩
      have named (span : Option Span) : namedLiteral text span = .enum text span := by
        unfold namedLiteral
        split <;> simp at other ⊢
      refine Reads.token (fun token here => ?_) state tokens holds
      rw [here]
      simp only [named]
    | list values span =>
      cases depth with
      | zero => rintro state tokens ⟨⟩
      | succ depth =>
        rw [Grammar.value]
        refine .current Heads.lexeme.cons.cons fun token here same => ?_
        rw [here]
        exact .bind (any_complete (inner depth depth.lt_succ_self) Grammar.value_begins
          (by decide) (by decide) (by decide) values) .any (.close same)
    | object fields span =>
      cases depth with
      | zero => rintro state tokens ⟨⟩
      | succ depth =>
        rw [Grammar.value]
        rintro state tokens ⟨distinct, holds⟩
        refine Reads.current Heads.lexeme.cons.cons (fun token here same => ?_) state tokens holds
        rw [here]
        refine .single (.expectMark (.remaining (items_filled Grammar.objectField_begins fields)
          fun fuel enough => .then ?_ (.close same)))
        exact objectFields_complete (inner depth depth.lt_succ_self) (by simp) distinct
          (by simp at enough; omega)

theorem argument_complete (isConst : Bool) (depth : Nat) :
    Complete input (argument isConst depth) (Grammar.argument input.place isConst depth) [] :=
  fun ⟨label, of, _⟩ _ => .node (Grammar.name_begins label).parts fun _ same =>
    .bind (name_complete label) .any <| .expectMark <|
      .bind (value_complete isConst depth of) .any (.close same)

theorem arguments_complete (isConst : Bool) (depth : Nat) :
    Complete input (arguments isConst depth) (Grammar.arguments input.place isConst depth)
      [.punctuator .parenL] :=
  optionalMany_complete (argument_complete isConst depth) Grammar.argument_begins (by decide)
    (by decide) (by decide)

theorem directive_complete (isConst : Bool) (depth : Nat) :
    Complete input (directive isConst depth) (Grammar.directive input.place isConst depth)
      [.punctuator .parenL] :=
  fun ⟨label, of, _⟩ _ => .node (Grammar.mark_begins .atSign).parts fun _ same =>
    .expectMark <| .bind (name_complete label) .any <|
      .bind (arguments_complete isConst depth of) (.nil (by decide)) (.close same)

/-- What directives may go on with. -/
def moreDirectives : List Lexeme.Kind := [.punctuator .atSign, .punctuator .parenL]

theorem directives_complete (isConst : Bool) (depth : Nat) :
    Complete input (directives isConst depth) (Grammar.directives input.place isConst depth)
      moreDirectives := by
  intro of last
  refine .remaining ?_ fun fuel enough => ?_
  · intro part member
    obtain ⟨a, -, rfl⟩ := List.mem_map.mp member
    exact (Grammar.directive_begins a).filled
  · exact whileSeen_complete (directive_complete isConst depth) Grammar.directive_begins (by decide)
      (by decide) (by decide) (by simpa using enough)

theorem namedType_complete : Complete input namedType (Grammar.namedType input.place) [] :=
  fun ⟨label, _⟩ _ => .node (Grammar.name_begins label).parts fun _ same =>
    .bind (name_complete label) .any (.close same)

/-- A type before the bang, which stands behind it or not. -/
def nullableType (depth : Nat) : Parser TypeAnnotation := do
  let start ← start
  if ← skipMark .bracketL then
    match depth with
    | 0 => fault .nestingTooDeep
    | depth + 1 =>
        let item ← typeAnnotation depth
        expectMark .bracketR
        return .list item (← spanFrom start)
  else return .named (← namedType)

theorem start_twice {α : Type} (f : Nat → Nat → Parser α) :
    (do let first ← start; let second ← start; f first second) =
      (do let first ← start; f first first) := by
  -- Input by input, so that simp rewrites with it and does not leave it to the kernel to unfold.
  funext input state
  rfl

theorem typeAnnotation_eq (depth : Nat) :
    typeAnnotation depth = (do withBang (← start) (← nullableType depth)) := by
  rw [ typeAnnotation]
  simp only [nullableType, bind_assoc, start_twice]
  congr! 4
  split
  · cases depth <;> simp only [bind_assoc, pure_bind]
    rfl
  · simp only [bind_assoc, pure_bind]

theorem nullableType_reads {depth : Nat} {type : TypeAnnotation}
    (inner : ∀ lower, lower < depth →
      Complete input ( typeAnnotation lower) (Grammar.anyType input.place lower)
        [.punctuator .bang])
    (nullable : ∀ inner at', type ≠ .nonNull inner at') :
    Reads input last (nullableType depth) type (Grammar.anyType input.place depth type)
      [] := by
  cases type with
  | named type =>
    rw [Grammar.anyType]
    refine .start fun _ => .unmarked (.begins (Grammar.namedType_begins type) (by decide)) ?_
    exact .map (namedType_complete type last)
  | list item span =>
    cases depth with
    | zero => rintro state tokens ⟨⟩
    | succ depth =>
      rw [Grammar.anyType]
      refine .node (Grammar.mark_begins .bracketL).parts fun start same => .marked ?_
      exact .bind (inner depth depth.lt_succ_self item)
        (.begins (Grammar.mark_begins .bracketR).parts (by decide)) (.expectMark (.close same))
  | nonNull type span => exact absurd rfl (nullable type span)

theorem typeAnnotation_complete (depth : Nat) :
    Complete input ( typeAnnotation depth) (Grammar.anyType input.place depth)
      [.punctuator .bang] := by
  induction depth using Nat.strong_induction_on with
  | _ depth inner =>
    intro type last
    rw [typeAnnotation_eq]
    by_cases nullable : ∀ inner at', type ≠ .nonNull inner at'
    · refine .start fun start => .then
        (.mono (nullableType_reads inner nullable) (List.nil_subset _)) ?_
      exact .unmarked (.nil (by decide)) .pure
    · cases type with
      | nonNull type span =>
        rw [Grammar.anyType]
        rintro state tokens ⟨bare, holds⟩
        refine Reads.node (Grammar.anyType_begins type).parts (fun start same => ?_)
          state tokens holds
        exact .bind (fun _ => nullableType_reads inner bare) .any
          (.marked (.unseen (.nil (by decide)) (.close same)))
      | named | list => exact absurd (by simp) nullable

/-! Selections, operations and fragments -/

theorem fragmentName_complete :
    Complete input fragmentName (Grammar.fragmentName input.place) [] := by
  rintro label last state tokens ⟨other, holds⟩
  refine Reads.noKeyword (fun state tokens holds passes _ here => other ?_)
    (name_complete label last) state tokens holds
  have same := Heads.lexeme.cons.eq holds.2 passes
  rw [here] at same
  injection same with same
  exact same.symm

theorem optionalName_complete :
    Complete input optionalName (Grammar.optional (Grammar.name input.place)) [.name]
  | none, _ => .unseen (.nil (by decide)) .pure
  | some label, last =>
      .seen (Grammar.name_begins label) (name_complete.map (by decide))

theorem fieldLabel_complete :
    Complete input fieldLabel (Grammar.fieldLabel input.place) [.punctuator .colon]
  | (none, label), last =>
      .then (.mono (name_complete label last) (by decide)) (.unmarked (.nil (by decide)) .pure)
  | (some nickname, label), last =>
      .bind (name_complete nickname) .any <| .marked <| .single <| name_complete.map (by decide)

theorem typeCondition_complete :
    Complete input typeCondition (Grammar.typeCondition input.place) [.name]
  | none, _ => .noKeyword (Follows.noName (.nil (by decide))) .pure
  | some type, last =>
      .keyword Heads.lexeme.cons <| .advance <| .single <| namedType_complete.map (by decide)

/-- What a field may go on with. -/
def moreField : List Lexeme.Kind :=
  [.punctuator .colon, .punctuator .parenL, .punctuator .atSign, .punctuator .braceL]

theorem fragmentSelection_spread {p : Parser SelectionSet}
    {phrase : SelectionSet → Phrase} (depth : Nat) (label : Name) (directed : List Directive)
    (span : Option Span) :
    Reads input last (fragmentSelection p depth) (.spread ⟨label, directed, span⟩)
      (Grammar.selection input.place phrase depth (.spread ⟨label, directed, span⟩))
      moreField := by
  refine .node (Grammar.mark_begins .spread).parts fun _ same => .expectMark ?_
  have heads : Heads (.name label.text) (Grammar.fragmentName input.place label) :=
    fun tokens holds => Heads.lexeme.cons tokens holds.2.2
  refine .seen (Grammar.fragmentName_begins label).parts (.noKeyword ?_ ?_)
  · intro state tokens holds passes _ here
    rw [heads.cons.eq holds passes] at here
    obtain ⟨_, _, rfl, ⟨other, -⟩, -⟩ := holds
    exact other (Lexeme.name.inj here)
  · exact .bind (fragmentName_complete label) .any <|
      .bind (directives_complete false depth directed) (.nil (by decide)) (.close same)

section Selections
variable {p : Parser SelectionSet} {phrase : SelectionSet → Phrase}
  (complete : Complete input p phrase []) (begins : ∀ of, Begins [.punctuator .braceL] (phrase of))
  (depth : Nat)
include complete begins

theorem optionalSelectionSet_complete :
    Complete input (optionalSelectionSet p) (Grammar.optional phrase) [.punctuator .braceL]
  | none, _ => .unseen (.nil (by decide)) .pure
  | some of, last => .seen (begins of) (complete.map (by decide))

theorem field_complete :
    Complete input (field p depth) (Grammar.field input.place phrase depth) moreField :=
  fun ⟨nickname, label, of, directed, selections, _⟩ _ =>
    have selected := Grammar.optional_leads begins selections
    have directing := Grammar.directives_leads directed
    .node (Grammar.fieldLabel_begins (nickname, label)).parts fun _ same =>
      .bind (fieldLabel_complete (nickname, label))
        (.leads (Grammar.arguments_leads of) (by decide) (.leads directing (by decide)
          (.leads selected (by decide) (.nil (by decide))))) <|
      .bind (arguments_complete false depth of)
        (.leads directing (by decide) (.leads selected (by decide) (.nil (by decide)))) <|
      .bind (directives_complete false depth directed)
        (.leads selected (by decide) (.nil (by decide))) <|
      .bind (optionalSelectionSet_complete complete begins selections) (.nil (by decide)) <|
      .close same

theorem fragmentSelection_inline (condition : Option NamedType) (directed : List Directive)
    (selections : SelectionSet) (span : Option Span) :
    Reads input last (fragmentSelection p depth) (.inline ⟨condition, directed, selections, span⟩)
      (Grammar.selection input.place phrase depth (.inline ⟨condition, directed, selections, span⟩))
      moreField := by
  refine .node (Grammar.mark_begins .spread).parts fun start same => .expectMark ?_
  have selecting : Begins [.punctuator .braceL] (Parts [phrase selections]) :=
    (begins selections).parts
  have selected : Follows [.name] (Parts [Grammar.directives input.place false depth directed,
      phrase selections]) moreField :=
    .leads (Grammar.directives_leads directed) (by decide) (.begins selecting (by decide))
  have rest : Reads input last (do
        let condition ← typeCondition
        let directives ← directives false depth
        let selections ← p
        return Selection.inline ⟨condition, directives, selections, ← spanFrom start⟩)
      (.inline ⟨condition, directed, selections, span⟩)
      (Parts [Grammar.typeCondition input.place condition,
        Grammar.directives input.place false depth directed, phrase selections]) moreField :=
    .bind (typeCondition_complete condition) selected <|
      .bind (directives_complete false depth directed) (.begins selecting (by decide)) <|
      .bind (complete selections) .any (.close same)
  cases condition with
  | none =>
    have empty : Leads [] (Grammar.typeCondition input.place none) := .nil
    have follows := Follows.leads empty nofun selected
    exact .unseen follows (.noKeyword follows.noName rest)
  | some type =>
    exact .seen (Grammar.word_begins "on").parts.parts (.keyword Heads.lexeme.cons.cons rest)

theorem selection_complete :
    Complete input (selection p depth) (Grammar.selection input.place phrase depth) moreField
  | .field of, last =>
      .unseen (.begins (Grammar.field_begins of) (by decide)) <|
        .map (field_complete complete begins depth of last)
  | .spread ⟨label, directed, span⟩, last =>
      .seen (Grammar.mark_begins .spread).node 
        (fragmentSelection_spread depth label directed span)
  | .inline ⟨condition, directed, selections, span⟩, last =>
      .seen (Grammar.mark_begins .spread).node 
        (fragmentSelection_inline complete begins depth condition directed selections span)

end Selections

theorem selectionSet_complete (depth : Nat) :
    Complete input (selectionSet depth) (Grammar.selectionSet input.place depth) [] := by
  induction depth with
  | zero => rintro _ _ state tokens ⟨⟩
  | succ depth ih =>
    rintro ⟨selections, span⟩ last
    have inner := selection_complete ih Grammar.selectionSet_begins depth
    exact .node (Grammar.many_begins selections).parts fun _ same =>
      .bind (many_complete inner Grammar.selection_begins (by decide) (by decide) (by decide) _)
        .any (.close same)

theorem operationType_complete : Complete input operationType Grammar.operationType [] := by
  intro operation last
  refine .look Heads.lexeme fun token here => .one (.expectName ?_)
  rw [here]
  cases operation <;> exact .pure

theorem defaultValue_complete :
    Complete input defaultValue (Grammar.defaultValue input.place) [.punctuator .equals]
  | none, _ => .unmarked (.nil (by decide)) .pure
  | some of, last =>
      .marked <| .single <| (value_complete true maxDepth).map (by decide)

/-- What a variable definition may go on with. -/
def moreVariable : List Lexeme.Kind := [.punctuator .bang, .punctuator .equals]

theorem variableDefinition_complete :
    Complete input variableDefinition (Grammar.variableDefinition input.place) moreVariable :=
  fun ⟨target, type, default, _⟩ _ => .node (Grammar.variableName_begins target).parts fun _ same =>
    .bind (variableName_complete target) .any <| .expectMark <|
      .bind (typeAnnotation_complete maxDepth type)
        (.leads (Grammar.defaultValue_leads default) (by decide) (.nil (by decide))) <|
      .bind (defaultValue_complete default) (.nil (by decide)) (.close same)

theorem operationDefinition_complete :
    Complete input operationDefinition (Grammar.operationDefinition input.place) [] := by
  rintro ⟨operation, label, definitions, directed, selections, span⟩ last
  have selecting : Begins [.punctuator .braceL]
      (Grammar.selectionSet input.place maxDepth selections) := Grammar.selectionSet_begins _
  rintro state tokens (⟨⟨rfl, rfl, rfl, rfl⟩, holds⟩ | holds)
  · refine Reads.node selecting.parts (fun _ same => ?_) state tokens holds
    exact .seen selecting.parts <|
      .bind (selectionSet_complete maxDepth selections) .any (.close same)
  · have typed := Grammar.operationType_begins operation
    have directing : Leads [.punctuator .atSign]
        (Grammar.directives input.place false maxDepth directed) := Grammar.directives_leads _
    have defining : Leads [.punctuator .parenL] (Grammar.optionalMany .parenL
        (Grammar.variableDefinition input.place) .parenR definitions) :=
      Grammar.optionalMany_leads _
    refine Reads.node typed.parts (fun _ same => ?_) state tokens holds
    refine .unseen (.begins typed.parts (by decide)) ?_
    refine .bind (operationType_complete operation) .any ?_
    refine .bind (optionalName_complete label) (.leads defining (by decide)
      (.leads directing (by decide) (.begins selecting.parts (by decide)))) ?_
    refine .bind (optionalMany_complete variableDefinition_complete
      Grammar.variableDefinition_begins (by decide) (by decide) (by decide) definitions)
      (.leads directing (by decide) (.begins selecting.parts (by decide))) ?_
    refine .bind (directives_complete false maxDepth directed)
      (.begins selecting.parts (by decide)) ?_
    exact .bind (selectionSet_complete maxDepth selections) .any (.close same)

theorem fragmentDefinition_complete :
    Complete input fragmentDefinition (Grammar.fragmentDefinition input.place) [] :=
  fun ⟨label, condition, directed, selections, _⟩ _ =>
    .node (Grammar.word_begins "fragment").parts fun _ same =>
      .expectKeyword <| .bind (fragmentName_complete label) .any <| .expectKeyword <|
      .bind (namedType_complete condition) .any <|
      .bind (directives_complete false maxDepth directed)
        (.begins (Grammar.selectionSet_begins selections).parts (by decide)) <|
      .bind (selectionSet_complete maxDepth selections) .any (.close same)

/-! Definitions of the type system -/

theorem constDirectives_complete :
    Complete input constDirectives (Grammar.constDirectives input.place) moreDirectives :=
  directives_complete true maxDepth

theorem constDirectives_leads (of : List Directive) :
    Leads [.punctuator .atSign] (Grammar.constDirectives input.place of) :=
  Grammar.directives_leads of

theorem operationTypeDefinition_complete :
    Complete input operationTypeDefinition (Grammar.operationTypeDefinition input.place) [] :=
  fun ⟨operation, type, _⟩ _ => .node (Grammar.operationType_begins operation).parts fun _ same =>
    .bind (operationType_complete operation) .any <| .expectMark <|
      .bind (namedType_complete type) .any (.close same)

theorem schemaDefinition_complete :
    Complete input schemaDefinition (Grammar.schemaDefinition input.place) [] :=
  fun ⟨directed, operationTypes, _⟩ _ =>
    .node (Grammar.word_begins "schema").parts fun _ same => .expectKeyword <|
      .bind (constDirectives_complete directed)
        (.begins (Grammar.many_begins operationTypes).parts (by decide)) <|
      .bind (many_complete operationTypeDefinition_complete Grammar.operationTypeDefinition_begins
        (by decide) (by decide) (by decide) operationTypes) .any (.close same)

/-- What the definition of an input value may go on with. -/
def moreInput : List Lexeme.Kind :=
  [.punctuator .bang, .punctuator .equals, .punctuator .atSign, .punctuator .parenL]

theorem inputValueDefinition_complete :
    Complete input inputValueDefinition (Grammar.inputValueDefinition input.place) moreInput :=
  fun ⟨label, type, default, directed, _⟩ _ => .node (Grammar.name_begins label).parts fun _ same =>
    .bind (name_complete label) .any <| .expectMark <|
      .bind (typeAnnotation_complete maxDepth type)
        (.leads (Grammar.defaultValue_leads default) (by decide)
          (.leads (constDirectives_leads directed) (by decide) (.nil (by decide)))) <|
      .bind (defaultValue_complete default)
        (.leads (constDirectives_leads directed) (by decide) (.nil (by decide))) <|
      .bind (constDirectives_complete directed) (.nil (by decide)) (.close same)

theorem argumentDefinitions_complete :
    Complete input argumentDefinitions (Grammar.argumentDefinitions input.place)
      [.punctuator .parenL] :=
  optionalMany_complete inputValueDefinition_complete Grammar.inputValueDefinition_begins
    (by decide) (by decide) (by decide)

/-- What the definition of a field may go on with. -/
def moreFieldDefinition : List Lexeme.Kind :=
  [.punctuator .bang, .punctuator .atSign, .punctuator .parenL]

theorem fieldDefinition_complete :
    Complete input fieldDefinition (Grammar.fieldDefinition input.place) moreFieldDefinition :=
  fun ⟨label, arguments, type, directed, _⟩ _ =>
    .node (Grammar.name_begins label).parts fun _ same =>
      .bind (name_complete label) .any <|
      .bind (argumentDefinitions_complete arguments)
        (.begins (Grammar.mark_begins .colon).parts (by decide)) <| .expectMark <|
      .bind (typeAnnotation_complete maxDepth type)
        (.leads (constDirectives_leads directed) (by decide) (.nil (by decide))) <|
      .bind (constDirectives_complete directed) (.nil (by decide)) (.close same)

theorem fieldDefinitions_complete :
    Complete input fieldDefinitions (Grammar.fieldDefinitions input.place) [] :=
  any_complete fieldDefinition_complete Grammar.fieldDefinition_begins (by decide) (by decide)
    (by decide)

theorem scalarTypeDefinition_complete :
    Complete input scalarTypeDefinition (Grammar.scalarTypeDefinition input.place)
      moreDirectives :=
  fun ⟨label, directed, _⟩ _ => .node (Grammar.word_begins "scalar").parts fun _ same =>
    .expectKeyword <| .bind (name_complete label) .any <|
      .bind (constDirectives_complete directed) (.nil (by decide)) (.close same)

theorem implementedInterfaces_complete :
    Complete input implementedInterfaces (Grammar.implementedInterfaces input.place) [.name]
  | [], _ => .noKeyword (Follows.noName (.nil (by decide))) .pure
  | first :: rest, last => by
      refine .keyword Heads.lexeme.cons (.advance (.single (.bind (namedType_complete first) .any
        (.remaining ?_ fun fuel enough => .map ?_))))
      · intro part member
        obtain ⟨type, -, rfl⟩ := List.mem_map.mp member
        exact (Grammar.namedType_begins type).filled
      · exact whileSeen_complete namedType_complete Grammar.namedType_begins (by decide) (by decide)
          (by decide) (by simpa using enough)

theorem objectTypeDefinition_complete :
    Complete input objectTypeDefinition (Grammar.objectTypeDefinition input.place) [] :=
  fun ⟨label, interfaces, directed, fields, _⟩ _ =>
    have block : Begins [.punctuator .braceL] (Grammar.fieldDefinitions input.place fields) :=
      Grammar.any_begins fields
    .node (Grammar.word_begins "type").parts fun _ same =>
      .expectKeyword <| .bind (name_complete label) .any <|
      .bind (implementedInterfaces_complete interfaces)
        (.leads (constDirectives_leads directed) (by decide) (.begins block.parts (by decide))) <|
      .bind (constDirectives_complete directed) (.begins block.parts (by decide)) <|
      .bind (fieldDefinitions_complete fields) .any (.close same)

theorem interfaceTypeDefinition_complete :
    Complete input interfaceTypeDefinition (Grammar.interfaceTypeDefinition input.place) [] :=
  fun ⟨label, directed, fields, _⟩ _ =>
    .node (Grammar.word_begins "interface").parts fun _ same =>
      .expectKeyword <| .bind (name_complete label) .any <|
      .bind (constDirectives_complete directed)
        (.begins (Grammar.any_begins fields).parts (by decide)) <|
      .bind (fieldDefinitions_complete fields) .any (.close same)

theorem unionTypeDefinition_complete :
    Complete input unionTypeDefinition (Grammar.unionTypeDefinition input.place)
      [.punctuator .pipe] :=
  fun ⟨label, directed, types, _⟩ _ =>
    .node (Grammar.word_begins "union").parts fun _ same =>
      .expectKeyword <| .bind (name_complete label) .any <|
      .bind (constDirectives_complete directed)
        (.begins (Grammar.mark_begins .equals).parts (by decide)) <| .expectMark <|
      .bind (separatedByBars_complete namedType_complete Grammar.namedType_begins (by decide)
        (by decide) (List.nil_subset _) (List.mem_singleton_self _) types)
        (.nil (by decide)) (.close same)

theorem enumValueDefinition_complete :
    Complete input enumValueDefinition (Grammar.enumValueDefinition input.place) moreDirectives :=
  fun ⟨label, directed, _⟩ _ => .node (Grammar.name_begins label).parts fun _ same =>
    .bind (name_complete label) .any <|
      .bind (constDirectives_complete directed) (.nil (by decide)) (.close same)

theorem enumTypeDefinition_complete :
    Complete input enumTypeDefinition (Grammar.enumTypeDefinition input.place) [] :=
  fun ⟨label, directed, values, _⟩ _ =>
    .node (Grammar.word_begins "enum").parts fun _ same =>
      .expectKeyword <| .bind (name_complete label) .any <|
      .bind (constDirectives_complete directed)
        (.begins (Grammar.many_begins values).parts (by decide)) <|
      .bind (many_complete enumValueDefinition_complete Grammar.enumValueDefinition_begins
        (by decide) (by decide) (by decide) values) .any (.close same)

theorem inputObjectTypeDefinition_complete :
    Complete input inputObjectTypeDefinition (Grammar.inputObjectTypeDefinition input.place) [] :=
  fun ⟨label, directed, fields, _⟩ _ =>
    .node (Grammar.word_begins "input").parts fun _ same =>
      .expectKeyword <| .bind (name_complete label) .any <|
      .bind (constDirectives_complete directed)
        (.begins (Grammar.any_begins fields).parts (by decide)) <|
      .bind (any_complete inputValueDefinition_complete Grammar.inputValueDefinition_begins
        (by decide) (by decide) (by decide) fields) .any (.close same)

theorem typeExtension_complete :
    Complete input typeExtension (Grammar.typeExtension input.place) [] :=
  fun ⟨definition, _⟩ _ => .node (Grammar.word_begins "extend").parts fun _ same =>
    .expectKeyword <| .bind (objectTypeDefinition_complete definition) .any (.close same)

theorem directiveDefinition_complete :
    Complete input directiveDefinition (Grammar.directiveDefinition input.place)
      [.punctuator .pipe] :=
  fun ⟨label, arguments, locations, _⟩ _ =>
    .node (Grammar.word_begins "directive").parts fun _ same =>
      .expectKeyword <| .expectMark <| .bind (name_complete label) .any <|
      .bind (argumentDefinitions_complete arguments)
        (.begins (Grammar.word_begins "on").parts (by decide)) <| .expectKeyword <|
      .bind (separatedByBars_complete name_complete Grammar.name_begins (by decide) (by decide)
        (List.nil_subset _) (List.mem_singleton_self _) locations) (.nil (by decide)) (.close same)

/-- What a definition may go on with. -/
def moreDefinition : List Lexeme.Kind :=
  [.punctuator .atSign, .punctuator .parenL, .punctuator .pipe]

/-- Operations are met by one of three words or, as their selections alone, by a brace. -/
theorem operation_complete (of : OperationDefinition) :
    Reads input last definition (.operation of) (Grammar.operationDefinition input.place of)
      moreDefinition := by
  have read : Reads input last (do return Definition.operation (← operationDefinition))
      (.operation of) (Grammar.operationDefinition input.place of) moreDefinition :=
    (operationDefinition_complete.map (by decide))
  intro state tokens holds passes free
  rw [← read state tokens holds passes free, definition, lexeme_apply]
  rcases holds with short | long
  · rw [(Heads.begins (Grammar.selectionSet_begins of.selectionSet)).node.eq short.2 passes]
  · rw [Heads.lexeme.node.eq long passes]
    cases of.operation <;> rfl

theorem definition_complete :
    Complete input definition (Grammar.definition input.place) moreDefinition := by
  intro of last
  rcases of with of | of | of | (of | of | of | of | of | of) | of | of
  · exact operation_complete of
  · exact .lexeme Heads.lexeme.node (fragmentDefinition_complete.map (by decide))
  · exact .lexeme Heads.lexeme.node (schemaDefinition_complete.map (by decide))
  · exact .lexeme Heads.lexeme.node (scalarTypeDefinition_complete.map (by decide))
  · exact .lexeme Heads.lexeme.node (objectTypeDefinition_complete.map (by decide))
  · exact .lexeme Heads.lexeme.node (interfaceTypeDefinition_complete.map (by decide))
  · exact .lexeme Heads.lexeme.node (unionTypeDefinition_complete.map (by decide))
  · exact .lexeme Heads.lexeme.node (enumTypeDefinition_complete.map (by decide))
  · exact .lexeme Heads.lexeme.node (inputObjectTypeDefinition_complete.map (by decide))
  · exact .lexeme Heads.lexeme.node (typeExtension_complete.map (by decide))
  · exact .lexeme Heads.lexeme.node (directiveDefinition_complete.map (by decide))

end GraphQL.Parser
