import GraphQL.Proofs.Locations.Faithful
import GraphQL.Proofs.Parser.Counted

/-! The parser always returns, and at bounded depth. From any place of any text each production ends
at the depth it began at and behind at least one token, or fails; no loop and no recursion stalls. -/
namespace GraphQL.Parser
open Ast

namespace Counted

/-- The productions: how many tokens they take at least, and what they do with so many levels left. -/
inductive Production : {α : Type} → Nat → Nat → Counted α → Parser α → Prop
  | name (left : Nat) : Production 1 left (lift Parser.name) Parser.name
  | variableName (left : Nat) : Production 1 left (lift Parser.variableName) Parser.variableName
  | namedType (left : Nat) : Production 1 left (lift Parser.namedType) Parser.namedType
  | fragmentName (left : Nat) : Production 1 left (lift Parser.fragmentName) Parser.fragmentName
  | optionalName (left : Nat) : Production 0 left (lift Parser.optionalName) Parser.optionalName
  | fieldLabel (left : Nat) : Production 1 left (lift Parser.fieldLabel) Parser.fieldLabel
  | typeCondition (left : Nat) : Production 0 left (lift Parser.typeCondition) Parser.typeCondition
  | operationType (left : Nat) : Production 1 left (lift Parser.operationType) Parser.operationType
  | value (isConst : Bool) (left : Nat) :
      Production 1 left (value isConst) (Parser.value isConst left)
  | objectField (isConst : Bool) (seen : List String) (left : Nat) : Production 1 left
      (objectField (Counted.value isConst) seen) (Parser.objectField (Parser.value isConst left) seen)
  | argument (isConst : Bool) (left : Nat) :
      Production 1 left (argument isConst) (Parser.argument isConst left)
  | arguments (isConst : Bool) (left : Nat) :
      Production 0 left (arguments isConst) (Parser.arguments isConst left)
  | directive (isConst : Bool) (left : Nat) :
      Production 1 left (directive isConst) (Parser.directive isConst left)
  | directives (isConst : Bool) (left : Nat) :
      Production 0 left (directives isConst) (Parser.directives isConst left)
  | typeAnnotation (left : Nat) : Production 1 left typeAnnotation ( Parser.typeAnnotation left)
  | selectionSet (left : Nat) : Production 1 left selectionSet (Parser.selectionSet left)
  | optionalSelectionSet (left : Nat) : Production 0 left
      (optionalSelectionSet Counted.selectionSet) (Parser.optionalSelectionSet (Parser.selectionSet left))
  | field (left : Nat) :
      Production 1 left (field Counted.selectionSet) (Parser.field (Parser.selectionSet left) left)
  | fragmentSelection (left : Nat) : Production 1 left
      (fragmentSelection Counted.selectionSet) (Parser.fragmentSelection (Parser.selectionSet left) left)
  | selection (left : Nat) : Production 1 left
      (selection Counted.selectionSet) (Parser.selection (Parser.selectionSet left) left)
  | defaultValue : Production 0 maxDepth defaultValue Parser.defaultValue
  | variableDefinition : Production 1 maxDepth variableDefinition Parser.variableDefinition
  | variableDefinitions : Production 0 maxDepth
      (optionalMany .parenL variableDefinition .parenR)
      (Parser.optionalMany .parenL Parser.variableDefinition .parenR)
  | operationDefinition : Production 1 maxDepth operationDefinition Parser.operationDefinition
  | fragmentDefinition : Production 1 maxDepth fragmentDefinition Parser.fragmentDefinition
  | operationTypeDefinition (left : Nat) :
      Production 1 left (lift Parser.operationTypeDefinition) Parser.operationTypeDefinition
  | schemaDefinition : Production 1 maxDepth schemaDefinition Parser.schemaDefinition
  | inputValueDefinition : Production 1 maxDepth inputValueDefinition Parser.inputValueDefinition
  | argumentDefinitions : Production 0 maxDepth argumentDefinitions Parser.argumentDefinitions
  | fieldDefinition : Production 1 maxDepth fieldDefinition Parser.fieldDefinition
  | fieldDefinitions : Production 1 maxDepth fieldDefinitions Parser.fieldDefinitions
  | scalarTypeDefinition : Production 1 maxDepth scalarTypeDefinition Parser.scalarTypeDefinition
  | implementedInterfaces : Production 0 maxDepth implementedInterfaces Parser.implementedInterfaces
  | objectTypeDefinition : Production 1 maxDepth objectTypeDefinition Parser.objectTypeDefinition
  | interfaceTypeDefinition :
      Production 1 maxDepth interfaceTypeDefinition Parser.interfaceTypeDefinition
  | unionTypeDefinition : Production 1 maxDepth unionTypeDefinition Parser.unionTypeDefinition
  | enumValueDefinition : Production 1 maxDepth enumValueDefinition Parser.enumValueDefinition
  | enumTypeDefinition : Production 1 maxDepth enumTypeDefinition Parser.enumTypeDefinition
  | inputObjectTypeDefinition :
      Production 1 maxDepth inputObjectTypeDefinition Parser.inputObjectTypeDefinition
  | typeExtension : Production 1 maxDepth typeExtension Parser.typeExtension
  | directiveDefinition : Production 1 maxDepth directiveDefinition Parser.directiveDefinition
  | definition : Production 1 maxDepth definition Parser.definition
  | document : Production 0 maxDepth document Parser.document

/-- How a counted parser reads a text, and how deep it is at the end and has been. -/
structure Report (α : Type) where
  answer : Except Stop α
  depth : Nat
  peak : Nat

/-- Runs a counted parser from the first token of a text. -/
def run {α : Type} (p : Counted α) (source : Source) (locations : Bool) (limit : Nat) : Report α :=
  match source.tokens.tokens, source.tokens.failure with
  | first :: rest, failure =>
      let (answer, last) := p ⟨⟨source, failure, locations⟩, limit⟩ ⟨⟨first, rest, 0⟩, 0, 0⟩
      ⟨answer, last.depth, last.peak⟩
  | [], some error => ⟨.error (.fault error), 0, 0⟩
  | [], none => ⟨.error (.fault ⟨source, 0, .unexpectedLexeme .finish⟩), 0, 0⟩

variable {α : Type} {least left : Nat} {p : Counted α} {q : Parser α}

/-- Productions do what plain ones do, and take a token if they have to. -/
theorem Production.counts (production : Production least left p q) (gauge : Gauge) :
    CountsAt gauge (fun _ next => next.tokens.length + least ≤ gauge.state.tokens.length) left p q := by
  suffices either : (least = 1 ∧ ∀ bound, Takes bound left p q) ∨
      (least = 0 ∧ ∀ bound, Idles bound left p q) by
    rcases either with ⟨rfl, takes⟩ | ⟨rfl, idles⟩
    · have counts := takes _ gauge.state.rest.length (Nat.lt_succ_self _)
      exact counts.mono (fun _ => id) (fun _ _ => Nat.succ_le_succ) gauge (Nat.le_refl _)
    · exact idles _ gauge (Nat.le_refl _)
  cases production with
  | name => exact .inl ⟨rfl, fun _ _ _ => .lift name_straight⟩
  | variableName => exact .inl ⟨rfl, fun _ _ _ => .lift variableName_straight⟩
  | namedType => exact .inl ⟨rfl, fun _ => namedType_takes⟩
  | fragmentName => exact .inl ⟨rfl, fun _ _ _ => .lift fragmentName_straight⟩
  | optionalName => exact .inr ⟨rfl, fun _ => .lift optionalName_straight⟩
  | fieldLabel => exact .inl ⟨rfl, fun _ _ _ => .lift fieldLabel_straight⟩
  | typeCondition => exact .inr ⟨rfl, fun _ => .lift typeCondition_straight⟩
  | operationType => exact .inl ⟨rfl, fun _ _ _ => .lift operationType_straight⟩
  | value isConst => exact .inl ⟨rfl, fun _ => value_takes isConst⟩
  | objectField isConst seen => exact .inl ⟨rfl, fun _ => (value_takes isConst).objectField seen⟩
  | argument isConst => exact .inl ⟨rfl, fun _ => argument_takes isConst⟩
  | arguments isConst => exact .inr ⟨rfl, fun _ => arguments_idles isConst⟩
  | directive isConst => exact .inl ⟨rfl, fun _ => directive_takes isConst⟩
  | directives isConst => exact .inr ⟨rfl, fun _ => directives_idles isConst⟩
  | typeAnnotation => exact .inl ⟨rfl, fun _ => typeAnnotation_takes⟩
  | selectionSet => exact .inl ⟨rfl, fun _ => selectionSet_takes⟩
  | optionalSelectionSet => exact .inr ⟨rfl, fun _ => selectionSet_takes.optionalSelectionSet⟩
  | field => exact .inl ⟨rfl, fun _ => selectionSet_takes.field⟩
  | fragmentSelection => exact .inl ⟨rfl, fun _ => selectionSet_takes.fragmentSelection⟩
  | selection => exact .inl ⟨rfl, fun _ => selectionSet_takes.selection⟩
  | operationTypeDefinition => exact .inl ⟨rfl, fun _ _ _ => .lift operationTypeDefinition_straight⟩
  | defaultValue => exact .inr ⟨rfl, fun _ => defaultValue_idles⟩
  | variableDefinition => exact .inl ⟨rfl, fun _ => variableDefinition_takes⟩
  | variableDefinitions => exact .inr ⟨rfl, fun _ => variableDefinition_takes.optionalMany _ _⟩
  | operationDefinition => exact .inl ⟨rfl, fun _ => operationDefinition_takes⟩
  | fragmentDefinition => exact .inl ⟨rfl, fun _ => fragmentDefinition_takes⟩
  | schemaDefinition => exact .inl ⟨rfl, fun _ => schemaDefinition_takes⟩
  | inputValueDefinition => exact .inl ⟨rfl, fun _ => inputValueDefinition_takes⟩
  | argumentDefinitions => exact .inr ⟨rfl, fun _ => argumentDefinitions_idles⟩
  | fieldDefinition => exact .inl ⟨rfl, fun _ => fieldDefinition_takes⟩
  | fieldDefinitions => exact .inl ⟨rfl, fun _ _ _ => fieldDefinition_takes.any _ _⟩
  | scalarTypeDefinition => exact .inl ⟨rfl, fun _ => scalarTypeDefinition_takes⟩
  | implementedInterfaces => exact .inr ⟨rfl, fun _ => implementedInterfaces_idles⟩
  | objectTypeDefinition => exact .inl ⟨rfl, fun _ => objectTypeDefinition_takes⟩
  | interfaceTypeDefinition => exact .inl ⟨rfl, fun _ => interfaceTypeDefinition_takes⟩
  | unionTypeDefinition => exact .inl ⟨rfl, fun _ => unionTypeDefinition_takes⟩
  | enumValueDefinition => exact .inl ⟨rfl, fun _ => enumValueDefinition_takes⟩
  | enumTypeDefinition => exact .inl ⟨rfl, fun _ => enumTypeDefinition_takes⟩
  | inputObjectTypeDefinition => exact .inl ⟨rfl, fun _ => inputObjectTypeDefinition_takes⟩
  | typeExtension => exact .inl ⟨rfl, fun _ => typeExtension_takes⟩
  | directiveDefinition => exact .inl ⟨rfl, fun _ => directiveDefinition_takes⟩
  | definition => exact .inl ⟨rfl, fun _ => definition_takes⟩
  | document => exact .inr ⟨rfl, fun _ => document_idles⟩

theorem run_cons {source : Source} {locations : Bool} {limit : Nat} {first : Token}
    {rest : List Token} (tokens : source.tokens.tokens = first :: rest) :
    p.run source locations limit =
      let ending := p ⟨⟨source, source.tokens.failure, locations⟩, limit⟩ ⟨⟨first, rest, 0⟩, 0, 0⟩
      ⟨ending.1, ending.2.depth, ending.2.peak⟩ := by
  simp only [run, tokens]
  rfl

theorem run_nil {source : Source} {locations : Bool} {limit : Nat}
    (tokens : source.tokens.tokens = []) : p.run source locations limit =
      ⟨.error (.fault (source.tokens.failure.getD ⟨source, 0, .unexpectedLexeme .finish⟩)), 0, 0⟩ := by
  cases lexed : source.tokens.failure <;> simp only [run, tokens, lexed] <;> rfl

/-- A counted parser reads a text as a reader does. It returns from all levels, and was in no more
than the limit. Under a higher limit it answers the same if it needs no more levels, and the reader
finds the text nested too deeply if it does. -/
structure Bounded (p : Counted α) (source : Source) (locations : Bool)
    (reads : Except SyntaxError α) : Prop where
  same : (p.run source locations maxDepth).answer = reads.mapError .fault
  moves : ∀ limit, (p.run source locations limit).answer ≠ .error .stalled
  returns : ∀ limit, (p.run source locations limit).depth = 0
  bounded : ∀ limit, (p.run source locations limit).peak ≤ limit
  flat : ∀ limit, maxDepth ≤ limit → (p.run source locations limit).peak ≤ maxDepth →
    (p.run source locations limit).answer = reads.mapError .fault
  deep : ∀ limit, maxDepth < (p.run source locations limit).peak →
    ∃ position, reads = .error ⟨source, position, .nestingTooDeep⟩

/-- At the tokens of a text the end is the last one, where the text is scanned to its end. -/
theorem sealed_of_suffix {source : Source} {locations : Bool} {state : State}
    (behind : state.tokens <:+ source.tokens.tokens) :
    (Input.mk source source.tokens.failure locations).Sealed state := by
  intro whole before token after split
  obtain ⟨front, tokens⟩ := behind
  apply (source.tokens_ended whole).last (front ++ before)
  rw [← tokens, split, List.append_assoc]

theorem answer_eq {ε δ σ : Type} {f : ε → δ} {plain : Except ε (α × σ)} {counted : Except δ α}
    {state : σ} (same : plain.mapError f = counted.map ((·, state))) :
    counted = (plain.map Prod.fst).mapError f := by
  cases plain <;> cases counted <;> cases same <;> rfl

theorem bounded_of_idles (idles : ∀ bound, Idles bound maxDepth p q) (source : Source)
    (locations : Bool) : Bounded p source locations (q.run source locations) := by
  cases tokens : source.tokens.tokens with
  | nil =>
    have reads : q.run source locations = _ := Parser.run_nil tokens
    constructor <;> simp only [run_nil tokens, reads]
    · rfl
    · exact fun _ => nofun
    · exact fun _ => trivial
    · exact Nat.zero_le
    · exact fun _ _ _ => rfl
    · exact fun _ => nofun
  | cons first rest =>
    have reads : q.run source locations = _ := Parser.run_cons tokens
    have sealed : (Input.mk source source.tokens.failure locations).Sealed ⟨first, rest, 0⟩ :=
      sealed_of_suffix (tokens ▸ List.suffix_refl _)
    have here := idles _ ⟨⟨first, rest, 0⟩, 0, 0⟩ (Nat.le_refl _)
    have kept (limit : Nat) := here.keeps ⟨_, limit⟩ sealed
    have same := answer_eq (here.agrees ⟨_, maxDepth⟩ sealed (Nat.zero_add _).symm)
    have bounded (limit : Nat) := (kept limit).bounded.trans_eq (Nat.zero_max limit)
    have cut (limit : Nat) (above : maxDepth ≤ limit) :=
      here.cut _ maxDepth limit sealed above (Nat.zero_le _) (Nat.zero_le _)
    constructor <;> simp only [run_cons tokens, reads]
    · exact same
    · exact fun limit => (kept limit).moves
    · exact fun limit => (kept limit).depth
    · exact bounded
    · intro limit above low
      rw [← (cut limit above).same low]
      exact same
    · intro limit deep
      obtain ⟨position, last, failed⟩ := (cut limit (deep.trans_le (bounded limit)).le).deep deep
      rw [failed] at same
      refine ⟨position, ?_⟩
      cases run : (q ⟨source, source.tokens.failure, locations⟩ ⟨first, rest, 0⟩).map Prod.fst with
      | ok value =>
        rw [run] at same
        cases same
      | error error =>
        rw [run] at same
        cases same
        rfl

theorem alone_idles {left bound : Nat} (idles : Idles bound left p q) :
    Idles bound left (Counted.alone p) (Parser.alone q) :=
  idles.bind fun _ => .bind (.lift (expect_idle _)) fun _ => .pure

end Counted

/-- The parser always returns, and at bounded depth: wherever a production starts, and whole texts. -/
theorem parser_bounded (source : Source) (locations : Bool) :
    (∀ (α : Type) (least left : Nat) (p : Counted α) (q : Parser α),
      Counted.Production least left p q → ∀ limit gauge, gauge.state.tokens <:+ source.tokens.tokens →
        let input := ⟨source, source.tokens.failure, locations⟩
        let ending := p ⟨input, limit⟩ gauge
        Kept (fun _ next => next.tokens.length + least ≤ gauge.state.tokens.length) limit gauge ending ∧
          (limit = gauge.depth + left →
            (q input gauge.state).mapError .fault = ending.1.map ((·, ending.2.state)))) ∧
    Counted.Bounded Counted.document source locations (source.parseDocument locations) ∧
    Counted.Bounded (Counted.alone (Counted.value false)) source locations
      (source.parseValue locations) ∧
    Counted.Bounded (Counted.alone Counted.typeAnnotation) source locations
      (source.parseType locations) := by
  refine ⟨fun α least left p q production limit gauge behind => ?_, ?_, ?_, ?_⟩
  · have counts := production.counts gauge
    have sealed : (Input.mk source source.tokens.failure locations).Sealed gauge.state :=
      Counted.sealed_of_suffix behind
    exact ⟨counts.keeps ⟨_, limit⟩ sealed, counts.agrees ⟨_, limit⟩ sealed⟩
  · exact Counted.bounded_of_idles (fun _ => document_idles) source locations
  · apply Counted.bounded_of_idles
    exact fun _ => Counted.alone_idles (value_takes false).idles
  · apply Counted.bounded_of_idles
    exact fun _ => Counted.alone_idles typeAnnotation_takes.idles

/-- A list of a list. -/
def nestedLists : Source := { body := "[[]]" }

/-- The list is read with the levels that it nests, and takes tokens. -/
theorem nestedLists_bounded :
    (let gauge : Gauge := ⟨⟨⟨.punctuator .bracketL, 0, 1⟩, [⟨.punctuator .bracketL, 1, 2⟩,
        ⟨.punctuator .bracketR, 2, 3⟩, ⟨.punctuator .bracketR, 3, 4⟩, ⟨.finish, 4, 4⟩], 0⟩, 0, 0⟩
      let ending := Counted.value true ⟨⟨nestedLists, none, true⟩, 1⟩ gauge
      Kept (fun _ next => next.tokens.length + 1 ≤ 5) 1 gauge ending ∧
        (value true 1 ⟨nestedLists, none, true⟩ gauge.state).mapError .fault =
          ending.1.map ((·, ending.2.state))) ∧
    ((Counted.alone (Counted.value false)).run nestedLists true 200).depth = 0 ∧
    ((Counted.alone (Counted.value false)).run nestedLists true 200).peak ≤ 200 := by
  obtain ⟨productions, -, values, -⟩ := parser_bounded nestedLists true
  have here := productions _ _ _ _ _ (.value true 1) 1 ⟨⟨⟨.punctuator .bracketL, 0, 1⟩,
    [⟨.punctuator .bracketL, 1, 2⟩, ⟨.punctuator .bracketR, 2, 3⟩, ⟨.punctuator .bracketR, 3, 4⟩,
      ⟨.finish, 4, 4⟩], 0⟩, 0, 0⟩ (by decide +kernel)
  exact ⟨⟨here.1, here.2 rfl⟩, values.returns 200, values.bounded 200⟩

end GraphQL.Parser
