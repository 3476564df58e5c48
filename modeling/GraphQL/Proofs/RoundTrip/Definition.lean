import GraphQL.Parser.TypeSystem
import GraphQL.Proofs.RoundTrip.Selection

/-! Operations, fragments and definitions of the type system have forms. Each is told by the
word or brace that it starts with. -/
namespace GraphQL.Parser
open Ast Layout

variable {l : Lexeme} {ls ms k : List Lexeme}

/-! Default values -/

/-- The lexemes of an optional default value. -/
def DefaultForm (value : Option Value) (ls : List Lexeme) : Prop :=
  (value = none ∧ ls = []) ∨ ∃ v vs, value = some v ∧ ls = .punctuator .equals :: vs ∧
    Full (Parser.value true maxDepth) Value.text valueStarts [] v vs

theorem defaultValue_ensures : Ensures defaultValue fun value => ∃ ls, DefaultForm value ls := by
  refine (skip_ensures _).bind fun _ _ => .ite (fun _ => (value_ensures true maxDepth).bind ?_)
    fun _ => .pure ⟨[], .inl ⟨rfl, rfl⟩⟩
  rintro v ⟨vs, full⟩
  exact .pure ⟨_, .inr ⟨v, vs, rfl, rfl, full⟩⟩

theorem DefaultForm.form {value : Option Value} (form : DefaultForm value ls) {before : String}
    (closed : Closed before [.punctuator .equals]) :
    Form defaultValue (fun value => wrap before (optionalValueText value) "")
      [.punctuator .equals] [.punctuator .equals] value ls := by
  rcases form with ⟨rfl, rfl⟩ | ⟨v, vs, rfl, rfl, full⟩
  · exact ⟨.empty, .nil, fun m k free => (Yields.noSkipMark (by simpa using free)).bind .pure⟩
  · have wrapped := wrap_spells closed full.spells .empty (by decide) fun none =>
      absurd none full.nonempty
    rw [around, if_neg full.nonempty, List.append_nil] at wrapped
    refine ⟨wrapped, .cons List.mem_cons_self, fun m k _ => (Yields.skipMark (by simp)).bind ?_⟩
    rw [if_pos rfl]
    exact (full.yields m k (by simp)).bind .pure

/-! Operations -/

theorem operationType_form (operation : OperationType) :
    Full operationType OperationType.text [.name] [] operation [.name operation.text] where
  spells := by
    refine .name ?_
    cases operation <;> exact keyword_spelled rfl (by decide) (by decide)
  opens := .cons List.mem_cons_self
  nonempty := by simp
  yields m k _ := by
    have word : Yields (expect .name) (.name operation.text :: m :: k) () (m :: k) :=
      .expect rfl (by simp)
    refine .current fun token same => word.bind ?_
    rw [same]
    cases operation <;> exact .pure

theorem operationType_ensures : Ensures operationType fun _ => True := by
  refine current_ensures.bind fun token _ => (expect_ensures _).bind fun _ _ => ?_
  split
  · exact .pure trivial
  · exact faultAt_ensures _ _

/-- The kinds that may not stand behind a type and a default value. -/
def afterDefault : List Lexeme.Kind := [.punctuator .bang, .punctuator .equals]

theorem equals_closed : Closed " = " [.punctuator .equals] := by
  have equals := (Closed.blanks " " (by decide)).append_closed (Closed.spaced .equals)
  exact equals.spelled (by decide)

theorem variableDefinition_ensures : Ensures variableDefinition (Formed variableDefinition
    VariableDefinition.text [.punctuator .dollar] afterDefault) := by
  refine start_ensures.bind fun start _ => variableName_ensures.bind ?_
  rintro target ⟨plain, noSpan⟩
  refine (expect_ensures _).bind fun _ _ => (typeAnnotation_ensures maxDepth).bind ?_
  rintro type ⟨lts, typed⟩
  refine defaultValue_ensures.bind ?_
  rintro value ⟨lvs, default⟩
  refine (spanFrom_ensures start).bind ?_
  rintro _ rfl
  have form := default.form equals_closed
  have target := variableName_form plain noSpan
  refine .pure ⟨_ ++ (.punctuator .colon :: (lts ++ lvs)), {
    spells := ?_
    opens := target.opens.append target.nonempty
    nonempty := by simp
    yields := fun m k free => ?_ }⟩
  · have typeSpells := typed.spells.append form.spells
      (wrap_apart (by decide) (by decide))
    have labelled := labelled_spells plain typeSpells
    have dollar : Closed "$" [.punctuator .dollar] := .mark .dollar
    simpa [VariableDefinition.text, String.append_assoc] using dollar.append labelled
  · simp only [afterDefault, List.mem_cons, List.not_mem_nil, or_false, not_or] at free
    simp only [List.cons_append, List.nil_append, List.append_assoc]
    refine .start fun start => (target.yields _ _ (by simp)).bind ?_
    refine (Yields.expectMark (by simp)).bind ?_
    refine (typed.before form.opens (by decide) (by simp [free]) k).bind ?_
    exact (form.yields m k (by simp [free])).bind (.node start)

/-! Operations and fragments -/

theorem words_spell {parts : List String} {lss : List (List Lexeme)}
    (spells : List.Forall₂ Spells parts lss) : Spells (join parts " ") lss.flatten :=
  join_spells _ (.blanks _ (by decide)) (by decide) (by decide) spells

def optionalNameText (name : Option Name) : String := (name.map Name.text).getD ""

theorem optionalName_ensures :
    Ensures optionalName (Optional optionalName optionalNameText [.name] [.name]) := by
  refine (sees_ensures _).bind fun _ _ => .ite (fun _ => name_ensures.bind fun n plain => .pure ?_)
    fun _ => .pure ⟨[], ⟨.empty, .nil, fun m k free => ?_⟩, fun _ => rfl⟩
  · refine ⟨[.name n.text], ⟨plain.spells, .cons List.mem_cons_self, fun m k _ => ?_⟩, nofun⟩
    refine (Yields.seen rfl).bind ?_
    rw [if_pos rfl]
    exact (name_yields plain (by simp)).bind .pure
  · exact (Yields.unseen (by simpa using free)).bind .pure

/-- A parser gives one answer. -/
theorem Yields.unique {α : Type} {p : Parser α} {a b : α} (one : Yields p (l :: ls) a ms)
    (other : Yields p (l :: ls) b k) : a = b := by
  have state : ∃ state : State, state.lexemes = l :: ls :=
    ⟨⟨⟨l, 0, 0⟩, ls.map (⟨·, 0, 0⟩), 0⟩, by simp [State.lexemes, Function.comp_def]⟩
  obtain ⟨state, ahead⟩ := state
  obtain ⟨_, first, -⟩ := one ⟨⟨"", ""⟩, none, false⟩ state ⟨rfl, rfl⟩ ahead
  obtain ⟨_, second, -⟩ := other ⟨⟨"", ""⟩, none, false⟩ state ⟨rfl, rfl⟩ ahead
  rw [first] at second
  cases second
  rfl

/-- A value without text is the one that is read from nothing. -/
theorem Form.eq_of_silent {α : Type} {p : Parser α} {text : α → String}
    {starts avoid : List Lexeme.Kind} {value nothing : α} (form : Form p text starts avoid value ls)
    (silent : text value = "") (empty : Form p text starts avoid nothing [])
    (free : l.kind ∉ avoid) : value = nothing := by
  have none := Spells.eq_nil (silent ▸ form.spells)
  subst none
  exact (form.yields l [] free).unique (empty.yields l [] free)

/-- The kinds that may not stand behind a definition. -/
def afterDefinition : List Lexeme.Kind :=
  [.punctuator .atSign, .punctuator .parenL, .punctuator .pipe]

/-- A definition that its first lexeme tells. -/
def Headed {α : Type} (p : Parser α) (text : α → String) (head : Lexeme) (value : α) : Prop :=
  ∃ ls, Full p text [head.kind] afterDefinition value (head :: ls)

/-- The lexemes that an operation starts with. -/
def OperationHead (l : Lexeme) : Prop :=
  l = .punctuator .braceL ∨ ∃ operation : OperationType, l = .name operation.text

theorem kind_punctuator {mark : Punctuator} (same : l.kind = .punctuator mark) :
    l = .punctuator mark := by
  cases l with
  | punctuator other => cases same; rfl
  | _ => cases same

/-- A selection set starts with its brace. -/
theorem set_starts {set : SelectionSet}
    (full : Full (selectionSet maxDepth) SelectionSet.text [.punctuator .braceL] [] set ls) :
    ∃ ms, ls = .punctuator .braceL :: ms := by
  obtain ⟨l, ms, rfl⟩ := List.exists_cons_of_ne_nil full.nonempty
  exact ⟨ms, by rw [kind_punctuator (List.mem_singleton.mp (full.opens l rfl))]⟩

theorem set_apart (set : SelectionSet) : Apart set.text := by
  cases set
  exact block_apart

theorem shorthand_headed {set : SelectionSet} (formed : SetFormed (selectionSet maxDepth) set) :
    Headed operationDefinition OperationDefinition.text (.punctuator .braceL)
      ⟨.query, none, [], [], set, none⟩ := by
  obtain ⟨ls, full⟩ := formed
  obtain ⟨ms, rfl⟩ := set_starts full
  refine ⟨ms, { full with
    spells := full.spells
    yields := fun m k _ => .start fun start => (Yields.seen rfl).bind ?_ }⟩
  rw [if_pos rfl]
  exact (full.yields m k (by simp)).bind (.node start)

theorem optionalName_none :
    Form optionalName optionalNameText [.name] [.name] none [] :=
  ⟨.empty, .nil, fun _ _ free => (Yields.unseen (by simpa using free)).bind .pure⟩

abbrev InputsForm : List VariableDefinition → List Lexeme → Prop :=
  Form (optionalMany .parenL variableDefinition .parenR)
    (fun ds => wrap "(" (join (ds.map VariableDefinition.text) ", ") ")")
    [.punctuator .parenL] [.punctuator .parenL]

theorem inputs_form {definitions : List VariableDefinition} {lss : List (List Lexeme)}
    (forms : List.Forall₂ (Full variableDefinition VariableDefinition.text [.punctuator .dollar]
      afterDefault) definitions lss) :
    InputsForm definitions (around [.punctuator .parenL] lss.flatten [.punctuator .parenR]) :=
  optionalMany_form forms (by decide) (by decide) (by decide)

/-- The printer leaves out the head of a query that has nothing in it. -/
theorem operation_headed {operation : OperationType} {name : Option Name}
    {definitions : List VariableDefinition} {ds : List Directive} {set : SelectionSet}
    (named : Optional optionalName optionalNameText [.name] [.name] name)
    (formed : ∀ d ∈ definitions, Formed variableDefinition VariableDefinition.text
      [.punctuator .dollar] afterDefault d)
    (directed : DirectivesFormed false maxDepth ds) (setFormed : SetFormed (selectionSet maxDepth) set) :
    ∃ l, OperationHead l ∧ Headed operationDefinition OperationDefinition.text l
      ⟨operation, name, definitions, ds, set, none⟩ := by
  obtain ⟨lns, nameForm, -⟩ := named
  obtain ⟨lds, directives, -⟩ := directed
  obtain ⟨lins, inputs⟩ : ∃ lins, InputsForm definitions lins := by
    obtain ⟨lss, forms⟩ := exists_forall₂ formed
    exact ⟨_, inputs_form forms⟩
  by_cases short : ((optionalNameText name).isEmpty && (wrap "(" (join
      (definitions.map VariableDefinition.text) ", ") ")").isEmpty && (directivesText ds).isEmpty &&
      operation == .query) = true
  · simp only [Bool.and_eq_true, String.isEmpty_iff, beq_iff_eq] at short
    obtain ⟨⟨⟨noName, noInputs⟩, noDirectives⟩, rfl⟩ := short
    cases nameForm.eq_of_silent (l := .finish) noName optionalName_none (by decide)
    cases inputs.eq_of_silent (l := .finish) noInputs
      (inputs_form .nil) (by decide)
    cases directives.eq_of_silent (l := .finish) noDirectives (directives_form .nil) (by decide)
    exact ⟨_, .inl rfl, shorthand_headed setFormed⟩
  · obtain ⟨lset, full⟩ := setFormed
    have type := operationType_form operation
    have behind := directives.opens.both full.opens
    refine ⟨_, .inr ⟨operation, rfl⟩, lns ++ (lins ++ (lds ++ lset)), {
      spells := ?_
      opens := .cons List.mem_cons_self
      nonempty := by simp
      yields := fun m k free => ?_ }⟩
    · have head := nameForm.spells.append inputs.spells (wrap_apart (by decide) (by decide))
      have joined := words_spell (.cons type.spells (.cons head
        (.cons directives.spells (.cons full.spells .nil))))
      have written : OperationDefinition.text ⟨operation, name, definitions, ds, set, none⟩ = _ :=
        if_neg short
      rw [written]
      simpa [optionalNameText] using joined
    · simp only [List.cons_append, List.append_assoc]
      refine .start fun start => (Yields.unseen (by simp [Lexeme.kind])).bind ?_
      rw [if_neg (by decide)]
      have some : lds ++ lset ≠ [] := by simp [full.nonempty]
      have typeRead := type.before_some (nameForm.opens.both (inputs.opens.both behind))
        (by simp [full.nonempty]) (by decide) (m :: k)
      have nameRead := nameForm.before_some (inputs.opens.both behind) (by simp [full.nonempty])
        (by decide) (m :: k)
      have inputsRead := inputs.before_some behind some (by decide) (m :: k)
      have directivesRead :=
        directives.before_some full.opens full.nonempty (by decide) (m :: k)
      simp only [List.append_assoc, List.cons_append, List.nil_append] at typeRead nameRead inputsRead
      refine typeRead.bind (nameRead.bind (inputsRead.bind (directivesRead.bind ?_)))
      exact (full.yields m k (by simp)).bind (.node start)

theorem operationDefinition_ensures : Ensures operationDefinition fun d =>
    ∃ l, OperationHead l ∧ Headed operationDefinition OperationDefinition.text l d := by
  refine start_ensures.bind fun start _ => (sees_ensures _).bind fun _ _ =>
    .ite (fun _ => ?_) fun _ => ?_
  · refine (selectionSet_ensures maxDepth).bind fun set formed => (spanFrom_ensures start).bind ?_
    rintro _ rfl
    exact .pure ⟨_, .inl rfl, shorthand_headed formed⟩
  · refine operationType_ensures.bind fun operation _ => optionalName_ensures.bind fun name named =>
      (optionalMany_ensures _ _ variableDefinition_ensures).bind fun definitions formed =>
        (directives_ensures false maxDepth).bind fun ds directed =>
          (selectionSet_ensures maxDepth).bind fun set setFormed => (spanFrom_ensures start).bind ?_
    rintro _ rfl
    exact .pure (operation_headed named formed directed setFormed)

theorem fragmentDefinition_ensures : Ensures fragmentDefinition
    (Headed fragmentDefinition FragmentDefinition.text (.name "fragment")) := by
  refine start_ensures.bind fun start _ => (expectKeyword_ensures _).bind fun _ _ =>
    fragmentName_ensures.bind ?_
  rintro n ⟨plain, notOn⟩
  refine (expectKeyword_ensures _).bind fun _ _ => namedType_ensures.bind ?_
  rintro type ⟨plainType, noSpan⟩
  refine (directives_ensures false maxDepth).bind ?_
  rintro ds ⟨lds, directives, visible⟩
  refine (selectionSet_ensures maxDepth).bind ?_
  rintro set ⟨lset, full⟩
  refine (spanFrom_ensures start).bind ?_
  rintro _ rfl
  have typeForm := namedType_form plainType noSpan
  refine .pure ⟨.name n.text :: .name "on" :: .name type.name.text :: (lds ++ lset), {
    spells := ?_
    opens := .cons List.mem_cons_self
    nonempty := by simp
    yields := fun m k _ => ?_ }⟩
  · have behind := (wrap_blank_spells (.blanks "" (by decide))
      directives.spells (Closed.blanks " " (by decide)).spells (by decide) visible).append full.spells
      (set_apart set)
    have named := name_spells plain (word_spells "on" rfl (by decide) (by decide)
      (name_spells plainType behind))
    have word : "fragment " = "fragment" ++ " " := rfl
    have on : " on " = " " ++ ("on" ++ " ") := rfl
    simp only [FragmentDefinition.text, word, on, String.append_assoc]
    exact word_spells _ rfl (by decide) (by decide) named
  · simp only [List.cons_append, List.append_assoc]
    refine .start fun start => (Yields.expectKeyword (by simp)).bind ?_
    refine (fragmentName_yields plain notOn (by simp)).bind ?_
    refine (Yields.expectKeyword (by simp)).bind ?_
    have typeRead := typeForm.before_some (directives.opens.both full.opens)
      (by simp [full.nonempty]) (by decide) (m :: k)
    simp only [List.append_assoc, List.cons_append, List.nil_append] at typeRead
    refine typeRead.bind ?_
    refine (directives.before_some full.opens full.nonempty (by decide) (m :: k)).bind ?_
    exact (full.yields m k (by simp)).bind (.node start)

end GraphQL.Parser
