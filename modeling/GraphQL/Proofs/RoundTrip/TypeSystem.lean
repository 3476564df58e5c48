import GraphQL.Parser.TypeSystem
import GraphQL.Proofs.RoundTrip.Definition

/-! Definitions of the type system have forms. Most of them are a word, a name, directives and
a body; the body says what may follow. -/
namespace GraphQL.Parser
open Ast Layout

variable {α : Type} {l : Lexeme} {ls ms k : List Lexeme}

theorem keyword_spells (word : String) {c : Char} {cs : List Char} (chars : word.toList = c :: cs)
    (start : Lexer.isNameStart c = true) (more : cs.all Lexer.isNameRest = true) :
    Spells word [.name word] := .name (keyword_spelled chars start more)

abbrev ConstDirected : List Directive → Prop := DirectivesFormed true maxDepth

theorem constDirectives_ensures : Ensures constDirectives ConstDirected :=
  directives_ensures true maxDepth

/-! Items between braces -/

section Blocks
variable {p : Parser α} {text : α → String} {starts avoid : List Lexeme.Kind} {values : List α}

abbrev BlockFormed (p : Parser (List α)) (text : α → String) : List α → Prop :=
  Formed p (fun values => block (values.map text)) [.punctuator .braceL] []

theorem manyBlock_ensures (item : Ensures p (Formed p text starts avoid))
    (apart : Disjoint starts avoid) (starting : .punctuator .braceR ∉ starts)
    (ending : .punctuator .braceR ∉ avoid) :
    Ensures (many .braceL p .braceR) (BlockFormed (many .braceL p .braceR) text) := by
  refine (many_ensures _ _ item).mono ?_
  rintro values ⟨some, formed⟩
  obtain ⟨lss, forms⟩ := exists_forall₂ formed
  exact ⟨_, many_form forms apart starting ending some (block_spells (forms_spell forms))⟩

theorem anyBlock_ensures (item : Ensures p (Formed p text starts avoid))
    (apart : Disjoint starts avoid) (starting : .punctuator .braceR ∉ starts)
    (ending : .punctuator .braceR ∉ avoid) :
    Ensures (any .braceL p .braceR) (BlockFormed (any .braceL p .braceR) text) := by
  refine (any_ensures _ _ item).mono fun values formed => ?_
  obtain ⟨lss, forms⟩ := exists_forall₂ formed
  exact ⟨_, any_form forms apart starting ending (block_spells (forms_spell forms))⟩

end Blocks

/-! Operation types, input values, fields -/

theorem operationTypeDefinition_ensures : Ensures operationTypeDefinition
    (Formed operationTypeDefinition OperationTypeDefinition.text [.name] []) := by
  refine start_ensures.bind fun start _ => operationType_ensures.bind fun operation _ =>
    (expect_ensures _).bind fun _ _ => namedType_ensures.bind ?_
  rintro type ⟨plain, noSpan⟩
  refine (spanFrom_ensures start).bind ?_
  rintro _ rfl
  have operationForm := operationType_form operation
  refine .pure ⟨[.name operation.text, .punctuator .colon, .name type.name.text], {
    spells := ?_
    opens := .cons List.mem_cons_self
    nonempty := by simp
    yields := fun m k _ => .start fun start => ?_ }⟩
  · have colon : Closed ": " [.punctuator .colon] := (Closed.spaced .colon).spelled (by decide)
    have written := operationForm.spells.append (colon.append plain.spells)
      (Apart.append (by decide) (by decide))
    simpa [OperationTypeDefinition.text, String.append_assoc] using written
  · refine (operationForm.yields _ _ (by simp)).bind ((Yields.expectMark (by simp)).bind ?_)
    exact ((namedType_form plain noSpan).yields m k (by simp)).bind (.node start)

/-- The kinds that may not stand behind an input value. -/
def afterInputValue : List Lexeme.Kind :=
  [.punctuator .bang, .punctuator .equals, .punctuator .atSign, .punctuator .parenL]

theorem inputValueDefinition_ensures : Ensures inputValueDefinition
    (Formed inputValueDefinition InputValueDefinition.text [.name] afterInputValue) := by
  refine start_ensures.bind fun start _ => name_ensures.bind fun n plain =>
    (expect_ensures _).bind fun _ _ => (typeAnnotation_ensures maxDepth).bind ?_
  rintro type ⟨lts, typed⟩
  refine defaultValue_ensures.bind ?_
  rintro value ⟨lvs, default⟩
  refine constDirectives_ensures.bind ?_
  rintro ds ⟨lds, directives, -⟩
  refine (spanFrom_ensures start).bind ?_
  rintro _ rfl
  have equals : Closed "= " [.punctuator .equals] := (Closed.spaced .equals).spelled (by decide)
  have form := default.form equals
  refine .pure ⟨.name n.text :: .punctuator .colon :: (lts ++ (lvs ++ lds)), {
    spells := ?_
    opens := .cons List.mem_cons_self
    nonempty := by simp
    yields := fun m k free => ?_ }⟩
  · simpa [InputValueDefinition.text] using words_spell (.cons (labelled_spells plain typed.spells)
      (.cons form.spells (.cons directives.spells .nil)))
  · simp only [afterInputValue, List.mem_cons, List.not_mem_nil, or_false, not_or] at free
    have typeRead := typed.before (form.opens.both directives.opens) (by decide)
      (l := m) (by simp [free]) k
    simp only [List.cons_append, List.append_assoc] at typeRead ⊢
    refine .start fun start => (name_yields plain (by simp)).bind ?_
    refine (Yields.expectMark (by simp)).bind (typeRead.bind ?_)
    refine (form.before directives.opens (by decide) (by simp [free]) k).bind ?_
    exact (directives.yields m k (by simp [afterDirectives, free])).bind (.node start)

theorem argumentDefinitions_ensures : Ensures argumentDefinitions
    (Optional argumentDefinitions inputValuesText [.punctuator .parenL] [.punctuator .parenL]) := by
  refine (optionalMany_ensures _ _ inputValueDefinition_ensures).mono fun values formed => ?_
  exact optionalMany_optional formed (by decide) (by decide) (by decide)

theorem inputValuesText_apart (inputs : List InputValueDefinition) :
    Apart (inputValuesText inputs) := wrap_apart (by decide) (by decide)

/-- The kinds that may not stand behind a field. -/
def afterField : List Lexeme.Kind := [.punctuator .bang, .punctuator .atSign, .punctuator .parenL]

theorem fieldDefinition_ensures : Ensures fieldDefinition
    (Formed fieldDefinition FieldDefinition.text [.name] afterField) := by
  refine start_ensures.bind fun start _ => name_ensures.bind fun n plain =>
    argumentDefinitions_ensures.bind ?_
  rintro as ⟨las, arguments, -⟩
  refine (expect_ensures _).bind fun _ _ => (typeAnnotation_ensures maxDepth).bind ?_
  rintro type ⟨lts, typed⟩
  refine constDirectives_ensures.bind ?_
  rintro ds ⟨lds, directives, visible⟩
  refine (spanFrom_ensures start).bind ?_
  rintro _ rfl
  refine .pure ⟨.name n.text :: (las ++ .punctuator .colon :: (lts ++ lds)), {
    spells := ?_
    opens := .cons List.mem_cons_self
    nonempty := by simp
    yields := fun m k free => ?_ }⟩
  · have behind := typed.spells.append (wrap_blank_spells (.blanks " " (by decide))
      directives.spells .empty (by decide) visible) (wrap_apart (by decide) (by decide))
    have colon : Closed ": " [.punctuator .colon] := (Closed.spaced .colon).spelled (by decide)
    have tail := arguments.spells.append (colon.append behind) (Apart.append (by decide) (by decide))
    have written := plain.spells.append tail
      ((inputValuesText_apart as).both (Apart.append (by decide) (by decide)))
    simpa [FieldDefinition.text, String.append_assoc] using written
  · simp only [afterField, List.mem_cons, List.not_mem_nil, or_false, not_or] at free
    simp only [List.cons_append, List.append_assoc]
    refine .start fun start => (name_yields plain (by simp)).bind ?_
    refine (arguments.yields _ _ (by decide)).bind ((Yields.expectMark (by simp)).bind ?_)
    refine (typed.before directives.opens (by decide) (by simp [free]) k).bind ?_
    exact (directives.yields m k (by simp [afterDirectives, free])).bind (.node start)

theorem fieldDefinitions_ensures :
    Ensures fieldDefinitions (BlockFormed fieldDefinitions FieldDefinition.text) :=
  anyBlock_ensures fieldDefinition_ensures (by decide) (by decide) (by decide)

/-! A word, a name, directives and a body -/

section Worded
variable {β : Type} {word : String} {body : Parser β} {bodyText : β → String} {text : α → String}
  {starts avoid : List Lexeme.Kind} {make : Name → List Directive → β → Option Span → α}

/-- What most definitions of types are. -/
def worded (word : String) (body : Parser β) (make : Name → List Directive → β → Option Span → α) :
    Parser α := do
  let start ← start
  expectKeyword word
  let name ← name
  let directives ← constDirectives
  let inner ← body
  return make name directives inner (← spanFrom start)

theorem worded_ensures (spelled : (Lexeme.name word).Spelled)
    (inner : Ensures body (Formed body bodyText starts avoid)) (apart : Disjoint starts afterDirectives)
    (behind : avoid ⊆ afterDefinition)
    (written : ∀ n ds b, text (make n ds b none) =
      join [word, n.text, directivesText ds, bodyText b] " ") :
    Ensures (worded word body make) (Headed (worded word body make) text (.name word)) := by
  refine start_ensures.bind fun start _ => (expectKeyword_ensures _).bind fun _ _ =>
    name_ensures.bind fun n plain => constDirectives_ensures.bind ?_
  rintro ds ⟨lds, directives, -⟩
  refine inner.bind ?_
  rintro b ⟨lbs, full⟩
  refine (spanFrom_ensures start).bind ?_
  rintro _ rfl
  refine .pure ⟨.name n.text :: (lds ++ lbs), {
    spells := ?_
    opens := .cons List.mem_cons_self
    nonempty := by simp
    yields := fun m k free => ?_ }⟩
  · rw [written]
    simpa using words_spell (.cons (.name spelled) (.cons plain.spells (.cons directives.spells
      (.cons full.spells .nil))))
  · simp only [List.cons_append, List.append_assoc]
    refine .start fun start => (Yields.expectKeyword (by simp)).bind ?_
    refine (name_yields plain (by simp)).bind ?_
    refine (directives.before_some full.opens full.nonempty apart (m :: k)).bind ?_
    exact (full.yields m k fun member => free (behind member)).bind (.node start)

end Worded

theorem interface_worded : interfaceTypeDefinition = worded "interface" fieldDefinitions .mk := rfl

theorem interfaceTypeDefinition_ensures : Ensures interfaceTypeDefinition
    (Headed interfaceTypeDefinition (fun d => (TypeDefinition.interface d).text)
      (.name "interface")) := by
  rw [interface_worded]
  refine worded_ensures (keyword_spelled rfl (by decide) (by decide)) fieldDefinitions_ensures
    (by decide) (by decide) fun n ds b => ?_
  rw [TypeDefinition.text]

theorem enumValueDefinition_ensures : Ensures enumValueDefinition
    (Formed enumValueDefinition EnumValueDefinition.text [.name] afterDirectives) := by
  refine start_ensures.bind fun start _ => name_ensures.bind fun n plain =>
    constDirectives_ensures.bind ?_
  rintro ds ⟨lds, directives, -⟩
  refine (spanFrom_ensures start).bind ?_
  rintro _ rfl
  refine .pure ⟨.name n.text :: lds, {
    spells := ?_
    opens := .cons List.mem_cons_self
    nonempty := by simp
    yields := fun m k free => .start fun start => (name_yields plain (by simp)).bind ?_ }⟩
  · simpa [EnumValueDefinition.text] using
      words_spell (.cons plain.spells (.cons directives.spells .nil))
  · exact (directives.yields m k free).bind (.node start)

theorem enum_worded : enumTypeDefinition =
    worded "enum" (many .braceL enumValueDefinition .braceR) .mk := rfl

theorem enumTypeDefinition_ensures : Ensures enumTypeDefinition
    (Headed enumTypeDefinition (fun d => (TypeDefinition.enum d).text) (.name "enum")) := by
  rw [enum_worded]
  refine worded_ensures (keyword_spelled rfl (by decide) (by decide))
    (manyBlock_ensures enumValueDefinition_ensures (by decide) (by decide) (by decide))
    (by decide) (by decide) fun n ds b => ?_
  rw [TypeDefinition.text]

theorem inputObject_worded : inputObjectTypeDefinition =
    worded "input" (any .braceL inputValueDefinition .braceR) .mk := rfl

theorem inputObjectTypeDefinition_ensures : Ensures inputObjectTypeDefinition
    (Headed inputObjectTypeDefinition (fun d => (TypeDefinition.inputObject d).text)
      (.name "input")) := by
  rw [inputObject_worded]
  refine worded_ensures (keyword_spelled rfl (by decide) (by decide))
    (anyBlock_ensures inputValueDefinition_ensures (by decide) (by decide) (by decide))
    (by decide) (by decide) fun n ds b => ?_
  rw [TypeDefinition.text]

/-! Names between bars -/

section Bars
variable {p : Parser α} {text : α → String} {values : List α} {lss : List (List Lexeme)}

theorem bar_closed : Closed " | " [.punctuator .pipe] := by
  have bar := (Closed.blanks " " (by decide)).append_closed (Closed.spaced .pipe)
  exact bar.spelled (by decide)

theorem bars_intercalate (forms : List.Forall₂ (Full p text [.name] []) values lss) {value : α}
    (full : Full p text [.name] [] value ls) :
    Spells (" | ".intercalate ((value :: values).map text)) (ls ++ barred lss) := by
  induction forms generalizing value ls with
  | nil => simpa [barred] using full.spells
  | @cons next ms values lss head _ ih =>
    rw [List.map_cons, List.map_cons, String.intercalate_cons_cons, ← List.map_cons,
      String.append_assoc]
    exact full.spells.append (bar_closed.append (ih head)) (Apart.append (by decide) (by decide))

/-- Nothing is left out where every item has a text. -/
theorem bars_spell (forms : List.Forall₂ (Full p text [.name] []) values lss) {value : α}
    (full : Full p text [.name] [] value ls)
    (formed : ∀ other ∈ value :: values, Formed p text [.name] [] other) :
    Spells (join ((value :: values).map text) " | ") (ls ++ barred lss) := by
  have visible : ∀ part ∈ (value :: values).map text, !part.isEmpty := by
    intro part member
    obtain ⟨other, among, rfl⟩ := List.mem_map.mp member
    obtain ⟨ms, otherFull⟩ := formed other among
    simp only [Bool.not_eq_true', ← Bool.not_eq_true, String.isEmpty_iff]
    exact fun silent => otherFull.nonempty (Spells.eq_nil (silent ▸ otherFull.spells))
  rw [join, List.filter_eq_self.mpr visible]
  exact bars_intercalate forms full

theorem separatedByBars_ensures_formed (item : Ensures p (Formed p text [.name] [])) :
    Ensures (separatedByBars p) (Formed (separatedByBars p) (fun values => join (values.map text) " | ")
      [.name] [.punctuator .pipe]) := by
  refine (separatedByBars_ensures item).mono ?_
  rintro values ⟨some, formed⟩
  obtain ⟨value, values, rfl⟩ := List.exists_cons_of_ne_nil some
  obtain ⟨ls, full⟩ := formed value List.mem_cons_self
  obtain ⟨lss, forms⟩ := exists_forall₂ fun value member => formed value (List.mem_cons_of_mem _ member)
  refine ⟨ls ++ barred lss, {
    spells := bars_spell forms full formed
    opens := full.opens.append full.nonempty
    nonempty := by simp [full.nonempty]
    yields := fun m k free => ?_ }⟩
  have other : m.kind ≠ .punctuator .pipe := by simpa using free
  obtain ⟨first, r, ahead, member⟩ := full.next (barred lss ++ m :: k)
  have unbarred : Yields (skipMark .pipe) (ls ++ (barred lss ++ m :: k)) false
      (ls ++ (barred lss ++ m :: k)) :=
    ahead ▸ .noSkip (by simp [List.mem_singleton.mp member])
  rw [List.append_assoc]
  refine unbarred.bind ?_
  have count := barred_count lss
  refine (full.before barred_opens (by decide) (by simp) k).bind ?_
  refine .remaining fun fuel enough => ?_
  simp only [List.length_append] at enough
  exact (bars_yields forms (by decide) (by simp) other (by omega) k).bind .pure

end Bars

/-- The members of a union. -/
def members : Parser (List NamedType) := do
  expectMark .equals
  separatedByBars namedType

def membersText (types : List NamedType) : String :=
  "= " ++ join (types.map fun type => type.name.text) " | "

theorem members_ensures : Ensures members
    (Formed members membersText [.punctuator .equals] [.punctuator .pipe]) := by
  have named : Ensures namedType (Formed namedType (fun type => type.name.text) [.name] []) :=
    namedType_ensures.mono fun type plain => ⟨_, namedType_form plain.1 plain.2⟩
  refine (expect_ensures _).bind fun _ _ => (separatedByBars_ensures_formed named).mono ?_
  rintro types ⟨ls, full⟩
  have equals : Closed "= " [.punctuator .equals] := (Closed.spaced .equals).spelled (by decide)
  refine ⟨.punctuator .equals :: ls, {
    spells := equals.append full.spells
    opens := .cons List.mem_cons_self
    nonempty := by simp
    yields := fun m k free => (Yields.expectMark (by simp)).bind (full.yields m k free) }⟩

theorem union_worded : unionTypeDefinition = worded "union" members .mk := by
  simp only [unionTypeDefinition, worded, members, bind_assoc]

theorem unionTypeDefinition_ensures : Ensures unionTypeDefinition
    (Headed unionTypeDefinition (fun d => (TypeDefinition.union d).text) (.name "union")) := by
  rw [union_worded]
  refine worded_ensures (keyword_spelled rfl (by decide) (by decide)) members_ensures
    (by decide) (by decide) fun n ds b => ?_
  rw [TypeDefinition.text, membersText]

/-! Scalars, schemas, objects and their extensions -/

theorem scalarTypeDefinition_ensures : Ensures scalarTypeDefinition
    (Headed scalarTypeDefinition (fun d => (TypeDefinition.scalar d).text) (.name "scalar")) := by
  refine start_ensures.bind fun start _ => (expectKeyword_ensures _).bind fun _ _ =>
    name_ensures.bind fun n plain => constDirectives_ensures.bind ?_
  rintro ds ⟨lds, directives, -⟩
  refine (spanFrom_ensures start).bind ?_
  rintro _ rfl
  refine .pure ⟨.name n.text :: lds, {
    spells := ?_
    opens := .cons List.mem_cons_self
    nonempty := by simp
    yields := fun m k free => ?_ }⟩
  · have word := keyword_spells "scalar" rfl (by decide) (by decide)
    simpa [TypeDefinition.text] using
      words_spell (.cons word (.cons plain.spells (.cons directives.spells .nil)))
  · simp only [afterDefinition, List.mem_cons, List.not_mem_nil, or_false, not_or] at free
    refine .start fun start => (Yields.expectKeyword (by simp)).bind ?_
    refine (name_yields plain (by simp)).bind ?_
    exact (directives.yields m k (by simp [afterDirectives, free])).bind (.node start)

theorem schemaDefinition_ensures : Ensures schemaDefinition
    (Headed schemaDefinition (fun d => (TypeSystemDefinition.schema d).text) (.name "schema")) := by
  refine start_ensures.bind fun start _ => (expectKeyword_ensures _).bind fun _ _ =>
    constDirectives_ensures.bind ?_
  rintro ds ⟨lds, directives, -⟩
  refine (manyBlock_ensures operationTypeDefinition_ensures (by decide) (by decide)
    (by decide)).bind ?_
  rintro operationTypes ⟨lbs, full⟩
  refine (spanFrom_ensures start).bind ?_
  rintro _ rfl
  refine .pure ⟨lds ++ lbs, {
    spells := ?_
    opens := .cons List.mem_cons_self
    nonempty := by simp
    yields := fun m k _ => ?_ }⟩
  · have word := keyword_spells "schema" rfl (by decide) (by decide)
    simpa [TypeSystemDefinition.text] using
      words_spell (.cons word (.cons directives.spells (.cons full.spells .nil)))
  · simp only [List.cons_append, List.append_assoc]
    refine .start fun start => (Yields.expectKeyword (by simp [full.nonempty])).bind ?_
    refine (directives.before_some full.opens full.nonempty (by decide) (m :: k)).bind ?_
    exact (full.yields m k (by simp)).bind (.node start)

def interfacesText (types : List NamedType) : String :=
  wrap "implements " (join (types.map fun type => type.name.text) ", ") ""

theorem implementedInterfaces_ensures : Ensures implementedInterfaces fun types => ∃ ls,
    Form implementedInterfaces interfacesText [.name] [.name] types ls := by
  refine (seesKeyword_ensures _).bind fun _ _ => .ite (fun _ => ?_) fun _ => .pure ⟨[], ?_⟩
  · refine advance_ensures.bind fun _ _ => namedType_ensures.bind fun first plain =>
      remaining_ensures.bind fun fuel _ => (whileSeen_ensures (sees_ensures _)
        namedType_ensures fuel).bind fun types all => .pure ?_
    have full := namedType_form plain.1 plain.2
    obtain ⟨lss, forms⟩ := exists_forall₂ (R := Full namedType (fun type => type.name.text)
      [.name] []) fun type member => ⟨_, namedType_form (all type member).1 (all type member).2⟩
    refine ⟨.name "implements" :: .name first.name.text :: lss.flatten, ?_,
      .cons List.mem_cons_self, fun m k free => ?_⟩
    · have word := keyword_spells "implements" rfl (by decide) (by decide)
      have closed := word.append_closed (.blanks " " (by decide)) (by decide) (by decide)
      have closed : Closed "implements " [.name "implements"] := closed.spelled (by decide)
      have joined := join_spells ", " (.blanks _ (by decide)) (by decide) (by decide)
        (forms_spell (.cons full forms))
      have wrapped := wrap_spells closed joined .empty (by decide)
        fun none => absurd none (by simp)
      simpa [around, interfacesText] using wrapped
    · have other : m.kind ≠ .name := by simpa using free
      have count := forms_count forms
      refine (Yields.seesKeyword _).bind ?_
      rw [beq_self_eq_true, if_pos rfl]
      refine (Yields.advance (by simp)).bind ?_
      refine (full.before (forms_open forms) (by decide) (by simp) k).bind ?_
      refine .remaining fun fuel enough => ?_
      simp only [List.length_append] at enough
      exact (whileSeen_yields forms rfl (by simp) (by simp) other (by omega) k).bind .pure
  · refine ⟨.empty, .nil, fun m k free => (Yields.seesKeyword _).bind ?_⟩
    rw [if_neg (by rintro same; rw [beq_iff_eq.mp same] at free; simp [Lexeme.kind] at free)]
    exact .pure

theorem objectTypeDefinition_ensures : Ensures objectTypeDefinition
    (Headed objectTypeDefinition ObjectTypeDefinition.text (.name "type")) := by
  refine start_ensures.bind fun start _ => (expectKeyword_ensures _).bind fun _ _ =>
    name_ensures.bind fun n plain => implementedInterfaces_ensures.bind ?_
  rintro interfaces ⟨lis, implements⟩
  refine constDirectives_ensures.bind ?_
  rintro ds ⟨lds, directives, -⟩
  refine fieldDefinitions_ensures.bind ?_
  rintro fields ⟨lfs, full⟩
  refine (spanFrom_ensures start).bind ?_
  rintro _ rfl
  refine .pure ⟨.name n.text :: (lis ++ (lds ++ lfs)), {
    spells := ?_
    opens := .cons List.mem_cons_self
    nonempty := by simp
    yields := fun m k _ => ?_ }⟩
  · have word := keyword_spells "type" rfl (by decide) (by decide)
    simpa [ObjectTypeDefinition.text, interfacesText] using
      words_spell (.cons word (.cons plain.spells (.cons implements.spells
        (.cons directives.spells (.cons full.spells .nil)))))
  · have implementsRead := implements.before_some (directives.opens.both full.opens)
      (by simp [full.nonempty]) (by decide) (m :: k)
    simp only [List.cons_append, List.append_assoc] at implementsRead ⊢
    refine .start fun start => (Yields.expectKeyword (by simp)).bind ?_
    refine (name_yields plain (by simp [full.nonempty])).bind (implementsRead.bind ?_)
    refine (directives.before_some full.opens full.nonempty (by decide) (m :: k)).bind ?_
    exact (full.yields m k (by simp)).bind (.node start)

theorem typeExtension_ensures : Ensures typeExtension
    (Headed typeExtension (fun d => (TypeSystemDefinition.extension d).text) (.name "extend")) := by
  refine start_ensures.bind fun start _ => (expectKeyword_ensures _).bind fun _ _ =>
    objectTypeDefinition_ensures.bind ?_
  rintro definition ⟨ls, full⟩
  refine (spanFrom_ensures start).bind ?_
  rintro _ rfl
  refine .pure ⟨.name "type" :: ls, {
    spells := ?_
    opens := .cons List.mem_cons_self
    nonempty := by simp
    yields := fun m k free => .start fun start => (Yields.expectKeyword (by simp)).bind ?_ }⟩
  · have word : "extend " = "extend" ++ " " := rfl
    simp only [TypeSystemDefinition.text, word, String.append_assoc]
    exact word_spells _ rfl (by decide) (by decide) full.spells
  · exact (full.yields m k free).bind (.node start)

theorem directiveDefinition_ensures : Ensures directiveDefinition
    (Headed directiveDefinition (fun d => (TypeSystemDefinition.directive d).text)
      (.name "directive")) := by
  refine start_ensures.bind fun start _ => (expectKeyword_ensures _).bind fun _ _ =>
    (expect_ensures _).bind fun _ _ => name_ensures.bind fun n plain =>
      argumentDefinitions_ensures.bind ?_
  rintro as ⟨las, arguments, -⟩
  have named : Ensures name (Formed name Name.text [.name] []) :=
    name_ensures.mono fun n plain => ⟨_, name_form plain⟩
  refine (expectKeyword_ensures _).bind fun _ _ => (separatedByBars_ensures_formed named).bind ?_
  rintro locations ⟨lls, full⟩
  refine (spanFrom_ensures start).bind ?_
  rintro _ rfl
  refine .pure ⟨.punctuator .atSign :: .name n.text :: (las ++ .name "on" :: lls), {
    spells := ?_
    opens := .cons List.mem_cons_self
    nonempty := by simp
    yields := fun m k free => ?_ }⟩
  · have on := word_spells "on" rfl (by decide) (by decide) full.spells
    have blank : Closed " " [] := .blanks _ (by decide)
    have behind := arguments.spells.append (blank.append on) (Apart.append (by decide) (by decide))
    have named := plain.spells.append behind
      ((inputValuesText_apart as).both (Apart.append (by decide) (by decide)))
    have atSign : Closed "@" [.punctuator .atSign] := .mark .atSign
    have word : "directive @" = "directive" ++ (" " ++ "@") := rfl
    have between : " on " = " " ++ ("on" ++ " ") := rfl
    simp only [TypeSystemDefinition.text, word, between, String.append_assoc]
    simpa using word_spells "directive" rfl (by decide) (by decide) (atSign.append named)
  · simp only [afterDefinition, List.mem_cons, List.not_mem_nil, or_false, not_or] at free
    simp only [List.cons_append, List.append_assoc]
    refine .start fun start => (Yields.expectKeyword (by simp)).bind ?_
    refine (Yields.expectMark (by simp)).bind ((name_yields plain (by simp)).bind ?_)
    refine (arguments.yields _ _ (by simp [Lexeme.kind])).bind ?_
    refine (Yields.expectKeyword (by simp)).bind ?_
    exact (full.yields m k (by simp [free])).bind (.node start)

end GraphQL.Parser
