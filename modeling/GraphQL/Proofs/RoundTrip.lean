import GraphQL.Proofs.RoundTrip.TypeSystem

/-! Printing a document that was read gives a text that reads back as the same document, and
that prints to itself. Likewise for values and for types. -/
namespace GraphQL
namespace Parser
open Ast Layout

variable {α : Type} {l : Lexeme} {ls ms k : List Lexeme}

abbrev DefinitionFormed : Definition → Prop :=
  Formed definition Definition.text [.name, .punctuator .braceL] afterDefinition

/-- A definition is read by the production that its first lexeme selects. -/
theorem headed_formed (make : α → Definition) {p : Parser α} {text : α → String} {value : α}
    (headed : Headed p text l value) (starts : l.kind ∈ [.name, .punctuator .braceL])
    (written : (make value).text = text value)
    (selects : ∀ ls left, Yields p (l :: ls) value left →
      Yields definition (l :: ls) (make value) left) : DefinitionFormed (make value) := by
  obtain ⟨ls, full⟩ := headed
  refine ⟨l :: ls, {
    spells := written ▸ full.spells
    opens := .cons starts
    nonempty := by simp
    yields := fun m k free => selects _ _ (full.yields m k free) }⟩

theorem operation_formed {operation : OperationDefinition} (head : OperationHead l)
    (headed : Headed operationDefinition OperationDefinition.text l operation) :
    DefinitionFormed (.operation operation) := by
  refine headed_formed .operation headed ?_ rfl fun ls left read => ?_
  · rcases head with rfl | ⟨_, rfl⟩ <;> simp [Lexeme.kind]
  · refine Yields.lexeme.bind ?_
    rcases head with rfl | ⟨type, rfl⟩
    · exact read.bind .pure
    · cases type <;> exact read.bind .pure

theorem branch_ensures {p : Parser α} {text : α → String} {word : String} {make : α → Definition}
    (ensures : Ensures p (Headed p text (.name word))) (written : ∀ d, (make d).text = text d)
    (selects : ∀ ls d left, Yields p (.name word :: ls) d left →
      Yields definition (.name word :: ls) (make d) left) :
    Ensures (do return make (← p)) DefinitionFormed :=
  ensures.bind fun d headed =>
    .pure (headed_formed make headed List.mem_cons_self (written d) fun ls left => selects ls d left)

theorem definition_ensures : Ensures definition DefinitionFormed := by
  have operation : Ensures (do return .operation (← operationDefinition)) DefinitionFormed :=
    operationDefinition_ensures.bind fun _ ⟨_, head, headed⟩ =>
      .pure (operation_formed head headed)
  refine lexeme_ensures.bind fun first _ => ?_
  split
  · exact operation
  · exact operation
  · exact operation
  · exact operation
  · exact branch_ensures fragmentDefinition_ensures (fun _ => rfl)
      fun _ _ _ read => Yields.lexeme.bind (read.bind .pure)
  · exact branch_ensures schemaDefinition_ensures (fun _ => rfl)
      fun _ _ _ read => Yields.lexeme.bind (read.bind .pure)
  · exact branch_ensures scalarTypeDefinition_ensures (fun _ => rfl)
      fun _ _ _ read => Yields.lexeme.bind (read.bind .pure)
  · exact branch_ensures objectTypeDefinition_ensures (fun _ => rfl)
      fun _ _ _ read => Yields.lexeme.bind (read.bind .pure)
  · exact branch_ensures interfaceTypeDefinition_ensures (fun _ => rfl)
      fun _ _ _ read => Yields.lexeme.bind (read.bind .pure)
  · exact branch_ensures unionTypeDefinition_ensures (fun _ => rfl)
      fun _ _ _ read => Yields.lexeme.bind (read.bind .pure)
  · exact branch_ensures enumTypeDefinition_ensures (fun _ => rfl)
      fun _ _ _ read => Yields.lexeme.bind (read.bind .pure)
  · exact branch_ensures inputObjectTypeDefinition_ensures (fun _ => rfl)
      fun _ _ _ read => Yields.lexeme.bind (read.bind .pure)
  · exact branch_ensures typeExtension_ensures (fun _ => rfl)
      fun _ _ _ read => Yields.lexeme.bind (read.bind .pure)
  · exact branch_ensures directiveDefinition_ensures (fun _ => rfl)
      fun _ _ _ read => Yields.lexeme.bind (read.bind .pure)
  · exact unexpected_ensures

/-! Documents -/

theorem definitions_ensures (fuel : Nat) : Ensures (definitions fuel) fun ds =>
    ds ≠ [] ∧ ∀ d ∈ ds, DefinitionFormed d := by
  induction fuel with
  | zero => exact unexpected_ensures
  | succ fuel ih =>
    refine definition_ensures.bind fun first formed => (skip_ensures _).bind fun _ _ =>
      .ite (fun _ => .pure ?_) fun _ => ih.bind fun rest all => .pure ?_
    · simpa using formed
    · simpa using ⟨formed, all.2⟩

theorem definitions_yields {ds : List Definition} {lss : List (List Lexeme)}
    (forms : List.Forall₂ (Full definition Definition.text [.name, .punctuator .braceL]
      afterDefinition) ds lss) (some : ds ≠ []) {fuel : Nat} (enough : lss.length < fuel) :
    Yields (definitions fuel) (lss.flatten ++ [.finish]) ds [.finish] := by
  induction forms generalizing fuel with
  | nil => contradiction
  | @cons d ls ds lss full tail ih =>
    cases fuel with
    | zero => simp at enough
    | succ fuel =>
      rw [List.flatten_cons, List.append_assoc]
      refine (full.before (forms_open tail) (by decide) (by decide) []).bind ?_
      cases tail with
      | nil =>
        have stops : Yields (skip .finish) [.finish] true [.finish] := .skipLast rfl
        exact stops.bind .pure
      | cons next rest =>
        have more := ih (by simp) (Nat.lt_of_succ_lt_succ enough)
        rw [List.flatten_cons, List.append_assoc] at more ⊢
        obtain ⟨l, r, ahead, member⟩ := next.next (_ ++ [.finish])
        have going : Yields (skip .finish) (l :: r) false (l :: r) := .noSkip fun same => by
          rw [same] at member
          simp at member
        rw [ahead] at more ⊢
        exact going.bind (more.bind .pure)

/-- Definitions with blank lines between them and a line break at the end. -/
theorem document_formed {ds : List Definition} {lss : List (List Lexeme)}
    (forms : List.Forall₂ (Full definition Definition.text [.name, .punctuator .braceL]
      afterDefinition) ds lss) (some : ds ≠ []) :
    Spells (Document.text ⟨ds, none⟩) lss.flatten ∧
      Yields document (lss.flatten ++ [.finish]) ⟨ds, none⟩ [.finish] := by
  constructor
  · have joined := join_spells "\n\n" (.blanks _ (by decide)) (by decide) (by decide)
      (forms_spell forms)
    have lineBreak : Closed "\n" [] := .blanks _ (by decide)
    simpa [Document.text] using joined.append lineBreak.spells (by decide)
  · have count := forms_count forms
    refine .start fun start => .remaining fun fuel enough => ?_
    simp only [List.length_append] at enough
    exact (definitions_yields forms some (by omega)).bind (.node start)

/-- A parser that reads back what it read. -/
def Rereads (p : Parser α) (text : α → String) (value : α) : Prop :=
  ∃ ls, Spells (text value) ls ∧ Yields p (ls ++ [.finish]) value [.finish]

theorem document_ensures : Ensures document (Rereads document Document.text) := by
  refine start_ensures.bind fun start _ => remaining_ensures.bind fun fuel _ =>
    (definitions_ensures fuel).bind ?_
  rintro ds ⟨some, formed⟩
  refine (spanFrom_ensures start).bind ?_
  rintro _ rfl
  obtain ⟨lss, forms⟩ := exists_forall₂ formed
  exact .pure ⟨_, document_formed forms some⟩

/-- What has a form is read back alone, up to the end of the text. -/
theorem Full.rereads {p : Parser α} {text : α → String} {starts avoid : List Lexeme.Kind} {value : α}
    (full : Full p text starts avoid value ls) (free : .finish ∉ avoid) :
    Rereads (do let value ← p; expect .finish; return value) text value := by
  refine ⟨ls, full.spells, ?_⟩
  have stops : Yields (expect .finish) [.finish] () [.finish] := .expectLast rfl
  exact (full.yields .finish [] free).bind (stops.bind .pure)

theorem alone_ensures {p : Parser α} {text : α → String} {starts avoid : List Lexeme.Kind}
    (ensures : Ensures p (Formed p text starts avoid)) (free : .finish ∉ avoid) :
    Ensures (do let value ← p; expect .finish; return value)
      (Rereads (do let value ← p; expect .finish; return value) text) := by
  refine ensures.bind ?_
  rintro value ⟨ls, full⟩
  exact (expect_ensures _).bind fun _ _ => .pure (full.rereads free)

/-! Whole texts -/

theorem tokens_spelled (fuel : Nat) (here : Cursor) :
    ∀ t ∈ (Lexer.tokens fuel here).1, t.lexeme = .finish ∨ t.lexeme.Spelled := by
  induction fuel generalizing here with
  | zero => simp [Lexer.tokens]
  | succ fuel ih =>
    unfold Lexer.tokens
    split
    · simp
    · rename_i found after step
      obtain ⟨⟨first, stop⟩, scanned, same⟩ := Lexer.bind_eq_ok.mp step
      cases same
      have spelled := Lexeme.lexeme_spelled scanned
      split
      · simpa using spelled
      · simpa using ⟨spelled, ih _⟩

theorem source_spelled (source : Source) :
    ∀ t ∈ source.tokens.tokens, t.lexeme = .finish ∨ t.lexeme.Spelled := by
  unfold Source.tokens Source.tokensFrom
  split
  · simp
  · exact tokens_spelled _ _

theorem except_map_ok {β ε : Type} {f : α → β} {result : Except ε α} {b : β}
    (ok : result.map f = .ok b) : ∃ a, result = .ok a ∧ f a = b := by
  cases result with
  | error error => cases ok
  | ok a =>
    cases ok
    exact ⟨a, rfl, rfl⟩

theorem run_ensures {p : Parser α} {P : α → Prop} (ensures : Ensures p P) {source : Source}
    {value : α} (read : p.run source false = .ok value) : P value := by
  simp only [Parser.run] at read
  split at read
  · rename_i first rest same
    have spelled : State.Spelled ⟨first, rest, 0⟩ := by
      intro l member
      obtain ⟨t, among, rfl⟩ := List.mem_map.mp member
      exact source_spelled source t (same ▸ among)
    obtain ⟨⟨found, next⟩, run, rfl⟩ := except_map_ok read
    exact (ensures _ _ found next rfl spelled run).2
  · cases read
  · cases read

theorem run_spelled {p : Parser α} {value : α} {left : List Lexeme} {text : String}
    (spells : Spells text ls) (yields : Yields p (ls ++ [.finish]) value left) (title : String) :
    p.run ⟨text, title⟩ false = .ok value := by
  obtain ⟨found, scanned, lexemes⟩ := spells.tokens title
  cases found with
  | nil => simp at lexemes
  | cons first rest =>
    obtain ⟨next, run, -⟩ := yields ⟨⟨text, title⟩, none, false⟩ ⟨first, rest, 0⟩ ⟨rfl, rfl⟩ lexemes
    simp only [Parser.run, scanned, run]
    rfl

end Parser

open GraphQL.Parser Ast

/-- What is read from the text of an answer is that answer, and has that text. -/
theorem rereads {α : Type} {p : Parser α} {text : α → String} (ensures : Ensures p (Rereads p text))
    {source : Source} {value : α} (read : p.run source false = .ok value) (title : String) :
    ∃ again, p.run ⟨text value, title⟩ false = .ok again ∧ again = value ∧
      text again = text value := by
  obtain ⟨ls, spells, yields⟩ := run_ensures ensures read
  exact ⟨value, run_spelled spells yields title, rfl, rfl⟩

/-- A literal is read back from its text exactly if it is one that can be read. -/
theorem parseValue_text_iff {literal : Value} (title : String) :
    (Source.mk literal.text title).parseValue false = .ok literal ↔
      Readable false maxDepth literal := by
  constructor
  · refine run_ensures ((value_readable false maxDepth).bind fun value readable => ?_)
    exact (expect_ensures _).bind fun _ _ => .pure readable
  · intro readable
    obtain ⟨ls, full⟩ := readable.formed
    obtain ⟨_, spells, yields⟩ := full.rereads (by simp)
    exact run_spelled spells yields title

/-- Documents, values and types print to texts that read back to them. -/
theorem print_then_parse (title : String) :
    (∀ (source : Source) (document : Document), source.parseDocument false = .ok document →
      ∃ again, (Source.mk document.text title).parseDocument false = .ok again ∧
        again = document ∧ again.text = document.text) ∧
    (∀ (source : Source) (value : Value), source.parseValue false = .ok value →
      ∃ again, (Source.mk value.text title).parseValue false = .ok again ∧
        again = value ∧ again.text = value.text) ∧
    ∀ (source : Source) (type : TypeAnnotation), source.parseType false = .ok type →
      ∃ again, (Source.mk type.text title).parseType false = .ok again ∧
        again = type ∧ again.text = type.text := by
  refine ⟨fun source document read => ?_, fun source value read => ?_, fun source type read => ?_⟩
  · exact rereads document_ensures read title
  · exact rereads (alone_ensures (value_ensures false maxDepth) (by simp)) read title
  · exact rereads (alone_ensures (typeAnnotation_ensures maxDepth) (by decide)) read title

/-- All three, on texts with nested parts, an escape and optional parts left out. -/
theorem print_then_parse_nested : ∃ document value type,
    let source : Source :=
      ⟨"\x7b a(b: \"\\n\") @c ... on D \x7b e \x7d \x7d union F = | G | H", "GraphQL"⟩
    source.parseDocument false = .ok document ∧
      (Source.mk document.text "again").parseDocument false = .ok document ∧
      (Source.mk "[1.5 \x7ba: $b\x7d]" "GraphQL").parseValue false = .ok value ∧
      (Source.mk value.text "again").parseValue false = .ok value ∧
      (Source.mk "[A!]!" "GraphQL").parseType false = .ok type ∧
      (Source.mk type.text "again").parseType false = .ok type := by
  obtain ⟨document, read⟩ := read_of_isSome (Source.parseDocument
    ⟨"\x7b a(b: \"\\n\") @c ... on D \x7b e \x7d \x7d union F = | G | H", "GraphQL"⟩ false) (by decide +kernel)
  obtain ⟨value, readValue⟩ := read_of_isSome
    (Source.parseValue ⟨"[1.5 \x7ba: $b\x7d]", "GraphQL"⟩ false) (by decide +kernel)
  obtain ⟨type, readType⟩ := read_of_isSome
    (Source.parseType ⟨"[A!]!", "GraphQL"⟩ false) (by decide +kernel)
  obtain ⟨documents, values, types⟩ := print_then_parse "again"
  obtain ⟨_, again, rfl, -⟩ := documents _ _ read
  obtain ⟨_, againValue, rfl, -⟩ := values _ _ readValue
  obtain ⟨_, againType, rfl, -⟩ := types _ _ readType
  exact ⟨_, _, _, read, again, readValue, againValue, readType, againType⟩

end GraphQL
