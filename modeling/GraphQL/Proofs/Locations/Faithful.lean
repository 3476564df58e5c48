import GraphQL.Proofs.Locations.Sliced

/-! Locations are faithful. A text that is read with locations gives each node its own range of
characters: children lie inside of their node, one behind the other, and the text of a definition,
value or type alone is that node again. Without locations the text is read as the same tree, or
refused with the same error. -/
namespace GraphQL
open Ast
open Lexer (Scans)

namespace Spanned

/-- The locations within a node tell where its parts stand in the text: each has its own range, the
children of a node stand inside of it in their order, and the slice of a definition, value or type
is read as what it was sliced from. -/
structure Faithful (source : Source) (root : Spanned) : Prop where
  ranges : ∀ part, root.Within part → part.Ranged source
  children : ∀ of, root.Within (node of) →
    (∀ child ∈ of.children, (node child).Inside (node of)) ∧
      of.children.Pairwise fun first second => (node first).Before (node second)
  definitions : ∀ of, root.Within (definition of) → ∀ span ∈ of.span, ∀ name,
    (Source.parseDocument ⟨span.text, name⟩).map Document.unlocated = .ok ⟨[of.unlocated], none⟩
  values : ∀ of, root.Within (value of) → ∀ span ∈ of.span, ∀ name,
    (Source.parseValue ⟨span.text, name⟩).map Value.unlocated = .ok of.unlocated
  types : ∀ of, root.Within (type of) → ∀ span ∈ of.span, ∀ name,
    (Source.parseType ⟨span.text, name⟩).map TypeAnnotation.unlocated = .ok of.unlocated

variable {source : Source} {root part : Spanned} {tokens inner : List Token} {after : Cursor}

/-- The children of a node are inside of it, and stand apart in their order. -/
theorem children_apart {of : Node} (carries : source.Carries tokens)
    (read : (node of).Read (source.place true) tokens) :
    (∀ child ∈ of.children, (node child).Inside (node of)) ∧
      of.children.Pairwise fun first second => (node first).Before (node second) := by
  obtain ⟨inside, apart⟩ := inner_apart carries read
  have some := children_sublist of
  exact ⟨fun child member => inside _ (some.subset (List.mem_map_of_mem member)),
    List.pairwise_map.mp (apart.sublist some)⟩

theorem faithful_of_read (carries : source.Carries tokens)
    (read : root.Read (source.place true) tokens) (scans : Scans ⟨0, source.chars⟩ inner after)
    (located : ∀ part, root.Within part → (∀ document, part ≠ node (.document document)) →
      ∃ own, own <:+: inner ∧ part.Read (source.place true) own) : root.Faithful source where
  ranges part within := by
    obtain ⟨own, inside, read⟩ := within_read read within
    exact read_ranged (carries.sublist inside.sublist) read
  children of within := by
    obtain ⟨own, inside, read⟩ := within_read read within
    exact children_apart (carries.sublist inside.sublist) read
  definitions of within := by
    obtain ⟨own, inside, read⟩ := located _ within fun document => by cases of <;> simp [definition]
    exact definition_slice scans inside read
  values of within := by
    obtain ⟨own, inside, read⟩ := located _ within fun document => by simp [value]
    exact value_slice scans inside read
  types of within := by
    obtain ⟨own, inside, read⟩ := located _ within fun document => by
      cases of <;> simp [type, Node.ofType]
    exact type_slice scans inside read

/-- What is within a document, but the document, is read from tokens before the end of the text. -/
theorem document_within {document : Document} {finish : Token}
    (read : (node (.document document)).Read (source.place true) (inner ++ [finish]))
    (within : (node (.document document)).Within part)
    (other : part ≠ node (.document document)) :
    ∃ own, own <:+: inner ∧ part.Read (source.place true) own := by
  -- the end of the text is a token of the document, but of none of its definitions
  obtain ⟨-, -, own, rest, split, holds, ends⟩ := read
  obtain ⟨token, rfl, -⟩ := Grammar.parts_single.mp ends
  obtain ⟨rfl, -⟩ := List.append_inj' split rfl
  rcases Relation.ReflTransGen.cases_head within with rfl | ⟨outer, member, within⟩
  · contradiction
  · have among := Covers.each definition_covers document.definitions inner holds
    obtain ⟨middle, whole, read⟩ := among.mem member
    obtain ⟨own, inside, read⟩ := within_read read within
    exact ⟨own, inside.trans whole, read⟩

/-- Nothing within has a location. -/
def Bare (root : Spanned) : Prop := ∀ part, root.Within part → part.span = none

theorem bare_of_unlocated {α : Type} {g : α → α} {f : α → Spanned} {read : Except SyntaxError α}
    {value : α} (same : ∀ a, f (g a) = (f a).unlocated) (run : read.map g = .ok value) :
    (f value).Bare := by
  cases read with
  | error => cases run
  | ok located =>
    cases run
    intro part within
    rw [same] at within
    exact within_unlocated within

end Spanned

namespace Source
open Spanned
variable {source : Source} {inner : List Token}

theorem parseDocument_faithful {document : Document} (run : source.parseDocument = .ok document) :
    (Spanned.node (.document document)).Faithful source := by
  have lexed := Parser.run_lexed (fun _ _ _ _ free => Parser.document_unfinished free) run
  obtain ⟨inner, after, scans, split⟩ := tokens_scan lexed
  have read : (Spanned.node (.document document)).Read (source.place true) source.tokens.tokens :=
    ((parseDocument_grammar source true lexed).1 document).mp run
  refine faithful_of_read (carries_tokens lexed) read scans fun part within other => ?_
  rw [split] at read
  exact document_within read within (other document)

/-- What is read up to the end of a text was read from its tokens before the end. -/
theorem alone_read {α : Type} {p : Parser α} {phrase : α → Grammar.Phrase} {value : α}
    (sound : Parser.Sound ⟨source, none, true⟩ p phrase) (lexed : source.tokens.failure = none)
    {finish : Token} (split : source.tokens.tokens = inner ++ [finish])
    (run : (Parser.alone p).run source true = .ok value) : phrase value inner := by
  have ended := source.tokens_ended lexed
  cases tokens : source.tokens.tokens with
  | nil => exact absurd tokens ended.some
  | cons first rest =>
    rw [Parser.run_cons tokens, lexed] at run
    cases found : Parser.alone p ⟨source, none, true⟩ ⟨first, rest, 0⟩ with
    | error =>
      rw [found] at run
      cases run
    | ok result =>
      rw [found] at run
      cases run
      rw [tokens] at ended
      have ends : Parser.State.Ends ⟨first, rest, 0⟩ := ended.last
      obtain ⟨own, last, ahead, holds⟩ := Parser.alone_sound sound ends found
      have same : inner ++ [finish] = own ++ [last] := by rw [← split, tokens]; exact ahead
      obtain ⟨rfl, -⟩ := List.append_inj' same rfl
      exact holds

/-- A node that is read up to the end of a text is faithful. -/
theorem alone_faithful {α : Type} {p : Parser α} {g : α → α} {phrase : α → Grammar.Phrase}
    {value : α} {root : Spanned} (alike : ∀ r, Parser.Alike r p g p)
    (sound : Parser.Sound ⟨source, none, true⟩ p phrase)
    (read : ∀ tokens, phrase value tokens → root.Read (source.place true) tokens)
    (run : (Parser.alone p).run source true = .ok value) : root.Faithful source := by
  have lexed := Parser.run_lexed (fun _ _ _ _ free => Parser.alone_unfinished alike free) run
  obtain ⟨inner, after, scans, split⟩ := tokens_scan lexed
  have carries := carries_tokens lexed
  rw [split] at carries
  have here := read inner (alone_read sound lexed split run)
  exact faithful_of_read (carries.sublist (List.sublist_append_left ..)) here scans
    fun part within _ => within_read here within

theorem parseValue_faithful {value : Value} (run : source.parseValue = .ok value) :
    (Spanned.value value).Faithful source :=
  alone_faithful (fun _ => Parser.value_alike ..) (Parser.value_sound false _)
    (fun _ holds => ⟨false, Grammar.deepest, Nat.le_refl _, holds⟩) run

theorem parseType_faithful {type : TypeAnnotation} (run : source.parseType = .ok type) :
    (Spanned.type type).Faithful source :=
  alone_faithful (fun _ => Parser.typeAnnotation_alike _) (Parser.typeAnnotation_sound _)
    (fun _ => read_type.mpr) run

/-- Locations are faithful, and without them the same texts are read as the same trees. -/
theorem locations_faithful (source : Source) :
    ((∀ document, source.parseDocument = .ok document →
        (Spanned.node (.document document)).Faithful source) ∧
      (∀ value, source.parseValue = .ok value → (Spanned.value value).Faithful source) ∧
      ∀ type, source.parseType = .ok type → (Spanned.type type).Faithful source) ∧
    (source.parseDocument false = source.parseDocument.map Document.unlocated ∧
      source.parseValue false = source.parseValue.map Value.unlocated ∧
      source.parseType false = source.parseType.map TypeAnnotation.unlocated) ∧
    (∀ document, source.parseDocument false = .ok document →
        (Spanned.node (.document document)).Bare) ∧
      (∀ value, source.parseValue false = .ok value → (Spanned.value value).Bare) ∧
      ∀ type, source.parseType false = .ok type → (Spanned.type type).Bare := by
  have documents : source.parseDocument false = source.parseDocument.map Document.unlocated :=
    Parser.run_unlocated (fun _ => Parser.document_alike) source
  have values : source.parseValue false = source.parseValue.map Value.unlocated :=
    Parser.run_unlocated (fun _ => Parser.alone_alike (Parser.value_alike ..)) source
  have types : source.parseType false = source.parseType.map TypeAnnotation.unlocated :=
    Parser.run_unlocated (fun _ => Parser.alone_alike (Parser.typeAnnotation_alike _)) source
  refine ⟨⟨fun _ => parseDocument_faithful, fun _ => parseValue_faithful,
    fun _ => parseType_faithful⟩, ⟨documents, values, types⟩, ?_, ?_, ?_⟩
  · intro document run
    rw [documents] at run
    exact bare_of_unlocated (f := fun of => .node (.document of)) (fun _ => rfl) run
  · intro value run
    rw [values] at run
    exact bare_of_unlocated (fun _ => rfl) run
  · intro type run
    rw [types] at run
    exact bare_of_unlocated type_unlocated run

/-- A literal with nested parts, one of which is no ASCII text. -/
def nestedLiteral : Source where
  body := "[\x7bnames: [\"Zoë\", $name]\x7d, null, 1]"

/-- A type with wrappers. -/
def nestedType : Source where
  body := "[ [ID!]! ]"

theorem locations_faithful_nested :
    (∃ document, keywordNames.parseDocument = .ok document ∧
      (Spanned.node (.document document)).Faithful keywordNames) ∧
    (∃ value, nestedLiteral.parseValue = .ok value ∧ (Spanned.value value).Faithful nestedLiteral) ∧
    ∃ type, nestedType.parseType = .ok type ∧ (Spanned.type type).Faithful nestedType := by
  obtain ⟨document, one⟩ := Parser.read_of_isSome keywordNames.parseDocument (by decide +kernel)
  obtain ⟨value, two⟩ := Parser.read_of_isSome nestedLiteral.parseValue (by decide +kernel)
  obtain ⟨type, three⟩ := Parser.read_of_isSome nestedType.parseType (by decide +kernel)
  exact ⟨⟨document, one, (locations_faithful keywordNames).1.1 document one⟩,
    ⟨value, two, (locations_faithful nestedLiteral).1.2.1 value two⟩,
    ⟨type, three, (locations_faithful nestedType).1.2.2 type three⟩⟩

end Source
end GraphQL
