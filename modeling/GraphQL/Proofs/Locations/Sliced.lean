import GraphQL.Proofs.Grammar.Reads
import GraphQL.Proofs.Language.Slices
import GraphQL.Proofs.Locations.Extents
import GraphQL.Proofs.Locations.Runs

/-! The ranges of parts. Tokens stand one behind the other, and so do the parts that are read from
them: each has a range of its own between two characters, inside of the range of its part, and
apart from the others there. -/
namespace GraphQL
open Grammar (ending extent)

/-- The token stands between two characters of the text, and is not empty unless it is the end. -/
structure Token.StandsIn (source : Source) (token : Token) : Prop where
  onward : token.start ≤ token.stop
  filled : token.lexeme ≠ .finish → token.start < token.stop
  within : token.stop ≤ source.size
  start : source.Boundary token.start
  stop : source.Boundary token.stop

/-- The tokens stand in the text one behind the other. -/
structure Source.Carries (source : Source) (tokens : List Token) : Prop where
  each : ∀ token ∈ tokens, token.StandsIn source
  apart : tokens.Pairwise fun first second => first.stop ≤ second.start

namespace Spanned

/-- The part has a range of the text that is not empty, with both ends between characters. -/
def Ranged (source : Source) (part : Spanned) : Prop :=
  ∃ start stop, part.span = some ⟨start, stop, source⟩ ∧ start < stop ∧ stop ≤ source.size ∧
    source.Boundary start ∧ source.Boundary stop

/-- The range of the one part lies inside of that of the other. -/
def Inside (inner outer : Spanned) : Prop :=
  ∃ own ∈ inner.span, ∃ whole ∈ outer.span, whole.start ≤ own.start ∧ own.stop ≤ whole.stop

/-- The range of the one part ends where that of the other starts, or before. -/
def Before (first second : Spanned) : Prop :=
  ∃ one ∈ first.span, ∃ other ∈ second.span, one.stop ≤ other.start

end Spanned

namespace Source
variable {source : Source} {tokens fewer : List Token}

theorem Carries.sublist (carries : source.Carries tokens) (part : fewer.Sublist tokens) :
    source.Carries fewer :=
  ⟨fun token member => carries.each token (part.subset member), carries.apart.sublist part⟩

/-- The tokens of a text stand in it. -/
theorem carries_tokens (lexed : source.tokens.failure = none) :
    source.Carries source.tokens.tokens := by
  obtain ⟨inner, after, scans, split⟩ := tokens_scan lexed
  obtain ⟨taken, chars, offset, -⟩ := scans.takes
  obtain ⟨-, ordered, apart⟩ := scans.ordered
  have last : after.offset ≤ source.size := by
    have whole : source.size = Text.byteLength taken + Text.byteLength after.rest := by
      rw [size, ← Text.byteLength_append]
      exact congrArg Text.byteLength chars
    rw [offset, whole, Nat.zero_add]
    exact Nat.le_add_right ..
  have boundary {position : Nat} (reached : Lexer.Reaches ⟨0, source.chars⟩ position) :
      source.Boundary position := by
    obtain ⟨front, back, split, rfl⟩ := reached
    exact ⟨front, back, split, (Nat.zero_add _).symm⟩
  have stands (token : Token) (member : token ∈ inner) : token.StandsIn source := by
    obtain ⟨-, filled, within⟩ := ordered token member
    obtain ⟨start, stop⟩ := scans.reaches token member
    exact ⟨filled.le, fun _ => filled, within.trans last, boundary start, boundary stop⟩
  have ends : source.Boundary source.size := ⟨source.chars, [], (List.append_nil _).symm, rfl⟩
  have finish : Token.StandsIn source ⟨.finish, source.size, source.size⟩ :=
    ⟨Nat.le_refl _, fun other => absurd rfl other, Nat.le_refl _, ends, ends⟩
  rw [split]
  refine ⟨List.forall_mem_append.2 ⟨stands, List.forall_mem_singleton.2 finish⟩, ?_⟩
  refine List.pairwise_append.mpr ⟨apart, List.pairwise_singleton .., fun token member => ?_⟩
  exact List.forall_mem_singleton.2 (stands token member).within

theorem ending_mem (first : Token) (rest : List Token) :
    ∃ last ∈ first :: rest, ending first.stop rest = last.stop := by
  induction rest generalizing first with
  | nil => exact ⟨first, List.mem_singleton_self first, rfl⟩
  | cons second rest ih =>
    obtain ⟨last, member, same⟩ := ih second
    exact ⟨last, List.mem_cons_of_mem _ member, same⟩

/-- All of the tokens stand between the start of the first and the end of the last. -/
theorem Carries.bounds {first : Token} {rest : List Token}
    (carries : source.Carries (first :: rest)) :
    ∀ token ∈ first :: rest, first.start ≤ token.start ∧ token.stop ≤ ending first.stop rest := by
  induction rest generalizing first with
  | nil => exact fun token member => by simp [List.mem_singleton.mp member, ending]
  | cons second rest ih =>
    have inner := ih (carries.sublist (List.sublist_cons_self ..))
    have apart := (List.pairwise_cons.mp carries.apart).1
    have onward := (carries.each first List.mem_cons_self).onward
    refine List.forall_mem_cons.2 ⟨⟨Nat.le_refl _, ?_⟩, fun token member => ?_⟩
    · calc first.stop ≤ second.start := apart second List.mem_cons_self
        _ ≤ second.stop := (carries.each second (.tail _ List.mem_cons_self)).onward
        _ ≤ ending second.stop rest := (inner second List.mem_cons_self).2
    · have behind := apart token member
      exact ⟨by omega, (inner token member).2⟩

end Source

namespace Spanned
variable {source : Source} {tokens : List Token} {part root : Spanned} {parts : List Spanned}

/-- The span of a part reaches from one of its tokens to another. -/
theorem read_reaches (read : part.Read (source.place true) tokens) : ∃ first rest,
    tokens = first :: rest ∧ first.lexeme ≠ .finish ∧
      part.span = some ⟨first.start, ending first.stop rest, source⟩ := by
  have begins : Grammar.Begins starts (part.Read (source.place true)) := read_begins part
  cases tokens with
  | nil => exact absurd read begins.filled
  | cons first rest =>
    have known := begins.leads _ read first rfl
    refine ⟨first, rest, rfl, ?_, read_span read⟩
    intro finish
    rw [finish] at known
    exact absurd known (by decide)

theorem read_ranged (carries : source.Carries tokens)
    (read : part.Read (source.place true) tokens) : part.Ranged source := by
  obtain ⟨first, rest, rfl, more, span⟩ := read_reaches read
  obtain ⟨last, member, stop⟩ := Source.ending_mem first rest
  have starts := carries.each first List.mem_cons_self
  have stops := carries.each last member
  have onward := (carries.bounds first List.mem_cons_self).2
  rw [stop] at span onward
  exact ⟨_, _, span, (starts.filled more).trans_le onward, stops.within, starts.start, stops.stop⟩

/-- Parts that are read from some of the tokens have spans that reach from one of them to another,
and stand apart in their order. -/
theorem Among.apart (among : Among (source.place true) parts tokens)
    (carries : source.Carries tokens) :
    (∀ part ∈ parts, ∃ first ∈ tokens, ∃ last ∈ tokens,
      part.span = some ⟨first.start, last.stop, source⟩) ∧ parts.Pairwise Before := by
  induction among with
  | done tokens => exact ⟨nofun, .nil⟩
  | pass token _ ih =>
    obtain ⟨spans, apart⟩ := ih (carries.sublist (List.sublist_cons_self ..))
    refine ⟨fun part member => ?_, apart⟩
    obtain ⟨first, begins, last, ends, span⟩ := spans part member
    exact ⟨first, .tail _ begins, last, .tail _ ends, span⟩
  | @take part parts own others read _ ih =>
    obtain ⟨spans, apart⟩ := ih (carries.sublist (List.sublist_append_right ..))
    obtain ⟨first, rest, rfl, -, span⟩ := read_reaches read
    obtain ⟨last, member, stop⟩ := Source.ending_mem first rest
    rw [stop] at span
    -- the other parts are read from the tokens behind, which start where these end or later
    have onward := (List.pairwise_append.mp carries.apart).2.2
    refine ⟨List.forall_mem_cons.2 ⟨?_, fun other here => ?_⟩, .cons (fun other here => ?_) apart⟩
    · exact ⟨first, by simp, last, List.mem_append_left _ member, span⟩
    · obtain ⟨begin, begins, last, ends, span⟩ := spans other here
      exact ⟨begin, List.mem_append_right _ begins, last, List.mem_append_right _ ends, span⟩
    · obtain ⟨begin, begins, _, _, span'⟩ := spans other here
      exact ⟨_, span, _, span', onward last member begin begins⟩

/-- The parts of a part are inside of it, and stand apart in their order. -/
theorem inner_apart (carries : source.Carries tokens)
    (read : part.Read (source.place true) tokens) :
    (∀ inside ∈ part.inner, inside.Inside part) ∧ part.inner.Pairwise Before := by
  obtain ⟨spans, apart⟩ := (inner_among read).apart carries
  refine ⟨fun inside member => ?_, apart⟩
  obtain ⟨begin, begins, last, ends, span⟩ := spans inside member
  obtain ⟨first, rest, rfl, -, whole⟩ := read_reaches read
  exact ⟨_, span, _, whole, (carries.bounds begin begins).1, (carries.bounds last ends).2⟩

end Spanned
end GraphQL

/-! Slices of texts by the spans of nodes. A definition, value or type that was read from a text is
read again, up to locations, from the slice that it spans. -/
namespace GraphQL
open Ast

namespace Grammar

variable {α : Type} {place : Nat → Nat → Option Span} {isConst : Bool} {depth more : Nat}
  {tokens : List Token}

theorem items_mono {item wider : α → Phrase} {rest : List Phrase} {values : List α}
    (wide : ∀ a tokens, item a tokens → wider a tokens)
    (holds : Parts (values.map item ++ rest) tokens) : Parts (values.map wider ++ rest) tokens := by
  induction values generalizing tokens with
  | nil => exact holds
  | cons a values ih =>
    obtain ⟨own, others, rfl, here, holds⟩ := holds
    exact ⟨own, others, rfl, wide a own here, ih holds⟩

theorem any_mono {opening closing : Punctuator} {item wider : α → Phrase} {values : List α}
    (wide : ∀ a tokens, item a tokens → wider a tokens)
    (holds : any opening item closing values tokens) : any opening wider closing values tokens := by
  obtain ⟨own, others, rfl, here, holds⟩ := holds
  exact ⟨own, others, rfl, here, items_mono wide holds⟩

theorem objectField_mono {value wider : Value → Phrase}
    (wide : ∀ of tokens, value of tokens → wider of tokens) (field : ObjectField)
    (tokens : List Token) (holds : objectField place value field tokens) :
    objectField place wider field tokens := by
  obtain ⟨label, of, span⟩ := field
  obtain ⟨spans, one, _, rfl, label, two, _, rfl, colon, three, _, rfl, here, last⟩ := holds
  exact ⟨spans, one, _, rfl, label, two, _, rfl, colon, three, _, rfl, wide of three here, last⟩

/-- A literal that stands somewhere may stand where more levels are left, and variables. -/
theorem value_mono (fits : depth ≤ more) (of : Value) (tokens : List Token)
    (holds : value place isConst depth of tokens) : value place false more of tokens := by
  induction depth using Nat.strong_induction_on generalizing more of tokens with
  | _ depth inner =>
    -- only lists and objects use up a level, and only a variable asks whether it may stand
    cases of with
    | var of =>
      rw [value] at holds ⊢
      exact ⟨rfl, holds.2⟩
    | boolean of span =>
      cases of <;>
      · rw [value] at holds ⊢
        exact holds
    | list values span =>
      cases depth with
      | zero => exact holds.elim
      | succ depth =>
        obtain ⟨more, rfl⟩ := Nat.exists_eq_add_of_lt fits
        rw [value] at holds
        rw [value]
        obtain ⟨spans, own, rest, rfl, here, none⟩ := holds
        exact ⟨spans, own, rest, rfl,
          any_mono (inner depth depth.lt_succ_self (by omega)) here, none⟩
    | object fields span =>
      cases depth with
      | zero => exact holds.elim
      | succ depth =>
        obtain ⟨more, rfl⟩ := Nat.exists_eq_add_of_lt fits
        rw [value] at holds
        rw [value]
        obtain ⟨apart, spans, own, rest, rfl, here, none⟩ := holds
        exact ⟨apart, spans, own, rest, rfl,
          any_mono (objectField_mono (inner depth depth.lt_succ_self (by omega))) here, none⟩
    | _ =>
      rw [value] at holds ⊢
      exact holds

theorem anyType_mono (fits : depth ≤ more) (type : TypeAnnotation)
    (holds : anyType place depth type tokens) : anyType place more type tokens := by
  induction type generalizing depth more tokens with
  | named type =>
    rw [anyType] at holds ⊢
    exact holds
  | list item span ih =>
    cases depth with
    | zero => exact holds.elim
    | succ depth =>
      obtain ⟨more, rfl⟩ := Nat.exists_eq_add_of_lt fits
      rw [anyType] at holds ⊢
      obtain ⟨spans, one, _, rfl, opens, own, _, rfl, here, rest⟩ := holds
      exact ⟨spans, one, _, rfl, opens, own, _, rfl, ih (by omega) here, rest⟩
  | nonNull type span ih =>
    rw [anyType] at holds ⊢
    obtain ⟨apart, spans, own, _, rfl, here, rest⟩ := holds
    exact ⟨apart, spans, own, _, rfl, ih fits here, rest⟩

end Grammar

namespace Lexer

/-- The scanner stands behind the last token. -/
theorem Scans.ending {here after : Cursor} {first : Token} {rest : List Token}
    (scans : Scans here (first :: rest) after) : Grammar.ending first.stop rest = after.offset := by
  induction rest generalizing here first with
  | nil =>
    obtain ⟨⟩ | ⟨step, other, scans⟩ := scans
    obtain ⟨_, _, stands⟩ := token_stands step other
    cases scans
    exact stands.offset.symm
  | cons second rest ih =>
    obtain ⟨⟩ | ⟨step, other, scans⟩ := scans
    exact ih scans

end Lexer

namespace Spanned
variable {α : Type} {source : Source} {after : Cursor} {inner own : List Token} {part : Spanned}

/-- Consecutive tokens of a scan are scanned from some place. -/
theorem scans_infix (scans : Lexer.Scans ⟨0, source.chars⟩ inner after) (inside : own <:+: inner) :
    ∃ before here behind,
      Lexer.Scans ⟨0, source.chars⟩ before here ∧ Lexer.Scans here own behind := by
  obtain ⟨before, rest, rfl⟩ := inside
  rw [List.append_assoc] at scans
  obtain ⟨here, front, scans⟩ := scans.split
  obtain ⟨behind, scans, -⟩ := scans.split
  exact ⟨before, here, behind, front, scans⟩

/-- Where the tokens of a part, and then the end of the text, are read as some value, so is the
text that the part spans. -/
theorem slice_read {p : Parser α} {g : α → α} {again : α}
    (scans : Lexer.Scans ⟨0, source.chars⟩ inner after) (inside : own <:+: inner)
    (read : part.Read (source.place true) own) (alike : ∀ r, Parser.Alike r p g p)
    (alone : ∀ first rest finish, own = first :: rest → finish.lexeme = .finish →
      ∃ value next, p ⟨source, none, true⟩ ⟨first, rest ++ [finish], 0⟩ = .ok (value, next) ∧
        g value = again) :
    ∀ span ∈ part.span, ∀ name, (p.run ⟨span.text, name⟩ true).map g = .ok again := by
  intro span kept name
  obtain ⟨first, rest, rfl, -, whole⟩ := read_reaches read
  obtain ⟨before, here, behind, front, scans⟩ := scans_infix scans inside
  obtain ⟨value, next, found, rfl⟩ :=
    alone first rest ⟨.finish, behind.offset, behind.offset⟩ rfl rfl
  rw [whole, scans.ending] at kept
  obtain rfl := Option.some.inj kept
  exact Parser.run_slice alike front scans found name

/-- The text of a value literal is a literal. -/
theorem value_slice {of : Value} (scans : Lexer.Scans ⟨0, source.chars⟩ inner after)
    (inside : own <:+: inner) (read : (value of).Read (source.place true) own) :
    ∀ span ∈ of.span, ∀ name,
      (Source.parseValue ⟨span.text, name⟩).map Value.unlocated = .ok of.unlocated := by
  refine slice_read scans inside read (fun r => Parser.alone_alike (Parser.value_alike ..)) ?_
  rintro first rest finish rfl last
  obtain ⟨isConst, depth, shallow, holds⟩ := read
  have complete : Parser.Complete ⟨source, none, true⟩ (Parser.value false Parser.maxDepth)
      (Grammar.value (source.place true) false Grammar.deepest) [] := Parser.value_complete false _
  obtain ⟨next, found⟩ :=
    complete.alone rfl List.not_mem_nil (Grammar.value_mono shallow of _ holds) last
  exact ⟨of, next, found, rfl⟩

/-- A type that stands somewhere may stand where no levels are used up, and conversely. -/
theorem read_type {of : TypeAnnotation} : (type of).Read (source.place true) own ↔
    Grammar.anyType (source.place true) Grammar.deepest of own := by
  cases of with
  | named of =>
    rw [Grammar.anyType]
    exact Iff.rfl
  | list | nonNull =>
    constructor
    · rintro ⟨-, depth, shallow, holds⟩
      exact Grammar.anyType_mono shallow _ holds
    · exact fun holds => ⟨false, Grammar.deepest, Nat.le_refl _, holds⟩

/-- The text of a type annotation is a type annotation. -/
theorem type_slice {of : TypeAnnotation} (scans : Lexer.Scans ⟨0, source.chars⟩ inner after)
    (inside : own <:+: inner) (read : (type of).Read (source.place true) own) :
    ∀ span ∈ of.span, ∀ name,
      (Source.parseType ⟨span.text, name⟩).map TypeAnnotation.unlocated = .ok of.unlocated := by
  have spans : of.span = (type of).span := by cases of <;> rfl
  rw [spans]
  refine slice_read scans inside read
    (fun r => Parser.alone_alike (Parser.typeAnnotation_alike _)) ?_
  rintro first rest finish rfl last
  have complete : Parser.Complete ⟨source, none, true⟩ ( Parser.typeAnnotation Parser.maxDepth)
      (Grammar.anyType (source.place true) Grammar.deepest) [.punctuator .bang] :=
    Parser.typeAnnotation_complete _
  obtain ⟨next, found⟩ := complete.alone rfl (by simp) (read_type.mp read) last
  exact ⟨of, next, found, rfl⟩

theorem read_definition {of : Definition} (read : (definition of).Read (source.place true) own) :
    Grammar.definition (source.place true) of own := by
  cases of <;> exact read

/-- The text of a definition is a document of just this definition. -/
theorem definition_slice {of : Definition} (scans : Lexer.Scans ⟨0, source.chars⟩ inner after)
    (inside : own <:+: inner) (read : (definition of).Read (source.place true) own) :
    ∀ span ∈ of.span, ∀ name, (Source.parseDocument ⟨span.text, name⟩).map Document.unlocated =
      .ok ⟨[of.unlocated], none⟩ := by
  have spans : of.span = (definition of).span := by cases of <;> rfl
  rw [spans]
  refine slice_read scans inside read (fun r => Parser.document_alike) ?_
  rintro first rest finish rfl last
  have holds : Grammar.Parts ([of].map (Grammar.definition (source.place true)) ++
      [Grammar.lexeme .finish]) (first :: rest ++ [finish]) :=
    ⟨first :: rest, [finish], rfl, read_definition read,
      Grammar.parts_single.mpr ⟨finish, rfl, last⟩⟩
  have run : ∃ next, Parser.definitions ((rest ++ [finish]).length + 2) ⟨source, none, true⟩
      ⟨first, rest ++ [finish], 0⟩ = .ok ([of], next) ∧ next.stop = _ :=
    Parser.definitions_complete rfl (List.cons_ne_nil of []) (by simp) holds
  obtain ⟨next, run, -⟩ := run
  refine ⟨⟨[of], source.place true first.start next.stop⟩, next, ?_, rfl⟩
  rw [Parser.document_apply, run]
  rfl

end Spanned
end GraphQL
