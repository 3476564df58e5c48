import GraphQL.Proofs.Grammar.Completeness
import GraphQL.Proofs.Grammar.Soundness
import GraphQL.Proofs.Language.Ending

/-! The parser accepts exactly the documents of the grammar. A text has at most one document, as
the parser answers at most one. -/
namespace GraphQL

namespace Parser
open Ast
open Grammar (Parts ending extent parts_concat parts_single parts_flatten parts_count)

variable {input : Input} {state next : State}

/-- A step over the end of the text stays there. -/
theorem advance_finish (at' : state.rest = []) (run : advance input state = .ok ((), next)) :
    next.stop = state.current.stop := by
  obtain ⟨current, rest, stop⟩ := state
  cases at'
  rw [advance_end] at run
  split at run <;> cases run
  rfl

theorem kind_eq_finish {l : Lexeme} (kind : l.kind = .finish) : l = .finish := by
  cases l <;> first | rfl | cases kind

theorem definitions_sound {fuel : Nat} {value : List Definition} (ends : state.Ends)
    (run : definitions fuel input state = .ok (value, next)) :
    value ≠ [] ∧
      Parts (value.map (Grammar.definition input.place) ++ [Grammar.lexeme .finish]) state.tokens ∧
      next.stop = ending state.stop state.tokens := by
  induction fuel generalizing state value with
  | zero => cases run
  | succ fuel ih =>
    obtain ⟨first, middle, step, run⟩ := bind_ok run
    obtain ⟨tokens, passes, holds⟩ := definition_sound state first middle ends step
    have closing := passes.ends ends
    rw [skip_apply] at run
    rw [passes.ahead]
    split at run
    · rename_i finish
      obtain ⟨_, last, step, done⟩ := bind_ok run
      cases done
      have here := kind_eq_finish (beq_iff_eq.mp finish)
      have only : middle.rest = [] := (closing [] middle.current middle.rest rfl).mp here
      have tail : middle.tokens = [middle.current] := by rw [State.tokens, only]
      refine ⟨by simp, ?_, ?_⟩
      · exact ⟨tokens, middle.tokens, rfl, holds, parts_single.mpr ⟨_, tail, here⟩⟩
      · rw [advance_finish only step, tail, Grammar.ending_append]
        rfl
    · obtain ⟨rest, last, more, done⟩ := bind_ok run
      cases done
      obtain ⟨-, parts, stop⟩ := ih closing more
      refine ⟨by simp, ?_, ?_⟩
      · exact ⟨tokens, middle.tokens, rfl, holds, parts⟩
      · rw [stop, passes.stop, Grammar.ending_append]

/-- What is left of a document starts as a definition does, or is its end. -/
theorem definitions_begin (rest : List Definition) :
    Grammar.Begins [.finish, .name, .punctuator .braceL]
      (Parts (rest.map (Grammar.definition input.place) ++ [Grammar.lexeme .finish])) := by
  cases rest with
  | nil => exact .mono (Grammar.lexeme_begins .finish).parts (by decide)
  | cons first rest => exact .mono (Grammar.definition_begins first).parts (by decide)

/-- The definitions up to the end of the text are read, and where they end is remembered. -/
theorem definitions_complete (whole : input.failure = none) {fuel : Nat} {value : List Definition}
    (some : value ≠ []) (enough : value.length < fuel)
    (holds : Parts (value.map (Grammar.definition input.place) ++ [Grammar.lexeme .finish])
      state.tokens) :
    ∃ next, definitions fuel input state = .ok (value, next) ∧
      next.stop = ending state.stop state.tokens := by
  induction value generalizing fuel state with
  | nil => contradiction
  | cons first rest ih =>
    cases fuel with
    | zero => simp at enough
    | succ fuel =>
      obtain ⟨here, more, split, defined, after⟩ := holds
      have begins := @definitions_begin input rest
      obtain ⟨middle, passes, rfl⟩ := Passes.upTo split fun none => begins.filled (none ▸ after)
      have free : middle.kind ∉ moreDefinition := by
        have known := begins.leads _ after middle.current rfl
        exact (show Disjoint _ moreDefinition by decide) _ known
      have step := definition_complete first middle state here defined passes free
      rw [definitions, bind_apply, step, split, Grammar.ending_append, ← passes.stop]
      change ∃ next, (skip .finish >>= _) input middle = _ ∧ _
      rw [skip_apply]
      cases rest with
      | nil =>
        obtain ⟨token, only, finish⟩ := parts_single.mp after
        obtain ⟨current, rest, stop⟩ := middle
        obtain ⟨rfl, rfl⟩ := List.cons.inj only
        have last : (⟨current, [], stop⟩ : State).kind = .finish := congrArg Lexeme.kind finish
        rw [if_pos (beq_iff_eq.mpr last), bind_apply, advance_end, whole]
        exact ⟨_, rfl, rfl⟩
      | cons second rest =>
        have known := (Grammar.definition_begins second).parts.leads _ after middle.current rfl
        have other : middle.kind ≠ .finish := by
          intro finish
          rw [State.kind] at finish
          rw [finish] at known
          exact absurd known (by decide)
        obtain ⟨next, run, stop⟩ := ih (by simp) (Nat.lt_of_succ_lt_succ enough) after
        refine ⟨next, ?_, stop⟩
        rw [if_neg (by simpa using other)]
        change (definitions fuel >>= fun rest => pure (first :: rest)) input middle = _
        rw [bind_apply, run]
        rfl

theorem document_apply (state : State) :
    document input state = (definitions (state.rest.length + 2) input state).map fun r =>
      (⟨r.1, input.place state.current.start r.2.stop⟩, r.2) := by
  change (definitions (state.rest.length + 2) >>= fun value =>
    spanFrom state.current.start >>= fun span => pure (⟨value, span⟩ : Document)) input state = _
  rw [bind_apply]
  cases definitions (state.rest.length + 2) input state with
  | error => rfl
  | ok r =>
    change (spanFrom state.current.start >>= _) input r.2 = _
    rw [bind_apply, spanFrom_place]
    rfl

theorem document_iff (whole : input.failure = none) (ends : state.Ends) {value : Document} :
    (document input state).map Prod.fst = .ok value ↔
      Grammar.document input.place value state.tokens := by
  obtain ⟨value, span⟩ := value
  rw [document_apply]
  constructor
  · intro run
    cases found : definitions (state.rest.length + 2) input state with
    | error =>
      rw [found] at run
      cases run
    | ok r =>
      rw [found] at run
      cases run
      obtain ⟨some, parts, stop⟩ := definitions_sound ends found
      exact ⟨some, by rw [stop]; rfl, (@parts_flatten [] _ _ _).mpr parts⟩
  · rintro ⟨some, rfl, parts⟩
    have holds := (@parts_flatten [] _ _ _).mp parts
    have filled : ∀ part ∈ value.map (Grammar.definition input.place) ++ [Grammar.lexeme .finish],
        ¬ part [] := by
      intro part member
      rcases List.mem_append.mp member with member | member
      · obtain ⟨definition, -, rfl⟩ := List.mem_map.mp member
        exact (Grammar.definition_begins definition).filled
      · rw [List.mem_singleton.mp member]
        exact (Grammar.lexeme_begins .finish).filled
    have enough : value.length < state.rest.length + 2 := by
      have count := parts_count filled holds
      simp only [State.tokens, List.length_append, List.length_map, List.length_cons] at count
      omega
    obtain ⟨next, run, stop⟩ := definitions_complete whole some enough holds
    rw [run]
    change Except.ok (⟨value, input.place state.current.start next.stop⟩ : Document) = _
    rw [stop]
    rfl

end Parser

/-- The parser answers a document just where the tokens of the text make it up in the grammar, and
they make up no other. -/
theorem parseDocument_grammar (source : Source) (locations : Bool)
    (lexed : source.tokens.failure = none) :
    (∀ document, source.parseDocument locations = .ok document ↔
      Grammar.document (source.place locations) document source.tokens.tokens) ∧
    ∀ first second, Grammar.document (source.place locations) first source.tokens.tokens →
      Grammar.document (source.place locations) second source.tokens.tokens → first = second := by
  have accepts (document : Ast.Document) : source.parseDocument locations = .ok document ↔
      Grammar.document (source.place locations) document source.tokens.tokens := by
    have ended := source.tokens_ended lexed
    unfold Source.parseDocument Parser.run
    simp only [lexed]
    cases tokens : source.tokens.tokens with
    | nil => exact absurd tokens ended.some
    | cons first rest =>
      rw [tokens] at ended
      exact @Parser.document_iff ⟨source, none, locations⟩ ⟨first, rest, 0⟩ rfl ended.last
        document
  refine ⟨accepts, fun first second one two => ?_⟩
  have same := (accepts first).mpr one
  rw [(accepts second).mpr two] at same
  exact (Except.ok.inj same).symm

/-- A text whose names are spelled as keywords, with nested parts and optional ones left out. -/
def keywordNames : Source where
  body := "query on($a: [Int!]! = 1) \x7b on: type(b: \x7bc: [$a, null]\x7d) @on " ++
    "... on on \x7b query \x7d ...f \x7d fragment f on type \x7b x \x7d " ++
    "type type implements on input @on \x7b on(a: E = A): on! \x7d union on = | a | b"

theorem parseDocument_grammar_keywords :
    keywordNames.tokens.failure = none ∧
      ∃ document, keywordNames.parseDocument = .ok document ∧
        Grammar.document (keywordNames.place true) document keywordNames.tokens.tokens ∧
        ∀ other, Grammar.document (keywordNames.place true) other keywordNames.tokens.tokens →
          other = document := by
  have lexed : keywordNames.tokens.failure = none := by decide +kernel
  obtain ⟨document, read⟩ := Parser.read_of_isSome keywordNames.parseDocument (by decide +kernel)
  obtain ⟨accepts, unique⟩ := parseDocument_grammar keywordNames true lexed
  have derived := (accepts document).mp read
  exact ⟨lexed, document, read, derived, fun other holds => unique other document holds derived⟩

end GraphQL
