import GraphQL.Proofs.Grammar.Documents
import GraphQL.Proofs.Language.Slices
import GraphQL.Proofs.Locations.Productions

/-! Runs of parsers over texts: without locations, over texts that are not scanned to their end, and
over a slice from the first to the last of some tokens. -/
namespace GraphQL
open Ast

namespace Parser

variable {α : Type} {source : Source} {locations : Bool} {p : Parser α}

theorem run_cons {first : Token} {rest : List Token}
    (tokens : source.tokens.tokens = first :: rest) : p.run source locations =
      (p ⟨source, source.tokens.failure, locations⟩ ⟨first, rest, 0⟩).map Prod.fst := by
  simp only [Parser.run, tokens]

theorem run_nil (tokens : source.tokens.tokens = []) : p.run source locations =
    .error (source.tokens.failure.getD ⟨source, 0, .unexpectedLexeme .finish⟩) := by
  cases lexed : source.tokens.failure <;> simp only [Parser.run, tokens, lexed] <;> rfl

/-- The same tokens at the same places, locations aside. -/
def Rereading.plain (input : Input) : Rereading where
  input := input
  source := id
  position := id
  holds _ := True
  lasts _ _ _ _ := trivial

theorem Rereading.plain_state (input : Input) (state : State) :
    (Rereading.plain input).state state = state := by
  have same : (Rereading.plain input).token = id := rfl
  rw [Rereading.state, same, List.map_id]
  rfl

theorem Rereading.plain_again (source : Source) (failure : Option SyntaxError) (locations : Bool) :
    (Rereading.plain ⟨source, failure, locations⟩).again = ⟨source, failure, false⟩ := by
  have same : (Rereading.plain ⟨source, failure, locations⟩).error = id := rfl
  rw [Rereading.again, same, Option.map_id]
  rfl

/-- Without locations a text is read as the same node, or refused with the same error. -/
theorem run_unlocated {g : α → α} (alike : ∀ r, Alike r p g p) (source : Source) :
    p.run source false = (p.run source true).map g := by
  cases tokens : source.tokens.tokens with
  | nil =>
    rw [run_nil tokens, run_nil tokens]
    rfl
  | cons first rest =>
    rw [run_cons tokens, run_cons tokens]
    generalize source.tokens.failure = failure
    have reading := alike (.plain ⟨source, failure, true⟩)
    have same : (Rereading.plain ⟨source, failure, true⟩).again = ⟨source, failure, false⟩ :=
      Rereading.plain_again source failure true
    cases run : p ⟨source, failure, true⟩ ⟨first, rest, 0⟩ with
    | error error =>
      have refused := reading.refuses ⟨first, rest, 0⟩ error trivial run
      rw [same, Rereading.plain_state] at refused
      rw [refused]
      rfl
    | ok result =>
      have read := (reading.accepts ⟨first, rest, 0⟩ result.1 result.2 trivial run).2
      rw [same, Rereading.plain_state] at read
      rw [read]
      rfl

/-! Texts that are not scanned to their end -/

/-- The end of the text is not among the tokens that are left. -/
def State.Unfinished (state : State) : Prop := ∀ token ∈ state.tokens, token.lexeme ≠ .finish

/-- A reading that does not meet the end of the text. -/
def Rereading.unfinished (input : Input) : Rereading where
  input := input
  source := id
  position := id
  holds := State.Unfinished
  lasts state next unfinished run := by
    obtain ⟨current, rest, stop⟩ := state
    cases rest with
    | nil =>
      rw [advance_end] at run
      split at run <;> cases run
      exact unfinished
    | cons following rest =>
      cases run
      exact fun token member => unfinished token (List.mem_cons_of_mem _ member)

variable {input : Input} {state next : State}

theorem sees_unfinished (unfinished : state.Unfinished) :
    (state.kind == .finish) = false := by
  have here := unfinished state.current List.mem_cons_self
  exact beq_eq_false_iff_ne.mpr fun kind => here (kind_eq_finish kind)

theorem expectFinish_unfinished (unfinished : state.Unfinished) {done : Unit} :
    expect .finish input state ≠ .ok (done, next) := by
  intro run
  change (sees .finish >>= _) input state = _ at run
  rw [sees_apply, sees_unfinished unfinished] at run
  cases run

theorem definitions_unfinished (unfinished : state.Unfinished) {fuel : Nat}
    {value : List Definition} : definitions fuel input state ≠ .ok (value, next) := by
  induction fuel generalizing state next value with
  | zero =>
    intro run
    cases run
  | succ fuel ih =>
    intro run
    obtain ⟨first, middle, step, run⟩ := bind_ok run
    -- a definition is read without meeting the end, so another one has to follow
    have still : middle.Unfinished :=
      (definition_alike.accepts (r := .unfinished input) state first middle unfinished step).1
    rw [skip_apply, sees_unfinished still] at run
    obtain ⟨rest, last, more, -⟩ := bind_ok run
    exact ih still more

/-- A reader that goes on to the end of the text accepts no text that is not scanned to its end. -/
theorem run_lexed {value : α}
    (ends : ∀ input state next value, State.Unfinished state → p input state ≠ .ok (value, next))
    (run : p.run source locations = .ok value) : source.tokens.failure = none := by
  cases lexed : source.tokens.failure with
  | none => rfl
  | some error =>
    have unfinished := Source.tokens_unfinished lexed
    cases tokens : source.tokens.tokens with
    | nil =>
      rw [run_nil tokens] at run
      cases run
    | cons first rest =>
      rw [run_cons tokens] at run
      rw [tokens] at unfinished
      cases read : p ⟨source, source.tokens.failure, locations⟩ ⟨first, rest, 0⟩ with
      | error =>
        rw [read] at run
        cases run
      | ok result => exact absurd read (ends _ _ _ _ unfinished)

/-! Slices of texts -/

/-- A parser that goes on to the end of the text. -/
def alone (p : Parser α) : Parser α := do
  let value ← p
  expect .finish
  return value

variable {g : α → α} {r : Rereading}

theorem alone_alike (alike : Alike r p g p) : Alike r (alone p) g (alone p) :=
  alike.bind fun _ => (expect_alike .finish).bind fun _ => .pure rfl

/-- What is read up to the end of the text was read from all of the tokens before the end. -/
theorem alone_sound {phrase : α → Grammar.Phrase} {value : α} (sound : Sound input p phrase)
    (ends : state.Ends) (run : alone p input state = .ok (value, next)) :
    ∃ tokens finish, state.tokens = tokens ++ [finish] ∧ phrase value tokens := by
  obtain ⟨found, middle, step, run⟩ := bind_ok run
  obtain ⟨tokens, passes, holds⟩ := sound state found middle ends step
  obtain ⟨_, last, step, done⟩ := bind_ok run
  cases done
  change (sees .finish >>= _) input middle = _ at step
  rw [sees_apply] at step
  split at step
  · rename_i kind
    have here := kind_eq_finish (beq_iff_eq.mp kind)
    have only := (passes.ends ends [] middle.current middle.rest rfl).mp here
    exact ⟨tokens, middle.current, by rw [passes.ahead, State.tokens, only], holds⟩
  · obtain ⟨_, _, _, failed⟩ := bind_ok step
    cases failed

theorem alone_unfinished (alike : ∀ r, Alike r p g p) (unfinished : state.Unfinished) {value : α} :
    alone p input state ≠ .ok (value, next) := by
  intro run
  obtain ⟨first, middle, step, run⟩ := bind_ok run
  have still := ((alike (.unfinished input)).accepts state first middle unfinished step).1
  obtain ⟨done, last, ends, -⟩ := bind_ok run
  exact expectFinish_unfinished still ends

theorem document_unfinished (unfinished : state.Unfinished) {value : Document} :
    document input state ≠ .ok (value, next) := by
  intro run
  rw [document_apply] at run
  cases read : definitions (state.rest.length + 2) input state with
  | error =>
    rw [read] at run
    cases run
  | ok result => exact definitions_unfinished unfinished read

/-- The tokens of a phrase, and then the end of the text, are read as what they stand for. -/
theorem Complete.alone {phrase : α → Grammar.Phrase} {avoid : List Lexeme.Kind}
    (complete : Complete input p phrase avoid) (whole : input.failure = none)
    (free : .finish ∉ avoid) {first finish : Token} {rest : List Token} {value : α}
    (holds : phrase value (first :: rest)) (last : finish.lexeme = .finish) :
    ∃ next, alone p input ⟨first, rest ++ [finish], 0⟩ = .ok (value, next) := by
  have kind : finish.lexeme.kind = .finish := by rw [last]; rfl
  have read := complete value ⟨finish, [], Grammar.ending 0 (first :: rest)⟩
    ⟨first, rest ++ [finish], 0⟩ (first :: rest) holds ⟨rfl, rfl⟩ (by rwa [State.kind, kind])
  refine ⟨⟨finish, [], finish.stop⟩, ?_⟩
  rw [Parser.alone, bind_apply, read]
  change (expect .finish >>= _) input _ = _
  rw [bind_apply, expect, sees_apply, State.kind, kind, if_pos (by rfl), advance_end, whole]
  rfl

/-- A reading of tokens where the text begins later. -/
def Rereading.shifted (source slice : Source) (offset : Nat) : Rereading where
  input := ⟨source, none, true⟩
  source _ := slice
  position := (· - offset)
  holds _ := True
  lasts _ _ _ _ := trivial

/-- What is read from some tokens is read from the slice of these tokens, up to locations. -/
theorem run_slice {here after : Cursor} {before rest : List Token} {first : Token} {value : α}
    (alike : ∀ r, Alike r p g p) (front : Lexer.Scans ⟨0, source.chars⟩ before here)
    (scans : Lexer.Scans here (first :: rest) after)
    (read : p ⟨source, none, true⟩
      ⟨first, rest ++ [⟨.finish, after.offset, after.offset⟩], 0⟩ = .ok (value, next))
    (name : String) :
    (p.run ⟨(Span.mk first.start after.offset source).text, name⟩ true).map g = .ok (g value) := by
  have tokens := Source.slice_tokens front scans name
  generalize Source.mk (Span.mk first.start after.offset source).text name = slice at tokens ⊢
  have again := ((alike (.shifted source slice first.start)).accepts _ _ _ trivial read).2
  rw [Rereading.state, show (Rereading.shifted source slice first.start).position 0 = 0 from
    Nat.zero_sub first.start] at again
  rw [← run_unlocated alike, run_cons (congrArg Lexed.tokens tokens), tokens]
  exact congrArg (Except.map Prod.fst) again

end Parser
end GraphQL
