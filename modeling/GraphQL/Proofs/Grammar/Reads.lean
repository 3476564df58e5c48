import GraphQL.Proofs.Parser.Form
import GraphQL.Proofs.Grammar.Phrases

/-! Parsers beside phrases. A parser is sound for a phrase if what it answers was read from such
tokens, and complete for it if it answers whatever such tokens stand for, unless they run on into
the next token. Both are composed along the parser's own steps. -/
namespace GraphQL

/-- The span between two offsets of a text, where locations are kept. -/
def Source.place (source : Source) (locations : Bool) (start stop : Nat) : Option Span :=
  if locations then some ⟨start, stop, source⟩ else none

namespace Parser
open Ast
open Grammar (Phrase Parts node mark word ending extent)

variable {α β : Type}

/-- The tokens that a parser has not consumed. -/
def State.tokens (state : State) : List Token := state.current :: state.rest

/-- The kind of the token at hand. -/
def State.kind (state : State) : Lexeme.Kind := state.current.lexeme.kind

/-- The end of the text is the last token, and no other. -/
def State.Ends (state : State) : Prop :=
  ∀ before token after, state.tokens = before ++ token :: after →
    (token.lexeme = .finish ↔ after = [])

/-- The tokens lead from one state to the other. -/
structure Passes (state : State) (tokens : List Token) (next : State) : Prop where
  ahead : state.tokens = tokens ++ next.tokens
  stop : next.stop = ending state.stop tokens

/-- The span between two offsets of the text that is parsed. -/
def Input.place (input : Input) : Nat → Nat → Option Span := input.source.place input.locations

variable (input : Input)

/-- What the parser answers was read from tokens of the phrase. -/
def Sound (p : Parser α) (phrase : α → Phrase) : Prop :=
  ∀ state value next, state.Ends → p input state = .ok (value, next) →
    ∃ tokens, Passes state tokens next ∧ phrase value tokens

/-- `Sound` for what is left of a parser once some parts have been read. -/
def After (origin : State) (done : List Phrase) (p : Parser α) (phrase : α → Phrase) : Prop :=
  ∀ front state value next, origin.Ends → Parts done front → Passes origin front state →
    p input state = .ok (value, next) → ∃ tokens, Passes origin tokens next ∧ phrase value tokens

/-- Up to a last state, in front of any token but of the given kinds, the parser answers the value
for tokens of the phrase. -/
def Reads (last : State) (p : Parser α) (value : α) (phrase : Phrase) (avoid : List Lexeme.Kind) :
    Prop :=
  ∀ state tokens, phrase tokens → Passes state tokens last → last.kind ∉ avoid →
    p input state = .ok (value, last)

/-- Tokens of the phrase are read as what they stand for. -/
def Complete (p : Parser α) (phrase : α → Phrase) (avoid : List Lexeme.Kind) : Prop :=
  ∀ value last, Reads input last p value (phrase value) avoid

variable {input}

namespace Passes
variable {state middle next : State} {tokens more : List Token}

theorem refl (state : State) : Passes state [] state := ⟨rfl, rfl⟩

theorem trans (first : Passes state tokens middle) (second : Passes middle more next) :
    Passes state (tokens ++ more) next where
  ahead := by rw [first.ahead, second.ahead, List.append_assoc]
  stop := by rw [second.stop, first.stop, Grammar.ending_append]

theorem ends (passes : Passes state tokens next) (ends : state.Ends) : next.Ends :=
  fun before token after split =>
    ends (tokens ++ before) token after (by rw [passes.ahead, split, List.append_assoc])

/-- No tokens lead nowhere. -/
theorem eq (passes : Passes state [] next) : state = next := by
  obtain ⟨current, rest, stop⟩ := state
  obtain ⟨current', rest', stop'⟩ := next
  obtain ⟨⟨⟩, ⟨⟩⟩ := passes
  rfl

/-- There is a state after the first of the tokens ahead, if there are more. -/
theorem upTo (ahead : state.tokens = tokens ++ more) (some : more ≠ []) :
    ∃ middle, Passes state tokens middle ∧ middle.tokens = more := by
  obtain ⟨current, rest, rfl⟩ := List.exists_cons_of_ne_nil some
  exact ⟨⟨current, rest, ending state.stop tokens⟩, ⟨ahead, rfl⟩, rfl⟩

/-- There is a state between two runs of tokens. -/
theorem between (passes : Passes state (tokens ++ more) next) :
    ∃ middle, Passes state tokens middle ∧ Passes middle more next := by
  have ahead : state.tokens = tokens ++ (more ++ next.tokens) := by
    rw [passes.ahead, List.append_assoc]
  obtain ⟨middle, first, rest⟩ := upTo ahead (by simp [State.tokens])
  exact ⟨middle, first, rest, by rw [passes.stop, first.stop, Grammar.ending_append]⟩

/-- The first of the tokens is the one at hand. -/
theorem current {token : Token} (passes : Passes state (token :: tokens) next) :
    state.current = token := (List.cons.inj passes.ahead).1

theorem advance {token : Token} (passes : Passes state (token :: tokens) next) :
    ∃ middle, Passes middle tokens next ∧ advance input state = .ok ((), middle) := by
  obtain ⟨middle, one, rest⟩ := between (show Passes state ([token] ++ tokens) next from passes)
  obtain ⟨here, after⟩ := List.cons.inj one.ahead
  refine ⟨middle, rest, ?_⟩
  obtain ⟨current, following, stop⟩ := state
  obtain ⟨current', following', stop'⟩ := middle
  cases here
  cases after
  obtain rfl : stop' = current.stop := one.stop
  rfl

theorem extent (passes : Passes state tokens next) (filled : tokens ≠ []) :
    extent input.place tokens = input.place state.current.start next.stop := by
  cases tokens with
  | nil => contradiction
  | cons token rest =>
    rw [passes.stop, passes.current]
    rfl

end Passes

theorem spanFrom_place (start : Nat) (state : State) :
    spanFrom start input state = .ok (input.place start state.stop, state) := by
  unfold Input.place Source.place
  rcases input with ⟨source, failure, _ | _⟩ <;> rfl

theorem kind_eq_punctuator {l : Lexeme} {m : Punctuator} :
    l.kind = .punctuator m ↔ l = .punctuator m := by
  cases l <;> simp [Lexeme.kind]

theorem advance_passes {state next : State} {done : Unit} (ends : state.Ends)
    (more : state.current.lexeme ≠ .finish) (run : advance input state = .ok (done, next)) :
    Passes state [state.current] next := by
  obtain ⟨current, rest, stop⟩ := state
  cases rest with
  | nil => exact absurd ((ends [] current [] rfl).mpr rfl) more
  | cons following rest =>
    cases run
    exact ⟨rfl, rfl⟩

theorem bind_ok {p : Parser α} {f : α → Parser β} {state next : State} {value : β}
    (run : (p >>= f) input state = .ok (value, next)) :
    ∃ a middle, p input state = .ok (a, middle) ∧ f a input middle = .ok (value, next) := by
  rw [bind_apply] at run
  cases step : p input state with
  | error error =>
    rw [step] at run
    cases run
  | ok result =>
    rw [step] at run
    exact ⟨_, _, rfl, run⟩

end Parser
end GraphQL
