import GraphQL.Proofs.Grammar.Reads
import GraphQL.Proofs.Locations.Unlocated

/-! Parsers look at lexemes, and never at where they stand. So tokens that stand elsewhere, or whose
places are not kept, are read as the same nodes and refused for the same faults. -/
namespace GraphQL.Parser
open Ast

/-- A second reading of the tokens of an input, as tokens of another source that stand at other
positions, and without locations; from states that have a property which no step ends. -/
structure Rereading where
  input : Input
  source : Source → Source
  position : Nat → Nat
  holds : State → Prop
  lasts : ∀ state next, holds state → advance input state = .ok ((), next) → holds next

namespace Rereading
variable (r : Rereading)

def token (token : Token) : Token :=
  ⟨token.lexeme, r.position token.start, r.position token.stop⟩

def error (error : SyntaxError) : SyntaxError :=
  ⟨r.source error.source, r.position error.position, error.fault⟩

def again : Input := ⟨r.source r.input.source, r.input.failure.map r.error, false⟩

def state (state : State) : State :=
  ⟨r.token state.current, state.rest.map r.token, r.position state.stop⟩

end Rereading

/-- The second parser reads again what the first one has read, without locations, and fails where
the first one has failed. -/
structure Alike {α β : Type} (r : Rereading) (p : Parser α) (g : α → β) (q : Parser β) : Prop where
  accepts : ∀ state value next, r.holds state → p r.input state = .ok (value, next) →
    r.holds next ∧ q r.again (r.state state) = .ok (g value, r.state next)
  refuses : ∀ state error, r.holds state → p r.input state = .error error →
    q r.again (r.state state) = .error (r.error error)

theorem bind_error {α β : Type} {input : Input} {p : Parser α} {f : α → Parser β} {state : State}
    {error : SyntaxError} (run : (p >>= f) input state = .error error) :
    p input state = .error error ∨
      ∃ a middle, p input state = .ok (a, middle) ∧ f a input middle = .error error := by
  rw [bind_apply] at run
  cases step : p input state with
  | error other =>
    rw [step] at run
    exact .inl (by cases run; rfl)
  | ok result =>
    rw [step] at run
    exact .inr ⟨_, _, rfl, run⟩

section Combinators
variable {α β γ δ : Type} {r : Rereading} {p : Parser α} {q : Parser β} {g : α → β}

theorem Alike.bind {f : α → Parser γ} {k : β → Parser δ} {h : γ → δ} (first : Alike r p g q)
    (rest : ∀ a, Alike r (f a) h (k (g a))) : Alike r (p >>= f) h (q >>= k) where
  accepts state value next holds run := by
    obtain ⟨a, middle, step, run⟩ := bind_ok run
    obtain ⟨still, again⟩ := first.accepts state a middle holds step
    rw [bind_apply, again]
    exact (rest a).accepts middle value next still run
  refuses state error holds run := by
    rw [bind_apply]
    rcases bind_error run with failed | ⟨a, middle, step, run⟩
    · rw [first.refuses state error holds failed]
      rfl
    · obtain ⟨still, again⟩ := first.accepts state a middle holds step
      rw [again]
      exact (rest a).refuses middle error still run

theorem Alike.pure {a : α} {b : β} (same : g a = b) :
    Alike r (Pure.pure a) g (Pure.pure b) where
  accepts state value next holds run := by
    cases run
    exact ⟨holds, by rw [← same]; rfl⟩
  refuses state error holds run := by cases run

/-- What is only looked at in a state is looked at again. -/
theorem Alike.look {f : State → α} {k : State → β}
    (same : ∀ state, k (r.state state) = g (f state)) :
    Alike r (do return f (← get)) g (do return k (← get)) where
  accepts state value next holds run := by
    cases run
    refine ⟨holds, ?_⟩
    show Except.ok (k (r.state state), r.state state) = _
    rw [same]
  refuses state error holds run := by cases run

theorem Alike.throw (position : Nat) (found : Fault) :
    Alike r (faultAt position found) g (faultAt (r.position position) found) where
  accepts state value next holds run := by cases run
  refuses state error holds run := by
    cases run
    rfl

theorem current_alike : Alike r current r.token current := .look fun _ => rfl

theorem lexeme_alike : Alike r lexeme id lexeme := .look fun _ => rfl

theorem start_alike : Alike r start r.position start := .look fun _ => rfl

theorem sees_alike (kind : Lexeme.Kind) : Alike r (sees kind) id (sees kind) := .look fun _ => rfl

theorem seesMark_alike (mark : Punctuator) : Alike r (seesMark mark) id (seesMark mark) :=
  sees_alike _

theorem seesKeyword_alike (word : String) : Alike r (seesKeyword word) id (seesKeyword word) :=
  .look fun _ => rfl

theorem remaining_alike : Alike r remaining id remaining := .look fun state => by
  simp [Rereading.state]

theorem fault_alike (found : Fault) : Alike r (fault found : Parser α) g (fault found) :=
  start_alike.bind fun position => .throw position found

theorem unexpected_alike : Alike r (unexpected : Parser α) g unexpected :=
  lexeme_alike.bind fun _ => fault_alike _

theorem advance_alike : Alike r advance id advance where
  accepts state value next holds run := by
    refine ⟨r.lasts state next holds run, ?_⟩
    obtain ⟨token, rest, stop⟩ := state
    cases rest with
    | nil =>
      show advance r.again ⟨r.token token, [], r.position stop⟩ = _
      rw [advance_end] at run ⊢
      rw [Rereading.again]
      cases failure : r.input.failure with
      | none =>
        rw [failure] at run
        cases run
        rfl
      | some error =>
        rw [failure] at run
        cases run
    | cons following rest =>
      cases run
      rfl
  refuses state error holds run := by
    obtain ⟨token, rest, stop⟩ := state
    cases rest with
    | nil =>
      show advance r.again ⟨r.token token, [], r.position stop⟩ = _
      rw [advance_end] at run ⊢
      rw [Rereading.again]
      cases failure : r.input.failure with
      | none =>
        rw [failure] at run
        cases run
      | some error =>
        rw [failure] at run
        cases run
        rfl
    | cons following rest => cases run

theorem spanFrom_alike (position other : Nat) :
    Alike r (spanFrom position) (fun _ => none) (spanFrom other) where
  accepts state value next holds run := by
    rw [spanFrom_place] at run ⊢
    cases run
    exact ⟨holds, rfl⟩
  refuses state error holds run := by
    rw [spanFrom_place] at run
    cases run

/-- The last step of most parsers: the node, of which the span is not kept. -/
theorem Alike.node {f : Option Span → α} {k : Option Span → β} {position other : Nat}
    (same : ∀ span, g (f span) = k none) :
    Alike r (do return f (← spanFrom position)) g (do return k (← spanFrom other)) :=
  (spanFrom_alike position other).bind fun span => .pure (same span)

theorem Alike.ite {condition again : Parser Bool} {p' : Parser α} {q' : Parser β}
    (test : Alike r condition id again) (yes : Alike r p g q) (no : Alike r p' g q') :
    Alike r (do if ← condition then p else p') g (do if ← again then q else q') :=
  test.bind fun seen => by
    cases seen with
    | true => exact yes
    | false => exact no

theorem skip_alike (kind : Lexeme.Kind) : Alike r (skip kind) id (skip kind) :=
  .ite (sees_alike kind) (advance_alike.bind fun _ => .pure rfl) (.pure rfl)

theorem skipMark_alike (mark : Punctuator) : Alike r (skipMark mark) id (skipMark mark) :=
  skip_alike _

theorem expect_alike (kind : Lexeme.Kind) : Alike r (expect kind) id (expect kind) :=
  .ite (sees_alike kind) advance_alike (lexeme_alike.bind fun _ => fault_alike _)

theorem expectMark_alike (mark : Punctuator) : Alike r (expectMark mark) id (expectMark mark) :=
  expect_alike _

theorem expectKeyword_alike (word : String) :
    Alike r (expectKeyword word) id (expectKeyword word) :=
  .ite (seesKeyword_alike word) advance_alike (lexeme_alike.bind fun _ => fault_alike _)

theorem whileSeen_alike {condition again : Parser Bool} (test : Alike r condition id again)
    (item : Alike r p g q) (fuel : Nat) :
    Alike r (whileSeen condition p fuel) (List.map g) (whileSeen again q fuel) := by
  induction fuel with
  | zero => exact unexpected_alike
  | succ fuel ih =>
    exact .ite test (item.bind fun _ => ih.bind fun _ => .pure rfl) (.pure rfl)

theorem upTo_alike (close : Punctuator) (item : Alike r p g q) (fuel : Nat) :
    Alike r (upTo close p fuel) (List.map g) (upTo close q fuel) := by
  induction fuel with
  | zero => exact unexpected_alike
  | succ fuel ih =>
    exact .ite (skipMark_alike close) (.pure rfl) (item.bind fun _ => ih.bind fun _ => .pure rfl)

theorem any_alike (opening closing : Punctuator) (item : Alike r p g q) :
    Alike r (any opening p closing) (List.map g) (any opening q closing) :=
  (expectMark_alike opening).bind fun _ => remaining_alike.bind fun _ => upTo_alike _ item _

theorem many_alike (opening closing : Punctuator) (item : Alike r p g q) :
    Alike r (many opening p closing) (List.map g) (many opening q closing) :=
  (expectMark_alike opening).bind fun _ => item.bind fun _ => remaining_alike.bind fun _ =>
    (upTo_alike _ item _).bind fun _ => .pure rfl

theorem optionalMany_alike (opening closing : Punctuator) (item : Alike r p g q) :
    Alike r (optionalMany opening p closing) (List.map g) (optionalMany opening q closing) :=
  .ite (seesMark_alike opening) (many_alike opening closing item) (.pure rfl)

theorem separatedByBars_alike (item : Alike r p g q) :
    Alike r (separatedByBars p) (List.map g) (separatedByBars q) :=
  (skipMark_alike .pipe).bind fun _ => item.bind fun _ => remaining_alike.bind fun _ =>
    (whileSeen_alike (skipMark_alike .pipe) item _).bind fun _ => .pure rfl

end Combinators
end GraphQL.Parser
