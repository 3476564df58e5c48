import GraphQL.Parser.Basic
import GraphQL.Proofs.Language.Written

/-! Parsers without spans, seen from both sides: what holds of every answer of a parser, and
which lexemes it answers a value on. Both are composed along the parser's own steps. -/
namespace GraphQL.Parser
open Ast

variable {α β : Type}

/-- The lexemes that a parser has not consumed. -/
def State.lexemes (state : State) : List Lexeme := (state.current :: state.rest).map Token.lexeme

/-- The lexemes ahead come from a scanned text. -/
def State.Spelled (state : State) : Prop := ∀ l ∈ state.lexemes, l = .finish ∨ l.Spelled

/-- Whatever the parser answers on a scanned text has the property. -/
def Ensures (p : Parser α) (P : α → Prop) : Prop :=
  ∀ (input : Input) (state : State) (value : α) (next : State), input.locations = false →
    state.Spelled → p input state = .ok (value, next) → next.Spelled ∧ P value

/-- A text that is scanned to its end, and parsed without spans. -/
structure Input.Plain (input : Input) : Prop where
  noSpans : input.locations = false
  whole : input.failure = none

/-- On the given lexemes the parser answers the value and leaves the rest of them. -/
def Yields (p : Parser α) (ls : List Lexeme) (value : α) (left : List Lexeme) : Prop :=
  ∀ (input : Input) (state : State), input.Plain → state.lexemes = ls →
    ∃ next, p input state = .ok (value, next) ∧ next.lexemes = left

theorem bind_apply (p : Parser α) (f : α → Parser β) (input : Input) (state : State) :
    (p >>= f) input state = (p input state).bind fun r => f r.1 input r.2 := rfl

theorem spanFrom_apply {input : Input} (plain : input.locations = false) (start : Nat)
    (state : State) : spanFrom start input state = .ok (none, state) := by
  rcases input with ⟨source, failure, locations⟩
  cases plain
  rfl

theorem advance_next (input : Input) (token following : Token) (rest : List Token) (stop : Nat) :
    advance input ⟨token, following :: rest, stop⟩ = .ok ((), ⟨following, rest, token.stop⟩) := rfl

theorem advance_end (input : Input) (token : Token) (stop : Nat) :
    advance input ⟨token, [], stop⟩ =
      match input.failure with
      | some error => .error error
      | none => .ok ((), ⟨token, [], token.stop⟩) := by
  rcases input with ⟨source, failure, locations⟩
  cases failure <;> rfl

theorem read_of_isSome {ε : Type} (result : Except ε α) (some : result.toOption.isSome = true) :
    ∃ a, result = .ok a := by
  cases result with
  | error error => cases some
  | ok a => exact ⟨a, rfl⟩

section Ensures
variable {p : Parser α} {f : α → Parser β} {P : α → Prop} {Q : β → Prop}

theorem Ensures.bind (first : Ensures p P) (next : ∀ a, P a → Ensures (f a) Q) :
    Ensures (p >>= f) Q := by
  intro input state value last plain spelled run
  rw [bind_apply] at run
  cases step : p input state with
  | error error =>
    rw [step] at run
    cases run
  | ok result =>
    rw [step] at run
    obtain ⟨spelled, property⟩ := first input state result.1 result.2 plain spelled step
    exact next result.1 property input result.2 value last plain spelled run

theorem Ensures.pure {a : α} (property : P a) : Ensures (pure a) P := by
  intro input state value next plain spelled run
  cases run
  exact ⟨spelled, property⟩

theorem Ensures.map {g : α → β} (ensures : Ensures p P) (maps : ∀ a, P a → Q (g a)) :
    Ensures (g <$> p) Q := by
  rw [← bind_pure_comp]
  exact ensures.bind fun a property => .pure (maps a property)

theorem Ensures.mono {R : α → Prop} (ensures : Ensures p P) (weaker : ∀ a, P a → R a) :
    Ensures p R := by
  intro input state value next plain spelled run
  obtain ⟨spelled, property⟩ := ensures input state value next plain spelled run
  exact ⟨spelled, weaker value property⟩

theorem Ensures.ite {c : Prop} [Decidable c] {q : Parser α} (yes : c → Ensures p P)
    (no : ¬c → Ensures q P) : Ensures (if c then p else q) P := by
  split
  · exact yes ‹c›
  · exact no ‹¬c›

theorem faultAt_ensures (position : Nat) (found : Fault) : Ensures (faultAt position found) P := by
  intro input state value next plain spelled run
  cases run

theorem fault_ensures (found : Fault) : Ensures (fault found) P := by
  intro input state value next plain spelled run
  cases run

theorem unexpected_ensures : Ensures (unexpected : Parser α) P := by
  intro input state value next plain spelled run
  cases run

theorem current_ensures :
    Ensures current fun token => token.lexeme = .finish ∨ token.lexeme.Spelled := by
  intro input state value next plain spelled run
  cases run
  exact ⟨spelled, spelled _ List.mem_cons_self⟩

theorem lexeme_ensures : Ensures lexeme fun l => l = .finish ∨ l.Spelled :=
  current_ensures.bind fun _ spelled => .pure spelled

theorem start_ensures : Ensures start fun _ => True :=
  current_ensures.bind fun _ _ => .pure trivial

theorem spanFrom_ensures (start : Nat) : Ensures (spanFrom start) (· = none) := by
  intro input state value next plain spelled run
  rw [spanFrom_apply plain] at run
  cases run
  exact ⟨spelled, rfl⟩

theorem sees_ensures (kind : Lexeme.Kind) : Ensures (sees kind) fun _ => True :=
  lexeme_ensures.bind fun _ _ => .pure trivial

theorem seesKeyword_ensures (word : String) : Ensures (seesKeyword word) fun _ => True :=
  lexeme_ensures.bind fun _ _ => .pure trivial

theorem remaining_ensures : Ensures remaining fun _ => True := by
  intro input state value next plain spelled run
  cases run
  exact ⟨spelled, trivial⟩

theorem advance_ensures : Ensures advance fun _ => True := by
  rintro input ⟨token, rest, stop⟩ value next plain spelled run
  refine ⟨?_, trivial⟩
  cases rest with
  | nil =>
    rw [advance_end] at run
    split at run
    · cases run
    · cases run
      exact spelled
  | cons following rest =>
    cases run
    exact fun l member => spelled l (List.mem_cons_of_mem _ member)

theorem skip_ensures (kind : Lexeme.Kind) : Ensures (skip kind) fun _ => True :=
  (sees_ensures kind).bind fun _ _ =>
    .ite (fun _ => advance_ensures.bind fun _ _ => .pure trivial) fun _ => .pure trivial

theorem expect_ensures (kind : Lexeme.Kind) : Ensures (expect kind) fun _ => True :=
  (sees_ensures kind).bind fun _ _ =>
    .ite (fun _ => advance_ensures) fun _ => lexeme_ensures.bind fun _ _ => fault_ensures _

theorem expectKeyword_ensures (word : String) : Ensures (expectKeyword word) fun _ => True :=
  (seesKeyword_ensures word).bind fun _ _ =>
    .ite (fun _ => advance_ensures) fun _ => lexeme_ensures.bind fun _ _ => fault_ensures _

theorem whileSeen_ensures {condition : Parser Bool} {R : Bool → Prop} (seen : Ensures condition R)
    (item : Ensures p P) (fuel : Nat) :
    Ensures (whileSeen condition p fuel) fun values => ∀ a ∈ values, P a := by
  induction fuel with
  | zero => exact unexpected_ensures
  | succ fuel ih =>
    refine seen.bind fun _ _ => .ite (fun _ => ?_) fun _ => .pure (by simp)
    refine item.bind fun a property => ih.bind fun values all => .pure ?_
    simpa using ⟨property, all⟩

theorem upTo_ensures (close : Punctuator) (item : Ensures p P) (fuel : Nat) :
    Ensures (upTo close p fuel) fun values => ∀ a ∈ values, P a := by
  induction fuel with
  | zero => exact unexpected_ensures
  | succ fuel ih =>
    refine (skip_ensures _).bind fun _ _ => .ite (fun _ => .pure (by simp)) fun _ => ?_
    refine item.bind fun a property => ih.bind fun values all => .pure ?_
    simpa using ⟨property, all⟩

theorem any_ensures (opening closing : Punctuator) (item : Ensures p P) :
    Ensures (any opening p closing) fun values => ∀ a ∈ values, P a :=
  (expect_ensures _).bind fun _ _ => remaining_ensures.bind fun fuel _ =>
    upTo_ensures closing item fuel

theorem many_ensures (opening closing : Punctuator) (item : Ensures p P) :
    Ensures (many opening p closing) fun values => values ≠ [] ∧ ∀ a ∈ values, P a := by
  refine (expect_ensures _).bind fun _ _ => item.bind fun a property =>
    remaining_ensures.bind fun fuel _ => (upTo_ensures closing item fuel).bind fun values all =>
      .pure ⟨by simp, ?_⟩
  simpa using ⟨property, all⟩

theorem optionalMany_ensures (opening closing : Punctuator) (item : Ensures p P) :
    Ensures (optionalMany opening p closing) fun values => ∀ a ∈ values, P a :=
  (sees_ensures _).bind fun _ _ =>
    .ite (fun _ => (many_ensures opening closing item).mono fun _ all => all.2)
      fun _ => .pure (by simp)

theorem separatedByBars_ensures (item : Ensures p P) :
    Ensures (separatedByBars p) fun values => values ≠ [] ∧ ∀ a ∈ values, P a := by
  refine (skip_ensures _).bind fun _ _ => item.bind fun a property =>
    remaining_ensures.bind fun fuel _ =>
      (whileSeen_ensures (skip_ensures _) item fuel).bind fun values all => .pure ⟨by simp, ?_⟩
  simpa using ⟨property, all⟩

end Ensures

section Yields
variable {p : Parser α} {f : α → Parser β} {a : α} {b : β} {l m : Lexeme} {ls ms ks : List Lexeme}

theorem Yields.bind (first : Yields p ls a ms) (next : Yields (f a) ms b ks) :
    Yields (p >>= f) ls b ks := by
  intro input state plain ahead
  obtain ⟨middle, step, ahead⟩ := first input state plain ahead
  obtain ⟨last, run, ahead⟩ := next input middle plain ahead
  refine ⟨last, ?_, ahead⟩
  rw [bind_apply, step]
  exact run

theorem Yields.pure : Yields (pure a) ls a ls := fun _ state _ ahead => ⟨state, rfl, ahead⟩

theorem Yields.map {g : α → β} (read : Yields p ls a ms) : Yields (g <$> p) ls (g a) ms := by
  rw [← bind_pure_comp]
  exact read.bind .pure

theorem Yields.current {f : Token → Parser β}
    (next : ∀ token, token.lexeme = l → Yields (f token) (l :: ls) b ks) :
    Yields (current >>= f) (l :: ls) b ks := by
  intro input state plain ahead
  exact next state.current (List.cons.inj ahead).1 input state plain ahead

theorem Yields.lexeme : Yields lexeme (l :: ls) l (l :: ls) :=
  .current fun _ same => same ▸ .pure

theorem Yields.start {f : Nat → Parser β} (next : ∀ offset, Yields (f offset) ls b ks) :
    Yields (start >>= f) ls b ks :=
  fun input state plain ahead => next state.current.start input state plain ahead

theorem Yields.remaining {f : Nat → Parser β}
    (next : ∀ fuel, ls.length < fuel → Yields (f fuel) ls b ks) :
    Yields (remaining >>= f) ls b ks := by
  intro input state plain ahead
  refine next _ ?_ input state plain ahead
  have count := congrArg List.length ahead
  simp only [State.lexemes, List.map_cons, List.length_cons, List.length_map] at count
  omega

theorem Yields.spanFrom (start : Nat) : Yields (spanFrom start) ls none ls :=
  fun _ state plain ahead => ⟨state, spanFrom_apply plain.noSpans start state, ahead⟩

/-- The last step of most parsers: the span, which is left out, and the node. -/
theorem Yields.node {f : Option Span → α} (start : Nat) :
    Yields (do return f (← Parser.spanFrom start)) ls (f none) ls :=
  (Yields.spanFrom start).bind .pure

theorem Yields.advance (more : ls ≠ []) : Yields advance (l :: ls) () ls := by
  rintro input ⟨token, rest, stop⟩ plain ahead
  obtain ⟨-, ahead⟩ := List.cons.inj ahead
  cases rest with
  | nil => exact absurd ahead.symm more
  | cons following rest => exact ⟨_, advance_next input token following rest stop, ahead⟩

/-- At the end of the text a step stays there. -/
theorem Yields.advanceLast : Yields Parser.advance [l] () [l] := by
  rintro input ⟨token, rest, stop⟩ plain ahead
  obtain ⟨same, none⟩ := List.cons.inj ahead
  cases List.map_eq_nil_iff.mp none
  refine ⟨⟨token, [], token.stop⟩, ?_, by simpa [State.lexemes] using same⟩
  rw [advance_end, plain.whole]

theorem Yields.sees (kind : Lexeme.Kind) : Yields (Parser.sees kind) (l :: ls) (l.kind == kind) (l :: ls) :=
  Yields.lexeme.bind .pure

theorem Yields.seen {kind : Lexeme.Kind} (same : l.kind = kind) :
    Yields (Parser.sees kind) (l :: ls) true (l :: ls) :=
  beq_iff_eq.mpr same ▸ Yields.sees kind

theorem Yields.unseen {kind : Lexeme.Kind} (other : l.kind ≠ kind) :
    Yields (Parser.sees kind) (l :: ls) false (l :: ls) :=
  beq_eq_false_iff_ne.mpr other ▸ Yields.sees kind

theorem Yields.seesKeyword (word : String) :
    Yields (Parser.seesKeyword word) (l :: ls) (l == .name word) (l :: ls) :=
  Yields.lexeme.bind .pure

theorem Yields.skip {kind : Lexeme.Kind} (same : l.kind = kind) (more : ls ≠ []) :
    Yields (Parser.skip kind) (l :: ls) true ls :=
  (Yields.seen same).bind ((Yields.advance more).bind .pure)

theorem Yields.skipLast {kind : Lexeme.Kind} (same : l.kind = kind) :
    Yields (Parser.skip kind) [l] true [l] :=
  (Yields.seen same).bind (Yields.advanceLast.bind .pure)

theorem Yields.noSkip {kind : Lexeme.Kind} (other : l.kind ≠ kind) :
    Yields (Parser.skip kind) (l :: ls) false (l :: ls) :=
  (Yields.unseen other).bind .pure

theorem Yields.skipMark {mark : Punctuator} (more : ls ≠ []) :
    Yields (Parser.skipMark mark) (.punctuator mark :: ls) true ls := .skip rfl more

theorem Yields.noSkipMark {mark : Punctuator} (other : l.kind ≠ .punctuator mark) :
    Yields (Parser.skipMark mark) (l :: ls) false (l :: ls) := .noSkip other

theorem Yields.expect {kind : Lexeme.Kind} (same : l.kind = kind) (more : ls ≠ []) :
    Yields (Parser.expect kind) (l :: ls) () ls :=
  (Yields.seen same).bind (.advance more)

theorem Yields.expectLast {kind : Lexeme.Kind} (same : l.kind = kind) :
    Yields (Parser.expect kind) [l] () [l] :=
  (Yields.seen same).bind .advanceLast

theorem Yields.expectMark {mark : Punctuator} (more : ls ≠ []) :
    Yields (Parser.expectMark mark) (.punctuator mark :: ls) () ls := .expect rfl more

theorem Yields.expectKeyword {word : String} (more : ls ≠ []) :
    Yields (Parser.expectKeyword word) (.name word :: ls) () ls := by
  refine (Yields.seesKeyword word).bind ?_
  rw [if_pos (by simp)]
  exact .advance more

end Yields

end GraphQL.Parser
