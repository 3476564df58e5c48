import GraphQL.Proofs.Grammar.Completeness
import GraphQL.Proofs.Locations.Rereading

/-! Parsers that count. A counted parser keeps how deep it is and how deep it has been, also where it
fails, and answers `stalled` where a loop or a recursion would go on without taking a token. It is
compared with the parser that is told how many levels are left. -/
namespace GraphQL.Parser
open Ast

/-- What stays fixed while a text is parsed and levels are counted. -/
structure Setting where
  input : Input
  limit : Nat

/-- The state of a parser, how many levels it is in, and how many it has been in. -/
structure Gauge where
  state : State
  depth : Nat
  peak : Nat

/-- One level deeper. -/
def Gauge.enter (gauge : Gauge) : Gauge :=
  { gauge with depth := gauge.depth + 1, peak := max gauge.peak (gauge.depth + 1) }

def Gauge.leave (gauge : Gauge) : Gauge := { gauge with depth := gauge.depth - 1 }

/-- Why a counted parser ends without a value. -/
inductive Stop
  | fault (error : SyntaxError)
  | stalled

abbrev Counted (α : Type) := ReaderT Setting (ExceptT Stop (StateM Gauge)) α

variable {α β σ : Type}

namespace Counted

/-- A parser with neither loops nor levels. -/
def lift (plain : Parser α) : Counted α := fun setting gauge =>
  match plain setting.input gauge.state with
  | .ok (value, state) => (.ok value, { gauge with state })
  | .error error => (.error (.fault error), gauge)

instance : MonadLift Parser Counted where
  monadLift := lift

/-- Runs a parser one level deeper, if the limit allows it. The level is left however it ends. -/
def nested (inner : Counted α) : Counted α := fun setting gauge =>
  if setting.limit ≤ gauge.depth then lift (Parser.fault .nestingTooDeep) setting gauge
  else
    let (answer, after) := inner setting gauge.enter
    (answer, after.leave)

/-- The answers of steps that pass on what they have seen, up to the first step without one. -/
def rounds (step : σ → Counted (Option (α × σ))) (seen : σ) : Counted (List α) := fun setting gauge =>
  match step seen setting gauge with
  | (.error stop, after) => (.error stop, after)
  | (.ok none, after) => (.ok [], after)
  | (.ok (some (first, seen)), after) =>
      if after.state.tokens.length < gauge.state.tokens.length then
        let (others, last) := rounds step seen setting after
        (others.map (first :: ·), last)
      else (.error .stalled, after)
termination_by _ gauge => gauge.state.tokens.length

/-- A parser that calls itself behind tokens that it has taken. -/
def recursive (body : Counted α → Counted α) : Counted α := fun setting gauge =>
  body (fun setting after =>
    if after.state.tokens.length < gauge.state.tokens.length then recursive body setting after
    else (.error .stalled, after)) setting gauge
termination_by _ gauge => gauge.state.tokens.length

theorem nested_full (p : Counted α) {setting : Setting} {gauge : Gauge}
    (full : setting.limit ≤ gauge.depth) : nested p setting gauge =
      (.error (.fault ⟨setting.input.source, gauge.state.current.start, .nestingTooDeep⟩), gauge) :=
  if_pos full

theorem nested_free (p : Counted α) {setting : Setting} {gauge : Gauge}
    (free : gauge.depth < setting.limit) : nested p setting gauge =
      ((p setting gauge.enter).1, (p setting gauge.enter).2.leave) :=
  if_neg (Nat.not_le_of_lt free)

theorem bind_eq (p : Counted α) (f : α → Counted β) (setting : Setting) (gauge : Gauge) :
    (p >>= f) setting gauge = match p setting gauge with
      | (.ok a, after) => f a setting after
      | (.error stop, after) => (.error stop, after) := by
  have step : (p >>= f) setting gauge =
    ExceptT.bindCont (fun a => f a setting) (p setting gauge).1 (p setting gauge).2 := rfl
  rw [step]
  rcases p setting gauge with ⟨_ | _, _⟩ <;> rfl

/-- A parser that is stalled unless fewer tokens are left. -/
def shorter (bound : Nat) (p : Counted α) : Counted α := fun setting gauge =>
  if gauge.state.tokens.length < bound then p setting gauge else (.error .stalled, gauge)

theorem rounds_eq (step : σ → Counted (Option (α × σ))) (seen : σ) (setting : Setting)
    (gauge : Gauge) : rounds step seen setting gauge = (step seen >>= fun
      | none => pure []
      | some (first, seen) => shorter gauge.state.tokens.length
          (do return first :: (← rounds step seen))) setting gauge := by
  rw [rounds, bind_eq]
  rcases step seen setting gauge with ⟨_ | _ | _, after⟩
  · rfl
  · rfl
  · simp only [shorter]
    split
    · rw [bind_eq]
      rcases rounds step _ setting after with ⟨_ | _, _⟩ <;> rfl
    · rfl

theorem recursive_eq (body : Counted α → Counted α) (setting : Setting) (gauge : Gauge) :
    recursive body setting gauge =
      body (shorter gauge.state.tokens.length (recursive body)) setting gauge := by
  rw [recursive]
  rfl

end Counted

/-! What parsers leave of the tokens -/

/-- Where the text is scanned to its end, the end is the last of the tokens. -/
def Input.Sealed (input : Input) (state : State) : Prop := input.failure = none → state.Ends

theorem Input.Sealed.suffix {input : Input} {state next : State} (sealed : input.Sealed state)
    (behind : next.tokens <:+ state.tokens) : input.Sealed next := by
  intro whole before token after split
  obtain ⟨front, tokens⟩ := behind
  apply sealed whole (front ++ before)
  rw [← tokens, split, List.append_assoc]

/-- At most so many tokens are left. -/
def Room (bound : Nat) (state : State) : Prop := state.tokens.length ≤ bound

/-- Where the first property holds the parser leaves the last of the tokens, and the second. -/
def Straight (before : State → Prop) (after : α → State → Prop) (p : Parser α) : Prop :=
  ∀ input state value next, input.Sealed state → before state →
    p input state = .ok (value, next) → next.tokens <:+ state.tokens ∧ after value next

section Straight
variable {before : State → Prop} {middle : α → State → Prop} {after : β → State → Prop}
  {p : Parser α} {f : α → Parser β} {bound : Nat}

theorem Straight.bind (first : Straight before middle p)
    (rest : ∀ a, Straight (middle a) after (f a)) : Straight before after (p >>= f) := by
  intro input state value next sealed holds run
  obtain ⟨a, between, step, run⟩ := bind_ok run
  obtain ⟨behind, holds⟩ := first input state a between sealed holds step
  obtain ⟨further, ends⟩ := rest a input between value next (sealed.suffix behind) holds run
  exact ⟨further.trans behind, ends⟩

theorem Straight.pure {b : β} : Straight before (fun _ => before) (Pure.pure b) := by
  rintro input state _ _ - holds ⟨⟩
  exact ⟨List.suffix_refl _, holds⟩

theorem Straight.ite {c : Prop} [Decidable c] {q : Parser α} (yes : Straight before middle p)
    (no : Straight before middle q) : Straight before middle (if c then p else q) := by
  split
  · exact yes
  · exact no

theorem Straight.look (f : State → α) :
    Straight before (fun a state => f state = a ∧ before state) (do return f (← get)) := by
  rintro input state _ _ - holds ⟨⟩
  exact ⟨List.suffix_refl _, rfl, holds⟩

theorem Straight.mono {weaker : State → Prop} {stronger : α → State → Prop}
    (straight : Straight before middle p) (front : ∀ state, weaker state → before state)
    (back : ∀ a state, middle a state → stronger a state) : Straight weaker stronger p := by
  intro input state value next sealed holds run
  obtain ⟨behind, ends⟩ := straight input state value next sealed (front state holds) run
  exact ⟨behind, back value next ends⟩

theorem Straight.faultAt (position : Nat) (found : Fault) :
    Straight before middle (Parser.faultAt position found : Parser α) := by
  rintro input state _ _ - - ⟨⟩

theorem Straight.fault (found : Fault) : Straight before middle (Parser.fault found : Parser α) := by
  rintro input state _ _ - - ⟨⟩

theorem Straight.unexpected : Straight before middle (Parser.unexpected : Parser α) := by
  rintro input state _ _ - - ⟨⟩

/-- A parser that only looks. -/
theorem Straight.sight (f : State → α) :
    Straight before (fun _ => before) (do return f (← get)) :=
  (Straight.look f).mono (fun _ holds => holds) fun _ _ holds => holds.2

theorem sees_straight (kind : Lexeme.Kind) : Straight before (fun _ => before) (sees kind) :=
  .sight _

theorem spanFrom_straight (start : Nat) : Straight before (fun _ => before) (spanFrom start) := by
  intro input state value next sealed holds run
  rw [spanFrom_place] at run
  cases run
  exact ⟨List.suffix_refl _, holds⟩

theorem advance_straight :
    Straight (fun state => state.current.lexeme ≠ .finish ∧ Room (bound + 1) state)
      (fun _ => Room bound) advance := by
  intro input state value next sealed holds run
  obtain ⟨more, room⟩ := holds
  obtain ⟨current, rest, stop⟩ := state
  cases rest with
  | nil =>
    rw [advance_end] at run
    split at run
    · cases run
    · rename_i whole
      exact absurd ((sealed whole [] current [] rfl).mpr rfl) more
  | cons following rest =>
    cases run
    exact ⟨List.suffix_cons _ _, Nat.le_of_succ_le_succ room⟩

/-- A token that was seen not to be the end is taken. -/
theorem advance_seen {token : Token} (more : token.lexeme ≠ .finish) :
    Straight (fun state => state.current = token ∧ Room (bound + 1) state) (fun _ => Room bound)
      advance :=
  advance_straight.mono (fun _ holds => ⟨holds.1 ▸ more, holds.2⟩) fun _ _ room => room

theorem advance_idle : Straight (Room bound) (fun _ => Room bound) advance := by
  intro input state value next sealed room run
  obtain ⟨current, rest, stop⟩ := state
  cases rest with
  | nil =>
    rw [advance_end] at run
    split at run <;> cases run
    exact ⟨List.suffix_refl _, room⟩
  | cons following rest =>
    cases run
    exact ⟨List.suffix_cons _ _, Nat.le_of_succ_le room⟩

/-- A token other than the end is taken. -/
theorem expect_straight {kind : Lexeme.Kind} (more : kind ≠ .finish) :
    Straight (Room (bound + 1)) (fun _ => Room bound) (expect kind) := by
  intro input state value next sealed room run
  change (if state.kind == kind then advance else _) input state = _ at run
  split at run
  · rename_i seen
    refine advance_straight input state value next sealed ⟨?_, room⟩ run
    intro last
    rw [State.kind, last, beq_iff_eq] at seen
    exact more seen.symm
  · cases run

theorem expect_idle (kind : Lexeme.Kind) :
    Straight (Room bound) (fun _ => Room bound) (expect kind) := by
  intro input state value next sealed room run
  change (if state.kind == kind then advance else _) input state = _ at run
  split at run
  · exact advance_idle input state value next sealed room run
  · cases run

theorem expectMark_straight (mark : Punctuator) :
    Straight (Room (bound + 1)) (fun _ => Room bound) (expectMark mark) :=
  expect_straight (by simp)

theorem expectKeyword_straight (word : String) :
    Straight (Room (bound + 1)) (fun _ => Room bound) (expectKeyword word) := by
  intro input state value next sealed room run
  change (if state.current.lexeme == .name word then advance else _) input state = _ at run
  split at run
  · rename_i seen
    refine advance_straight input state value next sealed ⟨?_, room⟩ run
    rw [beq_iff_eq.mp seen]
    simp
  · cases run

/-- A token other than the end is taken, if it is there. -/
theorem skip_straight {kind : Lexeme.Kind} (more : kind ≠ .finish) :
    Straight (Room (bound + 1)) (fun seen => Room (if seen then bound else bound + 1)) (skip kind) := by
  intro input state value next sealed room run
  change (if state.kind == kind then advance >>= fun _ => pure true else pure false) input state = _
    at run
  split at run
  · rename_i seen
    obtain ⟨_, middle, run, ⟨⟩⟩ := bind_ok run
    refine advance_straight input state _ next sealed ⟨?_, room⟩ run
    intro last
    rw [State.kind, last, beq_iff_eq] at seen
    exact more seen.symm
  · cases run
    exact ⟨List.suffix_refl _, room⟩

theorem skip_idle (kind : Lexeme.Kind) :
    Straight (Room bound) (fun _ => Room bound) (skip kind) := by
  intro input state value next sealed room run
  change (if state.kind == kind then advance >>= fun _ => pure true else pure false) input state = _
    at run
  split at run
  · obtain ⟨_, middle, run, ⟨⟩⟩ := bind_ok run
    exact advance_idle input state _ next sealed room run
  · cases run
    exact ⟨List.suffix_refl _, room⟩

/-- What takes a token may be asked for where no token is known to be left over. -/
theorem Straight.idle (takes : Straight (Room (bound + 1)) (fun _ => Room bound) p) :
    Straight (Room bound) (fun _ => Room bound) p :=
  takes.mono (fun _ => Nat.le_succ_of_le) fun _ _ room => room

end Straight

/-! Counted parsers beside plain ones -/

/-- How a counted run ends: at the depth it began at, having been no deeper than the limit, behind
tokens that were there, and for a reason; an answer has the property. -/
structure Kept (after : α → State → Prop) (limit : Nat) (gauge : Gauge)
    (ending : Except Stop α × Gauge) : Prop where
  depth : ending.2.depth = gauge.depth
  rises : gauge.peak ≤ ending.2.peak
  bounded : ending.2.peak ≤ max gauge.peak limit
  behind : ending.2.state.tokens <:+ gauge.state.tokens
  moves : ending.1 ≠ .error .stalled
  answers : ∀ a, ending.1 = .ok a → after a ending.2.state

/-- How a run under a limit ends next to one under a higher limit: the same way if that one needs no
more levels, and else as it meets one level too many. -/
structure Cut (source : Source) (low : Nat) (wide ending : Except Stop α × Gauge) : Prop where
  same : wide.2.peak ≤ low → ending = wide
  deep : low < wide.2.peak → ∃ position after,
    ending = (.error (.fault ⟨source, position, .nestingTooDeep⟩), after)

section Runs
variable {middle : α → State → Prop} {after : β → State → Prop} {limit low : Nat} {source : Source}
  {gauge between : Gauge} {ending wide : Except Stop β × Gauge}

theorem Kept.fault (error : SyntaxError) : Kept middle limit gauge (.error (.fault error), gauge) where
  depth := rfl
  rises := Nat.le_refl _
  bounded := Nat.le_max_left _ _
  behind := List.suffix_refl _
  moves stalled := by cases stalled
  answers _ answer := by cases answer

theorem Kept.answer {a : α} {next : State} (behind : next.tokens <:+ gauge.state.tokens)
    (holds : middle a next) : Kept middle limit gauge (.ok a, { gauge with state := next }) where
  depth := rfl
  rises := Nat.le_refl _
  bounded := Nat.le_max_left _ _
  behind := behind
  moves stalled := by cases stalled
  answers _ answer := by
    cases answer
    exact holds

/-- What stops a run stops what was to follow. -/
theorem Kept.stop {stop : Stop} (kept : Kept middle limit gauge (.error stop, between)) :
    Kept after limit gauge (.error stop, between) where
  depth := kept.depth
  rises := kept.rises
  bounded := kept.bounded
  behind := kept.behind
  moves stalled := kept.moves (by cases stalled; rfl)
  answers _ answer := by cases answer

theorem Kept.trans {a : α} (kept : Kept middle limit gauge (.ok a, between))
    (next : Kept after limit between ending) : Kept after limit gauge ending where
  depth := next.depth.trans kept.depth
  rises := kept.rises.trans next.rises
  bounded := next.bounded.trans (Nat.max_le.2 ⟨kept.bounded, Nat.le_max_right _ _⟩)
  behind := next.behind.trans kept.behind
  moves := next.moves
  answers := next.answers

/-- A run one level deeper, seen from where it was started. -/
theorem Kept.leave (kept : Kept after limit gauge.enter ending) (free : gauge.depth < limit) :
    Kept after limit gauge (ending.1, ending.2.leave) := by
  have depth : ending.2.depth = gauge.depth + 1 := kept.depth
  have rises : max gauge.peak (gauge.depth + 1) ≤ ending.2.peak := kept.rises
  have bounded : ending.2.peak ≤ max (max gauge.peak (gauge.depth + 1)) limit := kept.bounded
  refine ⟨?_, ?_, ?_, kept.behind, kept.moves, kept.answers⟩
  · simp only [Gauge.leave, depth, Nat.add_sub_cancel]
  · exact (Nat.le_max_left _ _).trans rises
  · simp only [Gauge.leave]
    omega

theorem Cut.refl (flat : ending.2.peak ≤ low) : Cut source low ending ending :=
  ⟨fun _ => rfl, fun deep => absurd flat (Nat.not_le_of_lt deep)⟩

/-- Where the limit is met in the first part of a run, it is met in the run. -/
theorem Cut.early {position : Nat} {last : Gauge} (deep : low < wide.2.peak)
    (met : ending = (.error (.fault ⟨source, position, .nestingTooDeep⟩), last)) :
    Cut source low wide ending :=
  ⟨fun flat => absurd flat (Nat.not_le_of_lt deep), fun _ => ⟨position, last, met⟩⟩

/-- The same answer, or the same fault. -/
theorem agree_cases {plain : Except SyntaxError (α × State)} {counted : Except Stop α} {state : State}
    (same : plain.mapError .fault = counted.map ((·, state))) :
    (∃ error, plain = .error error ∧ counted = .error (.fault error)) ∨
      ∃ a, plain = .ok (a, state) ∧ counted = .ok a := by
  cases plain <;> cases counted <;> cases same
  · exact .inl ⟨_, rfl, rfl⟩
  · exact .inr ⟨_, rfl, rfl⟩

end Runs

/-- The counted parser at one place: what is kept under every limit, that the plain parser gives the
same answer where so many levels are left, and what a lower limit changes. -/
structure CountsAt (gauge : Gauge) (after : α → State → Prop) (left : Nat) (counted : Counted α)
    (plain : Parser α) : Prop where
  keeps : ∀ setting : Setting, setting.input.Sealed gauge.state →
    Kept after setting.limit gauge (counted setting gauge)
  agrees : ∀ setting : Setting, setting.input.Sealed gauge.state →
    setting.limit = gauge.depth + left → (plain setting.input gauge.state).mapError .fault =
      (counted setting gauge).1.map ((·, (counted setting gauge).2.state))
  cut : ∀ (input : Input) (low high : Nat), input.Sealed gauge.state → low ≤ high →
    gauge.depth ≤ low → gauge.peak ≤ low →
      Cut input.source low (counted ⟨input, high⟩ gauge) (counted ⟨input, low⟩ gauge)

/-- Wherever the first property holds the counted parser does what the plain one does with so many
levels left, and the second property holds behind it. -/
def Counts (before : State → Prop) (after : α → State → Prop) (left : Nat) (counted : Counted α)
    (plain : Parser α) : Prop :=
  ∀ gauge, before gauge.state → CountsAt gauge after left counted plain

section Counts
variable {before : State → Prop} {middle : α → State → Prop} {after : β → State → Prop}
  {left bound : Nat} {p : Counted α} {q : Parser α} {f : α → Counted β} {g : α → Parser β}

theorem CountsAt.congr {gauge : Gauge} {other : Counted α}
    (counts : CountsAt gauge middle left p q)
    (same : ∀ setting, other setting gauge = p setting gauge) :
    CountsAt gauge middle left other q where
  keeps setting sealed := same setting ▸ counts.keeps setting sealed
  agrees setting sealed levels := same setting ▸ counts.agrees setting sealed levels
  cut input low high sealed within depth peak := by
    rw [same, same]
    exact counts.cut input low high sealed within depth peak

theorem Counts.mono {weaker : State → Prop} {stronger : α → State → Prop}
    (counts : Counts before middle left p q) (front : ∀ state, weaker state → before state)
    (back : ∀ a state, middle a state → stronger a state) : Counts weaker stronger left p q := by
  intro gauge holds
  have here := counts gauge (front _ holds)
  refine ⟨fun setting sealed => ?_, here.agrees, here.cut⟩
  have kept := here.keeps setting sealed
  exact ⟨kept.depth, kept.rises, kept.bounded, kept.behind, kept.moves,
    fun a answer => back a _ (kept.answers a answer)⟩

/-- What is known of the token at hand need not matter. -/
theorem Counts.forget {known : State → Prop} (counts : Counts before middle left p q) :
    Counts (fun state => known state ∧ before state) middle left p q :=
  fun gauge holds => counts gauge holds.2

theorem Counts.lift (straight : Straight before middle q) :
    Counts before middle left (Counted.lift q) q := by
  intro gauge holds
  constructor
  · intro setting sealed
    unfold Counted.lift
    split
    · rename_i value state run
      obtain ⟨behind, ends⟩ := straight _ _ _ _ sealed holds run
      exact .answer behind ends
    · exact .fault _
  · intro setting sealed levels
    unfold Counted.lift
    split <;> rename_i run <;> rw [run] <;> rfl
  · intro input low high sealed within depth peak
    have same : Counted.lift q ⟨input, low⟩ gauge = Counted.lift q ⟨input, high⟩ gauge := rfl
    have stays : (Counted.lift q ⟨input, high⟩ gauge).2.peak = gauge.peak := by
      unfold Counted.lift
      split <;> rfl
    rw [same]
    exact .refl (stays.trans_le peak)

theorem Counts.bind (first : Counts before middle left p q)
    (rest : ∀ a, Counts (middle a) after left (f a) (g a)) :
    Counts before after left (p >>= f) (q >>= g) := by
  intro gauge holds
  have here := first gauge holds
  constructor
  · intro setting sealed
    have kept := here.keeps setting sealed
    rw [Counted.bind_eq]
    rcases run : p setting gauge with ⟨stop | a, between⟩ <;> rw [run] at kept
    · exact kept.stop
    · exact kept.trans ((rest a between (kept.answers a rfl)).keeps setting (sealed.suffix kept.behind))
  · intro setting sealed levels
    have kept := here.keeps setting sealed
    have same := here.agrees setting sealed levels
    rw [Counted.bind_eq, bind_apply]
    rcases run : p setting gauge with ⟨answer, between⟩
    rw [run] at kept same
    rcases agree_cases same with ⟨error, plain, rfl⟩ | ⟨a, plain, rfl⟩
    · rw [plain]
      rfl
    · rw [plain]
      have depth : between.depth = gauge.depth := kept.depth
      rw [← depth] at levels
      exact (rest a between (kept.answers a rfl)).agrees setting (sealed.suffix kept.behind) levels
  · intro input low high sealed within depth peak
    have kept := here.keeps ⟨input, high⟩ sealed
    have cut := here.cut input low high sealed within depth peak
    rw [Counted.bind_eq, Counted.bind_eq]
    rcases run : p ⟨input, high⟩ gauge with ⟨stop | a, between⟩ <;> rw [run] at cut kept
    · constructor
      · intro flat
        rw [cut.same flat]
      · intro deep
        obtain ⟨position, last, met⟩ := cut.deep deep
        exact ⟨position, last, by rw [met]⟩
    · have ends := rest a between (kept.answers a rfl)
      have sealed := sealed.suffix kept.behind
      by_cases flat : between.peak ≤ low
      · rw [cut.same flat]
        exact ends.cut input low high sealed within (kept.depth.trans_le depth) flat
      · have deep := Nat.lt_of_not_le flat
        obtain ⟨position, last, met⟩ := cut.deep deep
        exact .early (deep.trans_le (ends.keeps ⟨input, high⟩ sealed).rises) (by rw [met])

theorem Counts.answer {b : β} (holds : ∀ state, before state → after b state) :
    Counts before after left (Pure.pure b) (Pure.pure b) := by
  intro gauge here
  constructor
  · intro setting sealed
    exact .answer (List.suffix_refl _) (holds _ here)
  · intros
    rfl
  · intro input low high sealed within depth peak
    exact .refl peak

theorem Counts.pure {b : β} :
    Counts before (fun _ => before) left (Pure.pure b) (Pure.pure b) :=
  .answer fun _ holds => holds

/-- A parser that is told how many levels are left needs one. -/
def leveled (q : Nat → Parser α) : Nat → Parser α
  | 0 => fault .nestingTooDeep
  | left + 1 => q left

theorem Counts.nested {q : Nat → Parser α} (counts : ∀ left, Counts before middle left p (q left)) :
    Counts before middle left (Counted.nested p) (leveled q left) := by
  intro gauge holds
  have inside (left : Nat) := counts left gauge.enter holds
  constructor
  · intro setting sealed
    by_cases full : setting.limit ≤ gauge.depth
    · rw [Counted.nested_full p full]
      exact .fault _
    · have free := Nat.lt_of_not_le full
      rw [Counted.nested_free p free]
      exact ((inside 0).keeps setting sealed).leave free
  · intro setting sealed levels
    cases left with
    | zero =>
      rw [Counted.nested_full p (by omega)]
      rfl
    | succ left =>
      rw [Counted.nested_free p (by omega)]
      apply (inside left).agrees setting sealed
      show setting.limit = gauge.depth + 1 + left
      omega
  · intro input low high sealed within depth peak
    by_cases full : high ≤ gauge.depth
    · rw [Counted.nested_full p full, Counted.nested_full p (within.trans full)]
      exact .refl peak
    · rw [Counted.nested_free p (Nat.lt_of_not_le full)]
      by_cases last : low ≤ gauge.depth
      · -- the lower limit is met right here
        have rises := ((inside 0).keeps ⟨input, high⟩ sealed).rises
        have deeper : gauge.depth + 1 ≤ _ := (Nat.le_max_right gauge.peak _).trans rises
        exact .early (Nat.lt_of_lt_of_le (Nat.lt_succ_of_le last) deeper) (Counted.nested_full p last)
      · have free := Nat.lt_of_not_le last
        have cut := (inside 0).cut input low high sealed within free (Nat.max_le.2 ⟨peak, free⟩)
        rw [Counted.nested_free p free]
        constructor
        · intro flat
          rw [cut.same flat]
        · intro deep
          obtain ⟨position, after, met⟩ := cut.deep deep
          exact ⟨position, _, by rw [met]⟩

theorem Counts.shorter {size : Nat} (fewer : bound < size)
    (counts : Counts (Room bound) middle left p q) :
    Counts (Room bound) middle left (Counted.shorter size p) q :=
  fun gauge room => (counts gauge room).congr fun _ => if_pos (Nat.lt_of_le_of_lt room fewer)

/-- With fuel a loop takes one step and goes on, unless it was the last one. -/
def Unrolls (step : σ → Parser (Option (α × σ))) (loop : Nat → σ → Parser (List α)) : Prop :=
  ∀ fuel seen, loop (fuel + 1) seen = do
    match ← step seen with
    | none => return []
    | some (first, seen) => return first :: (← loop fuel seen)

/-- Where no more than so many tokens are left, each step but a last one takes a token. -/
def Steps (bound left : Nat) (p : Counted (Option α)) (q : Parser (Option α)) : Prop :=
  ∀ n < bound, Counts (Room (n + 1)) (fun found => Room (if found.isSome then n else n + 1)) left p q

/-- Where no more than so many tokens are left, the parser takes a token. -/
def Takes (bound left : Nat) (p : Counted α) (q : Parser α) : Prop :=
  ∀ n < bound, Counts (Room (n + 1)) (fun _ => Room n) left p q

/-- Where no more than so many tokens are left, no more than these are left behind the parser. -/
abbrev Idles (bound left : Nat) (p : Counted α) (q : Parser α) : Prop :=
  Counts (Room bound) (fun _ => Room bound) left p q

theorem Counts.idles (takes : Counts (Room (bound + 1)) (fun _ => Room bound) left p q) :
    Idles bound left p q :=
  takes.mono (fun _ => Nat.le_succ_of_le) fun _ _ room => room

theorem Takes.idles (takes : Takes bound left p q) : Idles bound left p q := by
  cases bound with
  | zero => exact fun gauge room => absurd room (Nat.not_succ_le_zero _)
  | succ n =>
    exact (takes n (Nat.lt_succ_self n)).mono (fun _ room => room) fun _ _ => Nat.le_succ_of_le

theorem Takes.below (takes : Takes bound left p q) {n : Nat} (less : n < bound) : Idles n left p q :=
  Takes.idles fun m fewer => takes m (fewer.trans less)

/-- With a token each there is fuel for all steps. -/
theorem Counts.rounds {step : σ → Counted (Option (α × σ))} {plain : σ → Parser (Option (α × σ))}
    {loop : Nat → σ → Parser (List α)} (unrolls : Unrolls plain loop)
    (steps : ∀ seen, Steps bound left (step seen) (plain seen)) {fuel : Nat} (enough : bound < fuel)
    (seen : σ) :
    Idles bound left (Counted.rounds step seen) (loop fuel seen) := by
  induction bound generalizing fuel seen with
  | zero => exact fun gauge room => absurd room (Nat.not_succ_le_zero _)
  | succ bound ih =>
    have fewer (fuel : Nat) (enough : bound < fuel) (seen : σ) :=
      (ih (fun seen n less => steps seen n (Nat.lt_succ_of_lt less)) enough seen).mono
        (fun _ room => room) fun _ _ room => Nat.le_succ_of_le room
    intro gauge room
    rcases Nat.lt_or_eq_of_le room with less | all
    · exact fewer fuel (Nat.lt_of_succ_lt enough) seen gauge (Nat.le_of_lt_succ less)
    · cases fuel with
      | zero => contradiction
      | succ fuel =>
        rw [unrolls]
        refine CountsAt.congr ?_ fun setting => Counted.rounds_eq step seen setting gauge
        rw [all]
        refine Counts.bind (steps seen bound (Nat.lt_succ_self bound)) (fun found => ?_) gauge room
        cases found with
        | none => exact .pure
        | some found =>
          apply Counts.shorter (Nat.lt_succ_self bound)
          exact (fewer fuel (Nat.lt_of_succ_lt_succ enough) found.2).bind fun _ => .pure

/-- What is left of the tokens is fuel enough. -/
theorem Counts.remaining {p : Counted β} {g : Nat → Parser β}
    (rest : ∀ n ≤ bound, ∀ fuel, n < fuel → Idles n left p (g fuel)) :
    Idles bound left p (Parser.remaining >>= g) := by
  intro gauge room
  have here := (rest _ room _ (Nat.lt_succ_self _)).mono (fun _ room => room)
    (fun _ _ fewer => Nat.le_trans fewer room) gauge (Nat.le_refl _)
  exact ⟨here.keeps, here.agrees, here.cut⟩

theorem Counts.loop {step : σ → Counted (Option (α × σ))} {plain : σ → Parser (Option (α × σ))}
    {loop : Nat → σ → Parser (List α)} (unrolls : Unrolls plain loop)
    (steps : ∀ seen, Steps bound left (step seen) (plain seen)) (seen : σ) :
    Idles bound left (Counted.rounds step seen) (do loop (← Parser.remaining) seen) :=
  .remaining fun _ within _ enough =>
    .rounds unrolls (fun seen n less => steps seen n (Nat.lt_of_lt_of_le less within)) enough seen

/-- A body that takes a token before it calls itself is not stalled. -/
theorem recursive_takes {body : Counted α → Counted α} {plain : Nat → Parser α}
    (each : ∀ bound self, (∀ left, Takes bound left self (plain left)) →
      ∀ left, Counts (Room (bound + 1)) (fun _ => Room bound) left (body self) (plain left))
    (bound left : Nat) : Takes bound left (Counted.recursive body) (plain left) := by
  induction bound generalizing left with
  | zero => exact fun n less => absurd less (Nat.not_lt_zero n)
  | succ bound ih =>
    intro n less gauge room
    rcases Nat.lt_or_eq_of_le (Nat.le_of_lt_succ less) with less | rfl
    · exact ih left n less gauge room
    · rcases Nat.lt_or_eq_of_le room with less | all
      · cases n with
        | zero => exact absurd (Nat.lt_one_iff.mp less) (Nat.succ_ne_zero _)
        | succ n =>
          have fewer := (ih left n (Nat.lt_succ_self n)).mono (fun _ room => room)
            fun _ _ room => Nat.le_succ_of_le room
          exact fewer gauge (Nat.le_of_lt_succ less)
      · refine CountsAt.congr ?_ fun setting => Counted.recursive_eq body setting gauge
        rw [all]
        refine each n _ (fun left m fewer => ?_) left gauge room
        exact (ih left m fewer).shorter (Nat.succ_lt_succ fewer)

end Counts

/-! Lists -/

namespace Counted

/-- Items while the condition holds. -/
def whileSeen (condition : Parser Bool) (item : Counted α) : Counted (List α) :=
  rounds (fun (_ : Unit) => do if ← condition then return some (← item, ()) else return none) ()

/-- Items up to the closing mark, which is consumed too. -/
def upTo (close : Punctuator) (item : Counted α) : Counted (List α) :=
  rounds (fun (_ : Unit) => do if ← skipMark close then return none else return some (← item, ())) ()

/-- Any number of items between two marks. -/
def any (opening : Punctuator) (item : Counted α) (closing : Punctuator) : Counted (List α) := do
  expectMark opening
  upTo closing item

/-- One or more items between two marks. -/
def many (opening : Punctuator) (item : Counted α) (closing : Punctuator) : Counted (List α) := do
  expectMark opening
  let first ← item
  return first :: (← upTo closing item)

/-- `many`, or nothing where the opening mark is not at hand. -/
def optionalMany (opening : Punctuator) (item : Counted α) (closing : Punctuator) :
    Counted (List α) := do
  if ← seesMark opening then many opening item closing else return []

/-- One or more items separated by bars, a leading bar allowed. -/
def separatedByBars (item : Counted α) : Counted (List α) := do
  let _ ← skipMark .pipe
  let first ← item
  return first :: (← whileSeen (skipMark .pipe) item)

end Counted

section Lists
variable {item : Counted α} {plain : Parser α} {left bound : Nat}

theorem whileSeen_unrolls (condition : Parser Bool) (item : Parser α) :
    Unrolls (fun (_ : Unit) => do if ← condition then return some (← item, ()) else return none)
      (fun fuel _ => whileSeen condition item fuel) := by
  intro fuel seen
  simp only [whileSeen, bind_assoc]
  congr! 2 with here
  cases here <;> simp

theorem upTo_unrolls (close : Punctuator) (item : Parser α) :
    Unrolls (fun (_ : Unit) => do if ← skipMark close then return none else return some (← item, ()))
      (fun fuel _ => upTo close item fuel) := by
  intro fuel seen
  simp only [upTo, bind_assoc]
  congr! 2 with here
  cases here <;> simp

theorem Takes.whileSeen {condition : Parser Bool}
    (straight : ∀ n, Straight (Room n) (fun _ => Room n) condition)
    (takes : Takes bound left item plain) :
    Idles bound left (Counted.whileSeen condition item)
      (do whileSeen condition plain (← remaining)) := by
  refine .loop (whileSeen_unrolls condition plain) (fun _ n less => ?_) ()
  refine Counts.bind (.lift (straight (n + 1))) fun here => ?_
  cases here with
  | false => exact .answer fun _ room => room
  | true => exact (takes n less).bind fun _ => .answer fun _ room => room

theorem Takes.upTo (takes : Takes bound left item plain) (close : Punctuator) :
    Idles bound left (Counted.upTo close item) (do upTo close plain (← remaining)) := by
  refine .loop (upTo_unrolls close plain) (fun _ n less => ?_) ()
  refine Counts.bind (.lift (skip_idle _)) fun here => ?_
  cases here with
  | true => exact .answer fun _ room => room
  | false => exact (takes n less).bind fun _ => .answer fun _ room => room

/-- An opening mark is taken before any item. -/
theorem Takes.any (takes : Takes bound left item plain) (opening closing : Punctuator) :
    Counts (Room (bound + 1)) (fun _ => Room bound) left (Counted.any opening item closing)
      (any opening plain closing) :=
  .bind (.lift (expectMark_straight opening)) fun _ => takes.upTo closing

theorem Takes.many (takes : Takes bound left item plain) (opening closing : Punctuator) :
    Counts (Room (bound + 1)) (fun _ => Room bound) left (Counted.many opening item closing)
      (many opening plain closing) := by
  refine .bind (.lift (expectMark_straight opening)) fun _ => takes.idles.bind fun first => ?_
  have rest := (takes.upTo closing).bind fun others => .pure (b := first :: others)
  rwa [bind_assoc] at rest

theorem Takes.optionalMany (takes : Takes bound left item plain) (opening closing : Punctuator) :
    Idles bound left (Counted.optionalMany opening item closing)
      (optionalMany opening plain closing) := by
  refine .bind (.lift (.sight _)) fun here => ?_
  cases here with
  | false => exact .pure
  | true => exact (takes.many opening closing).idles

theorem Takes.separatedByBars (takes : Takes bound left item plain) :
    Idles bound left (Counted.separatedByBars item) (separatedByBars plain) := by
  refine .bind (.lift (skip_idle _)) fun _ => takes.idles.bind fun first => ?_
  have rest := (takes.whileSeen fun _ => skip_idle (.punctuator .pipe)).bind fun others =>
    .pure (b := first :: others)
  rwa [bind_assoc] at rest

end Lists
end GraphQL.Parser
