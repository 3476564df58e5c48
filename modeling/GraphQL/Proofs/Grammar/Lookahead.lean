import GraphQL.Proofs.Grammar.Reads

/-! Parsers that read the phrases of the grammar, composed along their own steps. One token of
lookahead is enough, as what may follow a phrase never starts as a longer phrase would go on. -/
namespace GraphQL.Parser
open Ast
open Grammar (Phrase Parts mark word Leads Begins parts_single parts_flatten parts_count)

variable {input : Input} {last : State} {outer : List Lexeme.Kind}

section Rules
variable {α β : Type} {p q : Parser α} {f : α → Parser β} {a : α} {value : β} {phrase : α → Phrase}
  {part : Phrase} {parts : List Phrase} {starts avoid : List Lexeme.Kind}

/-- Whatever follows the phrase but the outer kinds, the next token is of none of the kinds to
avoid. -/
def Follows (avoid : List Lexeme.Kind) (part : Phrase) (outer : List Lexeme.Kind) : Prop :=
  ∀ state next tokens, part tokens → Passes state tokens next → next.kind ∉ outer →
    state.kind ∉ avoid

theorem Follows.any : Follows [] part outer := fun _ _ _ _ _ _ => List.not_mem_nil

theorem Follows.nil (within : avoid ⊆ outer) : Follows avoid (Parts []) outer := by
  rintro state next _ rfl passes free
  cases passes.eq
  exact fun member => free (within member)

theorem Follows.begins (begins : Begins starts part) (apart : Disjoint starts avoid) :
    Follows avoid part outer := by
  intro state next tokens holds passes free
  cases tokens with
  | nil => exact absurd holds begins.filled
  | cons token rest =>
    rw [State.kind, passes.current]
    exact apart _ (begins.leads _ holds token rfl)

theorem Follows.leads (leads : Leads starts part) (apart : Disjoint starts avoid)
    (rest : Follows avoid (Parts parts) outer) : Follows avoid (Parts (part :: parts)) outer := by
  rintro state next _ ⟨tokens, more, rfl, holds, after⟩ passes free
  cases tokens with
  | nil => exact rest state next more after passes free
  | cons token tokens =>
    rw [State.kind, passes.current]
    exact apart _ (leads _ holds token rfl)

theorem Reads.pure : Reads input last (pure value) value (Parts []) outer := by
  rintro state _ rfl passes free
  cases passes.eq
  rfl

theorem Reads.mono (reads : Reads input last p a part avoid) (within : avoid ⊆ outer) :
    Reads input last p a part outer :=
  fun state tokens holds passes free => reads state tokens holds passes fun member =>
    free (within member)

theorem Reads.bind (first : ∀ middle, Reads input middle p a part avoid)
    (follows : Follows avoid (Parts parts) outer)
    (rest : Reads input last (f a) value (Parts parts) outer) :
    Reads input last (p >>= f) value (Parts (part :: parts)) outer := by
  rintro state _ ⟨here, more, rfl, holds, after⟩ passes free
  obtain ⟨middle, one, two⟩ := passes.between
  rw [bind_apply, first middle state here holds one (follows middle last more after two free)]
  exact rest middle more after two free

/-- What follows the last of the parts reads nothing. -/
theorem Reads.then (reads : Reads input last p a part outer)
    (rest : Reads input last (f a) value (Parts []) outer) :
    Reads input last (p >>= f) value part outer := by
  intro state tokens holds passes free
  rw [bind_apply, reads state tokens holds passes free]
  exact rest last [] rfl (.refl last) free

theorem Reads.map {g : α → β} (reads : Reads input last p a part outer) :
    Reads input last (do return g (← p)) (g a) part outer := reads.then .pure

theorem Complete.map {g : α → β} (complete : Complete input p phrase avoid)
    (within : avoid ⊆ outer) : Reads input last (do return g (← p)) (g a) (phrase a) outer :=
  .map (.mono (complete a last) within)

theorem Reads.single (reads : Reads input last p a part outer) :
    Reads input last p a (Parts [part]) outer :=
  fun state tokens holds => reads state tokens (parts_single.mp holds)

theorem Reads.one (reads : Reads input last p a (Parts [part]) outer) :
    Reads input last p a part outer :=
  fun state tokens holds => reads state tokens (parts_single.mpr holds)

theorem Reads.start {f : Nat → Parser β}
    (rest : ∀ start, Reads input last (f start) value part outer) :
    Reads input last (start >>= f) value part outer :=
  fun state => rest state.current.start state

theorem Reads.flatten {inner : List Phrase}
    (reads : Reads input last p a (Parts (inner ++ parts)) outer) :
    Reads input last p a (Parts (Parts inner :: parts)) outer :=
  fun state tokens holds => reads state tokens ((@parts_flatten [] _ _ _).mp holds)

/-- A node, which starts where its first token does and ends where its last token does. -/
theorem Reads.node {f : Nat → Parser β} {span : Option Span} (begins : Begins starts (Parts parts))
    (rest : ∀ start, span = input.place start last.stop →
      Reads input last (f start) value (Parts parts) outer) :
    Reads input last (Parser.start >>= f) value (Grammar.node input.place span parts) outer := by
  rintro state tokens ⟨rfl, holds⟩ passes free
  have some : tokens ≠ [] := by
    rintro rfl
    exact begins.filled holds
  exact rest state.current.start (passes.extent some) state tokens holds passes free

theorem Reads.close {f : Option Span → β} {span : Option Span} {start : Nat}
    (same : span = input.place start last.stop) :
    Reads input last (do return f (← spanFrom start)) (f span) (Parts []) outer := by
  rintro state _ rfl passes free
  cases passes.eq
  rw [bind_apply, spanFrom_place, same]
  rfl

theorem Reads.advance {l : Lexeme} {p : Parser β}
    (rest : Reads input last p value (Parts parts) outer) :
    Reads input last (do advance; p) value (Parts (Grammar.lexeme l :: parts)) outer := by
  rintro state _ ⟨_, more, rfl, ⟨token, rfl, rfl⟩, after⟩ passes free
  obtain ⟨middle, passes, step⟩ := passes.advance
  rw [bind_apply, step]
  exact rest middle more after passes free

/-- Tokens that begin with the kind start with a token of it. -/
theorem kind_eq {kind : Lexeme.Kind} {state : State} {tokens : List Token}
    (begins : Begins [kind] part) (holds : part tokens) (passes : Passes state tokens last) :
    state.kind = kind := by
  cases tokens with
  | nil => exact absurd holds begins.filled
  | cons token rest =>
    rw [State.kind, passes.current]
    exact List.mem_singleton.mp (begins.leads _ holds token rfl)

/-- Tokens of the phrase start with the lexeme. -/
def Heads (l : Lexeme) (phrase : Phrase) : Prop :=
  ∀ tokens, phrase tokens → ∃ token rest, tokens = token :: rest ∧ token.lexeme = l

theorem Heads.lexeme {l : Lexeme} : Heads l (Grammar.lexeme l) := by
  rintro _ ⟨token, rfl, here⟩
  exact ⟨token, [], rfl, here⟩

theorem Heads.cons {l : Lexeme} (heads : Heads l part) : Heads l (Parts (part :: parts)) := by
  rintro _ ⟨tokens, more, rfl, holds, -⟩
  obtain ⟨token, rest, rfl, here⟩ := heads tokens holds
  exact ⟨token, rest ++ more, rfl, here⟩

theorem Heads.node {l : Lexeme} {place : Nat → Nat → Option Span} {span : Option Span}
    (heads : Heads l part) : Heads l (Grammar.node place span (part :: parts)) :=
  fun tokens holds => heads.cons tokens holds.2

theorem Heads.begins {m : Punctuator} (begins : Begins [.punctuator m] part) :
    Heads (.punctuator m) part := by
  intro tokens holds
  cases tokens with
  | nil => exact absurd holds begins.filled
  | cons token rest =>
    have same := begins.leads _ holds token rfl
    exact ⟨token, rest, rfl, kind_eq_punctuator.mp (List.mem_singleton.mp same)⟩

theorem Heads.eq {l : Lexeme} {state : State} {tokens : List Token} (heads : Heads l part)
    (holds : part tokens) (passes : Passes state tokens last) : state.current.lexeme = l := by
  obtain ⟨token, rest, rfl, here⟩ := heads tokens holds
  rw [passes.current, here]

theorem expectMark_apply {expected : Punctuator} {state : State}
    (here : state.kind = .punctuator expected) :
    expectMark expected input state = advance input state := by
  change (if state.kind == .punctuator expected then advance else _) input state = _
  rw [if_pos (beq_iff_eq.mpr here)]

theorem expectKeyword_apply {expected : String} {state : State}
    (here : state.current.lexeme = .name expected) :
    expectKeyword expected input state = advance input state := by
  change (if state.current.lexeme == .name expected then advance else _) input state = _
  rw [if_pos (beq_iff_eq.mpr here)]

theorem sees_apply (kind : Lexeme.Kind) (f : Bool → Parser β) (state : State) :
    (sees kind >>= f) input state = f (state.kind == kind) input state := rfl

theorem skip_apply (kind : Lexeme.Kind) (f : Bool → Parser β) (state : State) :
    (skip kind >>= f) input state =
      (if state.kind == kind then advance >>= fun _ => f true else f false) input state := by
  have step : skip kind input state =
      (if state.kind == kind then advance >>= fun _ => pure true else pure false) input state := rfl
  rw [bind_apply, step]
  split
  · rw [bind_apply, bind_apply]
    cases advance input state <;> rfl
  · rfl

theorem lexeme_apply (f : Lexeme → Parser β) (state : State) :
    (lexeme >>= f) input state = f state.current.lexeme input state := rfl

theorem keyword_apply (expected : String) (f : Bool → Parser β) (state : State) :
    (seesKeyword expected >>= f) input state =
      f (state.current.lexeme == .name expected) input state := rfl

section Tests
variable {expected : Punctuator} {kind : Lexeme.Kind} {text : String} {p : Parser β}

theorem Reads.seen {f : Bool → Parser β} (begins : Begins [kind] part)
    (yes : Reads input last (f true) value part outer) :
    Reads input last (sees kind >>= f) value part outer := by
  intro state tokens holds passes free
  rw [sees_apply, beq_iff_eq.mpr (kind_eq begins holds passes)]
  exact yes state tokens holds passes free

theorem Reads.unseen {f : Bool → Parser β} (follows : Follows [kind] part outer)
    (no : Reads input last (f false) value part outer) :
    Reads input last (sees kind >>= f) value part outer := by
  intro state tokens holds passes free
  have other : state.kind ≠ kind := by simpa using follows state last tokens holds passes free
  rw [sees_apply, beq_eq_false_iff_ne.mpr other]
  exact no state tokens holds passes free

theorem Reads.marked {f : Bool → Parser β}
    (yes : Reads input last (f true) value (Parts parts) outer) :
    Reads input last (skipMark expected >>= f) value (Parts (mark expected :: parts)) outer := by
  intro state tokens holds passes free
  have here := kind_eq (Grammar.mark_begins expected).parts holds passes
  rw [skipMark, skip_apply, beq_iff_eq.mpr here]
  exact Reads.advance yes state tokens holds passes free

theorem Reads.unmarked {f : Bool → Parser β} (follows : Follows [.punctuator expected] part outer)
    (no : Reads input last (f false) value part outer) :
    Reads input last (skipMark expected >>= f) value part outer := by
  intro state tokens holds passes free
  have other : state.kind ≠ .punctuator expected := by
    simpa using follows state last tokens holds passes free
  rw [skipMark, skip_apply, beq_eq_false_iff_ne.mpr other]
  exact no state tokens holds passes free

theorem Reads.keyword {f : Bool → Parser β} (heads : Heads (.name text) part)
    (yes : Reads input last (f true) value part outer) :
    Reads input last (seesKeyword text >>= f) value part outer := by
  intro state tokens holds passes free
  rw [keyword_apply, beq_iff_eq.mpr (heads.eq holds passes)]
  exact yes state tokens holds passes free

/-- A word is not at hand where no name is, or another one. -/
theorem Reads.noKeyword {f : Bool → Parser β}
    (other : ∀ state tokens, part tokens → Passes state tokens last → last.kind ∉ outer →
      state.current.lexeme ≠ .name text)
    (no : Reads input last (f false) value part outer) :
    Reads input last (seesKeyword text >>= f) value part outer := by
  intro state tokens holds passes free
  rw [keyword_apply, beq_eq_false_iff_ne.mpr (other state tokens holds passes free)]
  exact no state tokens holds passes free

theorem Follows.noName (follows : Follows [.name] part outer) :
    ∀ state tokens, part tokens → Passes state tokens last → last.kind ∉ outer →
      state.current.lexeme ≠ .name text := by
  intro state tokens holds passes free same
  refine follows state last tokens holds passes free ?_
  rw [State.kind, same]
  exact List.mem_singleton_self _

theorem Reads.expectMark (rest : Reads input last p value (Parts parts) outer) :
    Reads input last (do expectMark expected; p) value (Parts (mark expected :: parts)) outer := by
  intro state tokens holds passes free
  have here := kind_eq (Grammar.mark_begins expected).parts holds passes
  rw [bind_apply, expectMark_apply here]
  exact Reads.advance rest state tokens holds passes free

theorem Reads.expectKeyword (rest : Reads input last p value (Parts parts) outer) :
    Reads input last (do expectKeyword text; p) value (Parts (word text :: parts)) outer := by
  intro state tokens holds passes free
  rw [bind_apply, expectKeyword_apply (Heads.lexeme.cons.eq holds passes)]
  exact Reads.advance rest state tokens holds passes free

/-- A step over a name, whatever its text. -/
theorem Reads.expectName (rest : Reads input last p value (Parts parts) outer) :
    Reads input last (do expect .name; p) value (Parts (word text :: parts)) outer := by
  intro state tokens holds passes free
  have here : state.kind = .name := congrArg Lexeme.kind (Heads.lexeme.cons.eq holds passes)
  have step : expect .name input state = Parser.advance input state := by
    change (if state.kind == .name then Parser.advance else _) input state = _
    rw [if_pos (beq_iff_eq.mpr here)]
  rw [bind_apply, step]
  exact Reads.advance rest state tokens holds passes free

theorem Reads.remaining {f : Nat → Parser β} (filled : ∀ part ∈ parts, ¬ part [])
    (rest : ∀ fuel, parts.length < fuel → Reads input last (f fuel) value (Parts parts) outer) :
    Reads input last (remaining >>= f) value (Parts parts) outer := by
  intro state tokens holds passes free
  refine rest _ ?_ state tokens holds passes free
  have count := parts_count filled holds
  have ahead := congrArg List.length passes.ahead
  simp only [State.tokens, List.length_cons, List.length_append] at ahead
  omega

theorem Reads.perhaps (follows : Follows [.punctuator expected] (Parts parts) outer)
    (rest : Reads input last p value (Parts parts) outer) :
    Reads input last (do let _ ← skipMark expected; p) value
      (Parts (Grammar.perhaps (mark expected) :: parts)) outer := by
  rintro state _ ⟨here, more, rfl, holds, after⟩ passes free
  rw [skipMark, skip_apply]
  rcases holds with rfl | holds
  · have other : state.kind ≠ .punctuator expected := by
      simpa using follows state last more after passes free
    rw [beq_eq_false_iff_ne.mpr other]
    exact rest state more after passes free
  · have seen : Parts (mark expected :: parts) (here ++ more) := ⟨here, more, rfl, holds, after⟩
    rw [beq_iff_eq.mpr (kind_eq (Grammar.mark_begins expected).parts seen passes)]
    exact Reads.advance rest state _ seen passes free

theorem Reads.look {f : Token → Parser β} {l : Lexeme} (heads : Heads l part)
    (rest : ∀ token, token.lexeme = l → Reads input last (f token) value part outer) :
    Reads input last (current >>= f) value part outer := by
  intro state tokens holds passes free
  obtain ⟨token, more, rfl, here⟩ := heads tokens holds
  exact rest state.current (passes.current ▸ here) state _ holds passes free

theorem Reads.lexeme {f : Lexeme → Parser β} {l : Lexeme} (heads : Heads l part)
    (rest : Reads input last (f l) value part outer) :
    Reads input last (Parser.lexeme >>= f) value part outer := by
  intro state tokens holds passes free
  rw [lexeme_apply, heads.eq holds passes]
  exact rest state tokens holds passes free

/-- A node whose parser looks at its first token. -/
theorem Reads.current {f : Token → Parser β} {span : Option Span} {l : Lexeme}
    (heads : Heads l (Parts parts))
    (rest : ∀ token, token.lexeme = l → span = input.place token.start last.stop →
      Reads input last (f token) value (Parts parts) outer) :
    Reads input last (current >>= f) value (Grammar.node input.place span parts) outer := by
  rintro state tokens ⟨rfl, holds⟩ passes free
  obtain ⟨token, more, rfl, here⟩ := heads tokens holds
  exact rest state.current (passes.current ▸ here) (passes.extent (by simp)) state _ holds passes
    free

/-- A node of one token. -/
theorem Reads.token {f : Token → Parser β} {make : Option Span → β} {span : Option Span}
    {l : Lexeme} (branch : ∀ token, token.lexeme = l →
      f token = (do Parser.advance; return make (← spanFrom token.start))) :
    Reads input last (Parser.current >>= f) (make span)
      (Grammar.node input.place span [Grammar.lexeme l]) outer := by
  refine .current Heads.lexeme.cons fun token here same => ?_
  rw [branch token here]
  exact .advance (.close same)

end Tests

section Lists
variable {item : Parser α}

/-- Each item is read in front of the next one, and the last in front of the closing mark. -/
theorem Follows.items {close : Punctuator} (begins : ∀ a, Begins starts (phrase a))
    (apart : Disjoint starts avoid) (ending : .punctuator close ∉ avoid) (values : List α) :
    Follows avoid (Parts (values.map phrase ++ [mark close])) outer := by
  cases values with
  | nil => exact .begins (Grammar.mark_begins close).parts (disjoint_singleton ending)
  | cons first rest => exact .begins (begins first).parts apart

theorem items_filled {close : Punctuator} (begins : ∀ a, Begins starts (phrase a))
    (values : List α) : ∀ part ∈ values.map phrase ++ [mark close], ¬ part [] := by
  intro part member
  rcases List.mem_append.mp member with member | member
  · obtain ⟨a, -, rfl⟩ := List.mem_map.mp member
    exact (begins a).filled
  · rw [List.mem_singleton.mp member]
    exact (Grammar.mark_begins close).filled

theorem upTo_complete {close : Punctuator} (complete : Complete input item phrase avoid)
    (begins : ∀ a, Begins starts (phrase a)) (apart : Disjoint starts avoid)
    (starting : .punctuator close ∉ starts) (ending : .punctuator close ∉ avoid)
    {values : List α} {fuel : Nat} (enough : values.length < fuel) :
    Reads input last (upTo close item fuel) values (Parts (values.map phrase ++ [mark close]))
      outer := by
  induction values generalizing fuel with
  | nil =>
    cases fuel with
    | zero => simp at enough
    | succ fuel => exact .marked .pure
  | cons first rest ih =>
    cases fuel with
    | zero => simp at enough
    | succ fuel =>
      refine .unmarked (.begins (begins first).parts fun kind member => ?_) ?_
      · rw [List.mem_singleton]
        rintro rfl
        exact starting member
      · exact .bind (complete _) (.items begins apart ending rest)
          (.map (ih (Nat.lt_of_succ_lt_succ enough)))

theorem any_complete {opening close : Punctuator} (complete : Complete input item phrase avoid)
    (begins : ∀ a, Begins starts (phrase a)) (apart : Disjoint starts avoid)
    (starting : .punctuator close ∉ starts) (ending : .punctuator close ∉ avoid) :
    Complete input (any opening item close) (Grammar.any opening phrase close) [] :=
  fun values last => .expectMark <| .remaining (items_filled begins values) fun fuel enough =>
    upTo_complete complete begins apart starting ending (by simp at enough; omega)

theorem many_complete {opening close : Punctuator} (complete : Complete input item phrase avoid)
    (begins : ∀ a, Begins starts (phrase a)) (apart : Disjoint starts avoid)
    (starting : .punctuator close ∉ starts) (ending : .punctuator close ∉ avoid) :
    Complete input (many opening item close) (Grammar.many opening phrase close) [] := by
  rintro values last state tokens ⟨some, holds⟩
  cases values with
  | nil => contradiction
  | cons first rest =>
    refine Reads.expectMark (.bind (complete _) (.items begins apart ending rest) ?_) state tokens
      holds
    refine .remaining (items_filled begins rest) fun fuel enough => .map ?_
    exact upTo_complete complete begins apart starting ending (by simp at enough; omega)

theorem optionalMany_complete {opening close : Punctuator}
    (complete : Complete input item phrase avoid) (begins : ∀ a, Begins starts (phrase a))
    (apart : Disjoint starts avoid) (starting : .punctuator close ∉ starts)
    (ending : .punctuator close ∉ avoid) :
    Complete input (optionalMany opening item close) (Grammar.optionalMany opening phrase close)
      [.punctuator opening] := by
  intro values last
  cases values with
  | nil => exact .unseen (.nil (List.Subset.refl _)) .pure
  | cons first rest =>
    exact .seen (Grammar.many_begins _)
      (.mono (many_complete complete begins apart starting ending _ last) (List.nil_subset _))

/-- Items that each start with a token of the kind, as many as there are. -/
theorem whileSeen_complete {kind : Lexeme.Kind} (complete : Complete input item phrase avoid)
    (begins : ∀ a, Begins [kind] (phrase a)) (apart : kind ∉ avoid) (within : avoid ⊆ outer)
    (stops : kind ∈ outer) {values : List α} {fuel : Nat} (enough : values.length < fuel) :
    Reads input last (whileSeen (sees kind) item fuel) values (Grammar.each phrase values)
      outer := by
  induction values generalizing fuel with
  | nil =>
    cases fuel with
    | zero => simp at enough
    | succ fuel => exact .unseen (.nil (by simpa using stops)) .pure
  | cons first rest ih =>
    cases fuel with
    | zero => simp at enough
    | succ fuel =>
      have next : Follows avoid (Grammar.each phrase rest) outer := by
        cases rest with
        | nil => exact .nil within
        | cons second rest => exact .begins (begins second).parts (disjoint_singleton apart)
      exact .seen (begins first).parts
        (.bind (complete _) next (.map (ih (Nat.lt_of_succ_lt_succ enough))))

/-- Items with a mark before each, as many as there are. -/
theorem bars_complete {bar : Punctuator} (complete : Complete input item phrase avoid)
    (apart : .punctuator bar ∉ avoid) (within : avoid ⊆ outer) (stops : .punctuator bar ∈ outer)
    {values : List α} {fuel : Nat} (enough : values.length < fuel) :
    Reads input last (whileSeen (skipMark bar) item fuel) values
      (Grammar.each (fun value => Parts [mark bar, phrase value]) values) outer := by
  induction values generalizing fuel with
  | nil =>
    cases fuel with
    | zero => simp at enough
    | succ fuel => exact .unmarked (.nil (by simpa using stops)) .pure
  | cons first rest ih =>
    cases fuel with
    | zero => simp at enough
    | succ fuel =>
      have next : Follows avoid
          (Grammar.each (fun value => Parts [mark bar, phrase value]) rest) outer := by
        cases rest with
        | nil => exact .nil within
        | cons =>
          exact .begins (Grammar.mark_begins bar).parts.parts (disjoint_singleton apart)
      exact .flatten (.marked (.bind (complete _) next (.map (ih (Nat.lt_of_succ_lt_succ enough)))))

theorem separatedByBars_complete (complete : Complete input item phrase avoid)
    (begins : ∀ a, Begins starts (phrase a)) (starting : .punctuator .pipe ∉ starts)
    (apart : .punctuator .pipe ∉ avoid) (within : avoid ⊆ outer)
    (stops : .punctuator .pipe ∈ outer) :
    Complete input (separatedByBars item) (Grammar.barred phrase) outer := by
  intro values last
  cases values with
  | nil => rintro state tokens ⟨⟩
  | cons first rest =>
    have bars (value : α) : Begins [.punctuator .pipe] (Parts [mark .pipe, phrase value]) :=
      (Grammar.mark_begins .pipe).parts
    refine .perhaps (.begins (begins first).parts fun kind member => ?_) (.bind (complete _) ?_ ?_)
    · rw [List.mem_singleton]
      rintro rfl
      exact starting member
    · exact .leads (Grammar.each_leads bars rest) (disjoint_singleton apart) (.nil within)
    · refine .single (.remaining ?_ fun fuel enough => .map ?_)
      · intro part member
        obtain ⟨a, -, rfl⟩ := List.mem_map.mp member
        exact (bars a).filled
      · exact bars_complete complete apart within stops (by simpa using enough)

end Lists
end Rules

end GraphQL.Parser
