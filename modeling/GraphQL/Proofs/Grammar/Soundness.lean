import GraphQL.Parser.TypeSystem
import GraphQL.Proofs.Grammar.Reads

/-! What the parsers answer was read from the phrases of the grammar. -/
namespace GraphQL.Parser
open Ast
open Grammar (Phrase Parts node mark word)
open Grammar (parts_concat parts_single parts_flatten name_begins)

variable {α β : Type} {input : Input} {origin : State} {done : List Phrase} {p : Parser α}
  {f : α → Parser β} {phrase : α → Phrase} {whole : β → Phrase}

theorem Sound.mono {q : α → Phrase} (sound : Sound input p phrase)
    (weaker : ∀ value tokens, phrase value tokens → q value tokens) : Sound input p q := by
  intro state value next ends run
  obtain ⟨tokens, passes, holds⟩ := sound state value next ends run
  exact ⟨tokens, passes, weaker value tokens holds⟩

theorem Sound.of (after : ∀ origin, After input origin [] p phrase) : Sound input p phrase :=
  fun state value next ends run => after state [] state value next ends rfl (.refl state) run

theorem After.bind (first : Sound input p phrase)
    (rest : ∀ a, After input origin (done ++ [phrase a]) (f a) whole) :
    After input origin done (p >>= f) whole := by
  intro front state value next ends before passes run
  obtain ⟨a, middle, step, run⟩ := bind_ok run
  obtain ⟨tokens, one, holds⟩ := first state a middle (passes.ends ends) step
  exact rest a _ middle value next ends
    (parts_concat.mpr ⟨front, tokens, rfl, before, parts_single.mpr holds⟩) (passes.trans one) run

theorem After.pure {value : α} (close : ∀ tokens, Parts done tokens → phrase value tokens) :
    After input origin done (pure value) phrase := by
  rintro front state _ _ ends before passes ⟨⟩
  exact ⟨front, passes, close front before⟩

theorem After.last (last : Sound input p phrase) {whole : α → Phrase}
    (close : ∀ value tokens, Parts (done ++ [phrase value]) tokens → whole value tokens) :
    After input origin done p whole := by
  rw [← bind_pure p]
  exact .bind last fun value => .pure (close value)

/-- The span from the first of the tokens makes a node of the parts. -/
theorem After.span {f : Option Span → Parser β} (filled : ¬ Parts done [])
    (rest : ∀ span, After input origin [Grammar.node input.place span done] (f span) whole) :
    After input origin done (spanFrom origin.current.start >>= f) whole := by
  intro front state value next ends before passes run
  have some : front ≠ [] := by
    rintro rfl
    exact filled before
  rw [bind_apply, spanFrom_place] at run
  exact rest _ front state value next ends
    (parts_single.mpr ⟨(passes.extent some).symm, before⟩) passes run

/-- The last step of most parsers: the span and the node. -/
theorem After.node {f : Option Span → β} (filled : ¬ Parts done [])
    (close : ∀ span tokens, Grammar.node input.place span done tokens → whole (f span) tokens) :
    After input origin done (do return f (← spanFrom origin.current.start)) whole :=
  .span filled fun span => .pure fun tokens holds => close span tokens (parts_single.mp holds)

theorem After.start {f : Nat → Parser β}
    (rest : After input origin [] (f origin.current.start) whole) :
    After input origin [] (start >>= f) whole := by
  rintro _ state value next ends rfl passes run
  cases passes.eq
  exact rest [] origin value next ends rfl (.refl origin) run

theorem Sound.start {f : Nat → Parser β}
    (rest : ∀ origin : State, After input origin [] (f origin.current.start) whole) :
    Sound input (start >>= f) whole :=
  fun state value next ends run => rest state [] state value next ends rfl (.refl state) run

/-- A step that only looks does not matter. -/
theorem After.sees (kind : Lexeme.Kind) {f : Bool → Parser β}
    (rest : ∀ seen, After input origin done (f seen) whole) :
    After input origin done (sees kind >>= f) whole :=
  fun front state => rest _ front state

theorem After.seesKeyword (word : String) {f : Bool → Parser β}
    (rest : ∀ seen, After input origin done (f seen) whole) :
    After input origin done (seesKeyword word >>= f) whole :=
  fun front state => rest _ front state

theorem After.lexeme {f : Lexeme → Parser β} (rest : ∀ l, After input origin done (f l) whole) :
    After input origin done (lexeme >>= f) whole :=
  fun front state => rest _ front state

theorem After.ite {c : Prop} [Decidable c] {q : Parser α}
    (yes : c → After input origin done p phrase) (no : ¬c → After input origin done q phrase) :
    After input origin done (if c then p else q) phrase := by
  split
  · exact yes ‹c›
  · exact no ‹¬c›

theorem After.faultAt (position : Nat) (found : Fault) :
    After input origin done (faultAt position found : Parser α) phrase := by
  rintro front state value next ends before passes ⟨⟩

theorem After.fails {position : Nat} {found : Fault} {f : α → Parser β} :
    After input origin done (Parser.faultAt position found >>= f) whole := by
  rintro front state value next ends before passes ⟨⟩

theorem After.fault (found : Fault) : After input origin done (fault found : Parser α) phrase := by
  rintro front state value next ends before passes ⟨⟩

theorem After.unexpected : After input origin done (unexpected : Parser α) phrase := by
  rintro front state value next ends before passes ⟨⟩

/-- What a mark that is there or not is read from. -/
def marked (expected : Punctuator) (seen : Bool) : Phrase :=
  if seen then mark expected else Parts []

theorem kind_eq_name {l : Lexeme} : l.kind = .name ↔ ∃ text, l = .name text := by
  cases l <;> simp [Lexeme.kind]

/-- A step over a token that is not the end. -/
theorem advance_sound {state next : State} {l : Lexeme} {unit' : Unit} (ends : state.Ends)
    (here : state.current.lexeme = l) (more : l ≠ .finish)
    (run : advance input state = .ok (unit', next)) :
    ∃ tokens, Passes state tokens next ∧ Grammar.lexeme l tokens :=
  ⟨_, advance_passes ends (here ▸ more) run, _, rfl, here⟩

theorem expectMark_sound (expected : Punctuator) :
    Sound input (expectMark expected) fun _ => mark expected := by
  intro state value next ends run
  change (if state.kind == .punctuator expected then advance else _) input state = _ at run
  split at run
  · rename_i seen
    exact advance_sound ends (kind_eq_punctuator.mp (beq_iff_eq.mp seen)) (by simp) run
  · cases run

theorem expectKeyword_sound (expected : String) :
    Sound input (expectKeyword expected) fun _ => word expected := by
  intro state value next ends run
  change (if state.current.lexeme == .name expected then advance else _) input state = _ at run
  split at run
  · rename_i seen
    exact advance_sound ends (beq_iff_eq.mp seen) (by simp) run
  · cases run

theorem skipMark_sound (expected : Punctuator) :
    Sound input (skipMark expected) (marked expected) := by
  intro state value next ends run
  change (if state.kind == .punctuator expected then advance >>= fun _ => pure true else pure false)
    input state = _ at run
  split at run
  · rename_i seen
    obtain ⟨_, middle, run, ⟨⟩⟩ := bind_ok run
    exact advance_sound ends (kind_eq_punctuator.mp (beq_iff_eq.mp seen)) (by simp) run
  · cases run
    exact ⟨[], .refl state, rfl⟩

theorem After.skipMark {expected : Punctuator} {q : Parser α}
    (yes : After input origin (done ++ [mark expected]) p phrase)
    (no : After input origin done q phrase) :
    After input origin done (do if ← skipMark expected then p else q) phrase := by
  refine .bind (skipMark_sound expected) fun seen => ?_
  cases seen with
  | true => exact yes
  | false =>
    intro front state value next ends before
    exact no front state value next ends (by simpa using parts_flatten.mp before)

theorem After.remaining {f : Nat → Parser β}
    (rest : ∀ fuel, After input origin done (f fuel) whole) :
    After input origin done (remaining >>= f) whole :=
  fun front state => rest _ front state

theorem unexpected_sound : Sound input (unexpected : Parser α) phrase := by
  rintro state value next ends ⟨⟩

theorem upTo_sound (close : Punctuator) (item : Sound input p phrase) (fuel : Nat) :
    Sound input (upTo close p fuel) fun values => Parts (values.map phrase ++ [mark close]) := by
  induction fuel with
  | zero => exact unexpected_sound
  | succ fuel ih =>
    refine .of fun origin => .skipMark (.pure fun _ holds => holds) ?_
    exact .bind item fun a => .bind ih fun values => .pure fun _ holds => by
      simpa using parts_flatten.mp holds

theorem any_sound (opening close : Punctuator) (item : Sound input p phrase) :
    Sound input (any opening p close) (Grammar.any opening phrase close) :=
  .of fun _ => .bind (expectMark_sound opening) fun _ => .remaining fun fuel =>
    .last (upTo_sound close item fuel) fun _ _ holds => by
      simpa [Grammar.any] using parts_flatten.mp holds

theorem many_sound (opening close : Punctuator) (item : Sound input p phrase) :
    Sound input (many opening p close) (Grammar.many opening phrase close) :=
  .of fun _ => .bind (expectMark_sound opening) fun _ => .bind item fun first =>
    .remaining fun fuel => .bind (upTo_sound close item fuel) fun values =>
      .pure fun _ holds => ⟨by simp, by
        simpa [Grammar.any] using parts_flatten.mp holds⟩

theorem optionalMany_sound (opening close : Punctuator) (item : Sound input p phrase) :
    Sound input (optionalMany opening p close) (Grammar.optionalMany opening phrase close) :=
  .of fun _ => .sees _ fun _ => .ite
    (fun _ => .last (many_sound opening close item) fun values _ holds => by
      cases values with
      | nil => exact absurd rfl (parts_single.mp holds).1
      | cons => exact parts_single.mp holds)
    fun _ => .pure fun _ holds => holds

/-- Items while a token is seen that belongs to the items. -/
theorem whileSeen_sound (kind : Lexeme.Kind) (item : Sound input p phrase) (fuel : Nat) :
    Sound input (whileSeen (sees kind) p fuel) (Grammar.each phrase) := by
  induction fuel with
  | zero => exact unexpected_sound
  | succ fuel ih =>
    refine .of fun origin => .sees kind fun _ => .ite (fun _ => ?_) fun _ =>
      .pure fun _ holds => holds
    exact .bind item fun a => .bind ih fun values => .pure fun _ holds => by
      simpa [Grammar.each] using parts_flatten.mp holds

/-- Items while there is a mark before them. -/
theorem bars_sound (expected : Punctuator) (item : Sound input p phrase) (fuel : Nat) :
    Sound input (whileSeen (skipMark expected) p fuel)
      (Grammar.each fun value => Parts [mark expected, phrase value]) := by
  induction fuel with
  | zero => exact unexpected_sound
  | succ fuel ih =>
    refine .of fun origin => .skipMark ?_ (.pure fun _ holds => holds)
    refine .bind item fun a => .bind ih fun values => .pure fun _ holds => ?_
    exact (@parts_flatten [] _ _ _).mpr (by simpa using parts_flatten.mp holds)

theorem separatedByBars_sound (item : Sound input p phrase) :
    Sound input (separatedByBars p) (Grammar.barred phrase) := by
  have leading : Sound input (skipMark .pipe) fun _ => Grammar.perhaps (mark .pipe) := by
    refine (skipMark_sound _).mono ?_
    rintro (_ | _) tokens holds
    · exact .inl holds
    · exact .inr holds
  exact .of fun origin => .bind leading fun _ => .bind item fun first => .remaining fun fuel =>
    .bind (bars_sound _ item fuel) fun _ => .pure fun _ holds => holds

/-! Names, value literals, arguments, directives and types -/

theorem Sound.current {f : Token → Parser β}
    (rest : ∀ origin : State, After input origin [] (f origin.current) whole) :
    Sound input (current >>= f) whole :=
  fun state value next ends run => rest state [] state value next ends rfl (.refl state) run

/-- A step over the token at hand, whatever it is but the end. -/
theorem After.advance {l : Lexeme} (here : origin.current.lexeme = l) (more : l ≠ .finish)
    {q : Parser β} (rest : After input origin [Grammar.lexeme l] q whole) :
    After input origin [] (do advance; q) whole := by
  rintro _ state value next ends rfl passes run
  cases passes.eq
  obtain ⟨_, middle, step, run⟩ := bind_ok run
  obtain ⟨tokens, one, holds⟩ := advance_sound ends here more step
  exact rest tokens middle value next ends (parts_single.mpr holds) one run

theorem After.keyword {expected : String} {q r : Parser β}
    (yes : After input origin [word expected] q whole) (no : After input origin [] r whole) :
    After input origin []
      (do if ← Parser.seesKeyword expected then do Parser.advance; q else r) whole := by
  intro front state value next ends before passes run
  cases before
  cases passes.eq
  change (if origin.current.lexeme == .name expected then Parser.advance >>= fun _ => q else r)
    input origin = _ at run
  split at run
  · rename_i seen
    exact After.advance (beq_iff_eq.mp seen) (by simp) yes [] origin value next ends rfl
      (.refl origin) run
  · exact no [] origin value next ends rfl (.refl _) run

/-- A step over a name, whatever its text. -/
theorem After.expectName {q : Parser β}
    (rest : ∀ text, origin.current.lexeme = .name text → After input origin [word text] q whole) :
    After input origin [] (do expect .name; q) whole := by
  intro front state value next ends before passes run
  cases before
  cases passes.eq
  obtain ⟨_, middle, step, run⟩ := bind_ok run
  change (if origin.kind == .name then Parser.advance else _) input origin = _ at step
  split at step
  · obtain ⟨text, here⟩ := kind_eq_name.mp (beq_iff_eq.mp ‹_›)
    obtain ⟨tokens, one, holds⟩ := advance_sound ends here (by simp) step
    exact rest text here tokens middle value next ends (parts_single.mpr holds) one run
  · cases step

/-- A node of one token. -/
theorem After.single {l : Lexeme} (here : origin.current.lexeme = l) (more : l ≠ .finish)
    {f : Option Span → β}
    (close : ∀ span tokens, Grammar.node input.place span [Grammar.lexeme l] tokens →
      whole (f span) tokens) :
    After input origin [] (do Parser.advance; return f (← spanFrom origin.current.start)) whole :=
  .advance here more (.node (Grammar.lexeme_begins l).parts.filled close)

theorem name_sound : Sound input name (Grammar.name input.place) := by
  refine .current fun origin => ?_
  split
  · rename_i here
    exact .single here (by simp) fun _ _ holds => holds
  · exact .fault _

theorem variableName_sound : Sound input variableName (Grammar.variableName input.place) :=
  .start fun _ => .bind (expectMark_sound .dollar) fun _ => .bind name_sound fun _ =>
    .node (Grammar.mark_begins .dollar).parts.filled fun _ _ holds => holds

theorem namedLiteral_sound {isConst : Bool} {depth : Nat} {text : String} {span : Option Span}
    {tokens : List Token} (holds : node input.place span [word text] tokens) :
    Grammar.value input.place isConst depth (namedLiteral text span) tokens := by
  unfold namedLiteral
  split
  · simpa [Grammar.value] using holds
  · simpa [Grammar.value] using holds
  · simpa [Grammar.value] using holds
  · rename_i notTrue notFalse notNull
    rw [Grammar.value]
    exact ⟨by simpa using ⟨notTrue, notFalse, notNull⟩, holds⟩

/-- Object fields and the closing brace; none of them has a name met before. -/
theorem objectFields_sound {p : Parser Value} {phrase : Value → Phrase}
    (item : Sound input p phrase) (fuel : Nat) (seen : List String) :
    Sound input (objectFields p fuel seen) fun fields =>
      Grammar.given ((fields.map fun field => field.name.text).Nodup ∧
          ∀ field ∈ fields, field.name.text ∉ seen)
        (Parts (fields.map (Grammar.objectField input.place phrase) ++ [mark .braceR])) := by
  induction fuel generalizing seen with
  | zero => exact unexpected_sound
  | succ fuel ih =>
    refine .of fun origin => .skipMark (.pure fun _ holds => ⟨by simp, holds⟩) ?_
    refine .start (.bind name_sound fun label => .ite (fun _ => ?_) fun new => ?_)
    · exact .fails
    refine .bind (expectMark_sound .colon) fun _ => .bind item fun of => .span ?_ fun span => ?_
    · exact (name_begins label).parts.filled
    refine .bind (ih _) fun fields => .pure fun tokens holds => ?_
    obtain ⟨front, after, rfl, here, more⟩ := parts_concat.mp holds
    obtain ⟨⟨distinct, others⟩, rest⟩ := parts_single.mp more
    refine ⟨⟨?_, ?_⟩, front, after, rfl, parts_single.mp here, rest⟩
    · rw [List.map_cons, List.nodup_cons, List.mem_map]
      refine ⟨?_, distinct⟩
      rintro ⟨field, member, same⟩
      exact others field member (same ▸ List.mem_cons_self)
    · simp only [List.contains_eq_mem, decide_eq_true_eq] at new
      simp only [List.mem_cons, not_or] at others
      simpa using ⟨new, fun field member => (others field member).2⟩

theorem value_sound (isConst : Bool) (depth : Nat) :
    Sound input (value isConst depth) (Grammar.value input.place isConst depth) := by
  induction depth using Nat.strong_induction_on with
  | _ depth inner =>
    rw [value]
    refine .current fun origin => ?_
    split
    · cases depth with
      | zero => exact .fault _
      | succ depth =>
        refine .bind (any_sound .bracketL .bracketR (inner depth depth.lt_succ_self)) fun values =>
          .node (Grammar.any_begins values).parts.filled fun _ _ holds => ?_
        rwa [Grammar.value]
    · cases depth with
      | zero => exact .fault _
      | succ depth =>
        refine .bind (expectMark_sound .braceL) fun _ => .remaining fun fuel =>
          .bind (objectFields_sound (inner depth depth.lt_succ_self) fuel []) fun fields =>
            .node (Grammar.mark_begins .braceL).parts.filled ?_
        rintro span _ ⟨spans, front, after, rfl, opening, more⟩
        obtain ⟨⟨distinct, -⟩, rest⟩ := parts_single.mp more
        rw [Grammar.value]
        exact ⟨distinct, spans, parts_single.mpr ⟨front, after, rfl, opening, rest⟩⟩
    all_goals rename_i here
    · exact .single here (by simp) fun _ _ holds => by rwa [Grammar.value]
    · exact .single here (by simp) fun _ _ holds => by rwa [Grammar.value]
    · exact .single here (by simp) fun _ _ holds => by rwa [Grammar.value]
    · exact .single here (by simp) fun _ _ holds => namedLiteral_sound holds
    · refine .ite (fun _ => .unexpected) fun free => .bind variableName_sound fun target => .pure ?_
      intro tokens holds
      rw [Grammar.value]
      exact ⟨by simpa using free, parts_single.mp holds⟩
    · exact .unexpected

theorem argument_sound (isConst : Bool) (depth : Nat) :
    Sound input (argument isConst depth) (Grammar.argument input.place isConst depth) :=
  .start fun _ => .bind name_sound fun label => .bind (expectMark_sound .colon) fun _ =>
    .bind (value_sound isConst depth) fun _ =>
      .node (name_begins label).parts.filled fun _ _ holds => holds

theorem arguments_sound (isConst : Bool) (depth : Nat) :
    Sound input (arguments isConst depth) (Grammar.arguments input.place isConst depth) :=
  optionalMany_sound .parenL .parenR (argument_sound isConst depth)

theorem directive_sound (isConst : Bool) (depth : Nat) :
    Sound input (directive isConst depth) (Grammar.directive input.place isConst depth) :=
  .start fun _ => .bind (expectMark_sound .atSign) fun _ => .bind name_sound fun _ =>
    .bind (arguments_sound isConst depth) fun _ =>
      .node (Grammar.mark_begins _).parts.filled fun _ _ holds => holds

theorem directives_sound (isConst : Bool) (depth : Nat) :
    Sound input (directives isConst depth) (Grammar.directives input.place isConst depth) :=
  .of fun _ => .remaining fun fuel =>
    .last (whileSeen_sound _ (directive_sound isConst depth) fuel) fun _ _ => parts_single.mp

theorem namedType_sound : Sound input namedType (Grammar.namedType input.place) :=
  .start fun _ => .bind name_sound fun label =>
    .node (name_begins label).parts.filled fun _ _ holds => holds

/-- A type that may be null, with a bang or without one. -/
theorem withBang_sound {type : TypeAnnotation} {depth : Nat}
    (nullable : ∀ inner at', type ≠ .nonNull inner at') :
    After input origin [Grammar.anyType input.place depth type]
      (withBang origin.current.start type) (Grammar.anyType input.place depth) := by
  refine .skipMark ?_ (.pure fun _ => parts_single.mp)
  refine .sees _ fun _ => .ite (fun _ => .fault _) fun _ =>
    .node (Grammar.anyType_begins type).parts.filled ?_
  intro span tokens holds
  rw [Grammar.anyType]
  exact ⟨nullable, holds⟩

theorem typeAnnotation_sound (depth : Nat) :
    Sound input ( typeAnnotation depth) (Grammar.anyType input.place depth) := by
  induction depth using Nat.strong_induction_on with
  | _ depth inner =>
    rw [ typeAnnotation]
    refine .start fun origin => .skipMark ?_ (.bind namedType_sound fun type => ?_)
    · cases depth with
      | zero => exact .fault _
      | succ depth =>
        refine .bind (inner depth depth.lt_succ_self) fun item =>
          .bind (expectMark_sound .bracketR) fun _ =>
          .span (Grammar.mark_begins .bracketL).parts.filled fun span => ?_
        have list := @withBang_sound input origin (.list item span) (depth + 1) (by simp)
        rwa [Grammar.anyType] at list
    · have named := @withBang_sound input origin (.named type) depth (by simp)
      rwa [Grammar.anyType] at named

/-! Selections, operations and fragments -/

theorem fragmentName_sound : Sound input fragmentName (Grammar.fragmentName input.place) := by
  intro state label next ends run
  change (if state.current.lexeme == .name "on" then unexpected else name) input state = _ at run
  split at run
  · cases run
  · rename_i other
    obtain ⟨tokens, passes, holds⟩ := name_sound state label next ends run
    refine ⟨tokens, passes, fun same => other ?_, holds⟩
    obtain ⟨-, _, rest, rfl, ⟨token, rfl, here⟩, -⟩ := holds
    rw [passes.current, here, same]
    rfl

theorem optionalName_sound :
    Sound input optionalName (Grammar.optional (Grammar.name input.place)) :=
  .of fun _ => .sees _ fun _ => .ite
    (fun _ => .bind name_sound fun _ => .pure fun _ => parts_single.mp)
    fun _ => .pure fun _ holds => holds

theorem fieldLabel_sound : Sound input fieldLabel (Grammar.fieldLabel input.place) :=
  .of fun _ => .bind name_sound fun _ => .skipMark
    (.bind name_sound fun _ => .pure fun _ holds => holds) (.pure fun _ => parts_single.mp)

theorem optionalSelectionSet_sound {p : Parser SelectionSet} {phrase : SelectionSet → Phrase}
    (inner : Sound input p phrase) :
    Sound input (optionalSelectionSet p) (Grammar.optional phrase) :=
  .of fun _ => .sees _ fun _ => .ite
    (fun _ => .bind inner fun _ => .pure fun _ => parts_single.mp)
    fun _ => .pure fun _ holds => holds

theorem field_sound {p : Parser SelectionSet} {phrase : SelectionSet → Phrase}
    (inner : Sound input p phrase) (depth : Nat) :
    Sound input (field p depth) (Grammar.field input.place phrase depth) :=
  .start fun _ => .bind fieldLabel_sound fun label => .bind (arguments_sound false depth) fun _ =>
    .bind (directives_sound false depth) fun _ => .bind (optionalSelectionSet_sound inner) fun _ =>
      .node (Grammar.fieldLabel_begins label).parts.filled fun _ _ holds => holds

theorem typeCondition_sound : Sound input typeCondition (Grammar.typeCondition input.place) :=
  .of fun _ => .keyword (.bind namedType_sound fun _ => .pure fun _ holds => holds)
    (.pure fun _ holds => holds)

theorem fragmentSelection_sound {p : Parser SelectionSet} {phrase : SelectionSet → Phrase}
    (inner : Sound input p phrase) (depth : Nat) :
    Sound input (fragmentSelection p depth) (Grammar.selection input.place phrase depth) := by
  refine .start fun _ => .bind (expectMark_sound .spread) fun _ => .sees _ fun _ =>
    .seesKeyword _ fun _ => .ite (fun _ => ?_) fun _ => ?_
  · exact .bind fragmentName_sound fun _ => .bind (directives_sound false depth) fun _ =>
      .node (Grammar.mark_begins .spread).parts.filled fun _ _ holds => holds
  · exact .bind typeCondition_sound fun _ => .bind (directives_sound false depth) fun _ =>
      .bind inner fun _ => .node (Grammar.mark_begins .spread).parts.filled fun _ _ holds => holds

theorem selection_sound {p : Parser SelectionSet} {phrase : SelectionSet → Phrase}
    (inner : Sound input p phrase) (depth : Nat) :
    Sound input (selection p depth) (Grammar.selection input.place phrase depth) :=
  .of fun _ => .sees _ fun _ => .ite
    (fun _ => .last (fragmentSelection_sound inner depth) fun _ _ => parts_single.mp)
    fun _ => .bind (field_sound inner depth) fun _ => .pure fun _ => parts_single.mp

theorem selectionSet_sound (depth : Nat) :
    Sound input (selectionSet depth) (Grammar.selectionSet input.place depth) := by
  induction depth with
  | zero => exact .of fun _ => .fault _
  | succ depth inner =>
    exact .start fun _ => .bind (many_sound _ _ (selection_sound inner depth)) fun selections =>
      .node (Grammar.many_begins selections).parts.filled fun _ _ holds => holds

theorem ofText_eq {text : String} {operation : OperationType}
    (known : OperationType.ofText? text = some operation) : operation.text = text := by
  unfold OperationType.ofText? at known
  split at known <;> cases known <;> rfl

theorem operationType_sound :
    Sound input operationType Grammar.operationType := by
  refine .current fun origin => .expectName fun text here => ?_
  rw [here]
  split
  · rename_i operation known
    rw [← ofText_eq known]
    exact .pure fun _ => parts_single.mp
  · exact .faultAt _ _

theorem defaultValue_sound : Sound input defaultValue (Grammar.defaultValue input.place) :=
  .of fun _ => .skipMark
    (.bind (value_sound true maxDepth) fun _ => .pure fun _ holds => holds)
    (.pure fun _ holds => holds)

theorem variableDefinition_sound :
    Sound input variableDefinition (Grammar.variableDefinition input.place) :=
  .start fun _ => .bind variableName_sound fun target => .bind (expectMark_sound .colon) fun _ =>
    .bind (typeAnnotation_sound maxDepth) fun _ => .bind defaultValue_sound fun _ =>
      .node (Grammar.variableName_begins target).parts.filled fun _ _ holds => holds

theorem operationDefinition_sound :
    Sound input operationDefinition (Grammar.operationDefinition input.place) := by
  refine .start fun _ => .sees _ fun _ => .ite (fun _ => ?_) fun _ => ?_
  · exact .bind (selectionSet_sound maxDepth) fun selections =>
      .node (Grammar.selectionSet_begins selections).parts.filled fun _ _ holds =>
        .inl ⟨⟨rfl, rfl, rfl, rfl⟩, holds⟩
  · exact .bind operationType_sound fun operation => .bind optionalName_sound fun _ =>
      .bind (optionalMany_sound .parenL .parenR variableDefinition_sound) fun _ =>
        .bind (directives_sound false maxDepth) fun _ =>
          .bind (selectionSet_sound maxDepth) fun _ =>
          .node (Grammar.operationType_begins operation).parts.filled fun _ _ holds => .inr holds

theorem fragmentDefinition_sound :
    Sound input fragmentDefinition (Grammar.fragmentDefinition input.place) :=
  .start fun _ => .bind (expectKeyword_sound "fragment") fun _ => .bind fragmentName_sound fun _ =>
    .bind (expectKeyword_sound "on") fun _ => .bind namedType_sound fun _ =>
      .bind (directives_sound false maxDepth) fun _ => .bind (selectionSet_sound maxDepth) fun _ =>
        .node (Grammar.word_begins "fragment").parts.filled fun _ _ holds => holds

/-! Definitions of the type system -/

theorem constDirectives_sound :
    Sound input constDirectives (Grammar.constDirectives input.place) :=
  directives_sound true maxDepth

theorem operationTypeDefinition_sound :
    Sound input operationTypeDefinition (Grammar.operationTypeDefinition input.place) :=
  .start fun _ => .bind operationType_sound fun operation =>
    .bind (expectMark_sound .colon) fun _ => .bind namedType_sound fun _ =>
      .node (Grammar.operationType_begins operation).parts.filled fun _ _ holds => holds

theorem schemaDefinition_sound :
    Sound input schemaDefinition (Grammar.schemaDefinition input.place) :=
  .start fun _ => .bind (expectKeyword_sound "schema") fun _ => .bind constDirectives_sound fun _ =>
    .bind (many_sound _ _ operationTypeDefinition_sound) fun _ =>
      .node (Grammar.word_begins "schema").parts.filled fun _ _ holds => holds

theorem inputValueDefinition_sound :
    Sound input inputValueDefinition (Grammar.inputValueDefinition input.place) :=
  .start fun _ => .bind name_sound fun label => .bind (expectMark_sound .colon) fun _ =>
    .bind (typeAnnotation_sound maxDepth) fun _ => .bind defaultValue_sound fun _ =>
      .bind constDirectives_sound fun _ =>
        .node (name_begins label).parts.filled fun _ _ holds => holds

theorem argumentDefinitions_sound :
    Sound input argumentDefinitions (Grammar.argumentDefinitions input.place) :=
  optionalMany_sound _ _ inputValueDefinition_sound

theorem fieldDefinition_sound :
    Sound input fieldDefinition (Grammar.fieldDefinition input.place) :=
  .start fun _ => .bind name_sound fun label => .bind argumentDefinitions_sound fun _ =>
    .bind (expectMark_sound .colon) fun _ => .bind (typeAnnotation_sound maxDepth) fun _ =>
      .bind constDirectives_sound fun _ =>
        .node (name_begins label).parts.filled fun _ _ holds => holds

theorem fieldDefinitions_sound :
    Sound input fieldDefinitions (Grammar.fieldDefinitions input.place) :=
  any_sound _ _ fieldDefinition_sound

theorem scalarTypeDefinition_sound :
    Sound input scalarTypeDefinition (Grammar.scalarTypeDefinition input.place) :=
  .start fun _ => .bind (expectKeyword_sound "scalar") fun _ => .bind name_sound fun _ =>
    .bind constDirectives_sound fun _ =>
      .node (Grammar.word_begins "scalar").parts.filled fun _ _ holds => holds

theorem implementedInterfaces_sound :
    Sound input implementedInterfaces (Grammar.implementedInterfaces input.place) := by
  refine .of fun _ => .keyword ?_ (.pure fun _ holds => holds)
  refine .bind namedType_sound fun first => .remaining fun fuel =>
    .bind (whileSeen_sound _ namedType_sound fuel) fun _ => .pure fun _ holds => ?_
  exact (@parts_flatten [word "implements"] _ [] _).mpr (by simpa using parts_flatten.mp holds)

theorem objectTypeDefinition_sound :
    Sound input objectTypeDefinition (Grammar.objectTypeDefinition input.place) :=
  .start fun _ => .bind (expectKeyword_sound "type") fun _ => .bind name_sound fun _ =>
    .bind implementedInterfaces_sound fun _ => .bind constDirectives_sound fun _ =>
      .bind fieldDefinitions_sound fun _ =>
        .node (Grammar.word_begins "type").parts.filled fun _ _ holds => holds

theorem interfaceTypeDefinition_sound :
    Sound input interfaceTypeDefinition (Grammar.interfaceTypeDefinition input.place) :=
  .start fun _ => .bind (expectKeyword_sound "interface") fun _ => .bind name_sound fun _ =>
    .bind constDirectives_sound fun _ => .bind fieldDefinitions_sound fun _ =>
      .node (Grammar.word_begins "interface").parts.filled fun _ _ holds => holds

theorem unionTypeDefinition_sound :
    Sound input unionTypeDefinition (Grammar.unionTypeDefinition input.place) :=
  .start fun _ => .bind (expectKeyword_sound "union") fun _ => .bind name_sound fun _ =>
    .bind constDirectives_sound fun _ => .bind (expectMark_sound .equals) fun _ =>
      .bind (separatedByBars_sound namedType_sound) fun _ =>
        .node (Grammar.word_begins "union").parts.filled fun _ _ holds => holds

theorem enumValueDefinition_sound :
    Sound input enumValueDefinition (Grammar.enumValueDefinition input.place) :=
  .start fun _ => .bind name_sound fun label => .bind constDirectives_sound fun _ =>
    .node (name_begins label).parts.filled fun _ _ holds => holds

theorem enumTypeDefinition_sound :
    Sound input enumTypeDefinition (Grammar.enumTypeDefinition input.place) :=
  .start fun _ => .bind (expectKeyword_sound "enum") fun _ => .bind name_sound fun _ =>
    .bind constDirectives_sound fun _ => .bind (many_sound _ _ enumValueDefinition_sound) fun _ =>
      .node (Grammar.word_begins "enum").parts.filled fun _ _ holds => holds

theorem inputObjectTypeDefinition_sound :
    Sound input inputObjectTypeDefinition (Grammar.inputObjectTypeDefinition input.place) :=
  .start fun _ => .bind (expectKeyword_sound "input") fun _ => .bind name_sound fun _ =>
    .bind constDirectives_sound fun _ => .bind (any_sound _ _ inputValueDefinition_sound) fun _ =>
      .node (Grammar.word_begins "input").parts.filled fun _ _ holds => holds

theorem typeExtension_sound : Sound input typeExtension (Grammar.typeExtension input.place) :=
  .start fun _ => .bind (expectKeyword_sound "extend") fun _ =>
    .bind objectTypeDefinition_sound fun _ =>
      .node (Grammar.word_begins "extend").parts.filled fun _ _ holds => holds

theorem directiveDefinition_sound :
    Sound input directiveDefinition (Grammar.directiveDefinition input.place) :=
  .start fun _ => .bind (expectKeyword_sound "directive") fun _ =>
    .bind (expectMark_sound .atSign) fun _ => .bind name_sound fun _ =>
      .bind argumentDefinitions_sound fun _ => .bind (expectKeyword_sound "on") fun _ =>
        .bind (separatedByBars_sound name_sound) fun _ =>
          .node (Grammar.word_begins "directive").parts.filled fun _ _ holds => holds

theorem definition_sound : Sound input definition (Grammar.definition input.place) := by
  refine .of fun origin => .lexeme fun first => ?_
  split
  · exact .bind operationDefinition_sound fun _ => .pure fun _ => parts_single.mp
  · exact .bind operationDefinition_sound fun _ => .pure fun _ => parts_single.mp
  · exact .bind operationDefinition_sound fun _ => .pure fun _ => parts_single.mp
  · exact .bind operationDefinition_sound fun _ => .pure fun _ => parts_single.mp
  · exact .bind fragmentDefinition_sound fun _ => .pure fun _ => parts_single.mp
  · exact .bind schemaDefinition_sound fun _ => .pure fun _ => parts_single.mp
  · exact .bind scalarTypeDefinition_sound fun _ => .pure fun _ => parts_single.mp
  · exact .bind objectTypeDefinition_sound fun _ => .pure fun _ => parts_single.mp
  · exact .bind interfaceTypeDefinition_sound fun _ => .pure fun _ => parts_single.mp
  · exact .bind unionTypeDefinition_sound fun _ => .pure fun _ => parts_single.mp
  · exact .bind enumTypeDefinition_sound fun _ => .pure fun _ => parts_single.mp
  · exact .bind inputObjectTypeDefinition_sound fun _ => .pure fun _ => parts_single.mp
  · exact .bind typeExtension_sound fun _ => .pure fun _ => parts_single.mp
  · exact .bind directiveDefinition_sound fun _ => .pure fun _ => parts_single.mp
  · exact .unexpected

end GraphQL.Parser
