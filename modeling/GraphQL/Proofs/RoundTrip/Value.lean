import GraphQL.Parser.Value
import GraphQL.Proofs.Parser.Form

/-! Names, value literals, arguments, directives and type annotations have forms: whatever
their parsers answer is printed as text that reads back to it. -/
namespace GraphQL.Parser
open Ast Layout

variable {α : Type} {l : Lexeme} {ls k : List Lexeme} {isConst : Bool} {depth : Nat}

/-! Names -/

/-- A name as a scanned text without spans gives it. -/
structure Plain (name : Name) : Prop where
  spelled : (Lexeme.name name.text).Spelled
  noSpan : name.span = none

theorem name_ensures : Ensures name Plain := by
  refine current_ensures.bind fun token spelled => ?_
  split
  · rename_i text eq
    rw [eq] at spelled
    refine advance_ensures.bind fun _ _ => (spanFrom_ensures _).bind ?_
    rintro _ rfl
    exact .pure ⟨spelled.resolve_left nofun, rfl⟩
  · exact fault_ensures _

theorem name_yields {n : Name} (plain : Plain n) (more : k ≠ []) :
    Yields name (.name n.text :: k) n k := by
  obtain ⟨text, span⟩ := n
  cases plain.noSpan
  refine .current fun token same => ?_
  rw [same]
  exact (Yields.advance more).bind (.node _)

theorem Plain.spells {n : Name} (plain : Plain n) : Spells n.text [.name n.text] :=
  .name plain.spelled

theorem name_form {n : Name} (plain : Plain n) :
    Full name Name.text [.name] [] n [.name n.text] where
  spells := plain.spells
  opens := .cons List.mem_cons_self
  nonempty := by simp
  yields _ _ _ := name_yields plain (by simp)

theorem variableName_ensures : Ensures variableName fun v => Plain v.name ∧ v.span = none := by
  refine start_ensures.bind fun start _ => (expect_ensures _).bind fun _ _ =>
    name_ensures.bind fun n plain => (spanFrom_ensures start).bind ?_
  rintro _ rfl
  exact .pure ⟨plain, rfl⟩

theorem variableName_form {v : Variable} (plain : Plain v.name) (noSpan : v.span = none) :
    Full variableName (fun v => "$" ++ v.name.text) [.punctuator .dollar] [] v
      [.punctuator .dollar, .name v.name.text] where
  spells := (Closed.mark .dollar).append plain.spells
  opens := .cons List.mem_cons_self
  nonempty := by simp
  yields l k _ := by
    obtain ⟨n, span⟩ := v
    cases noSpan
    exact .start fun start =>
      (Yields.expectMark (by simp)).bind ((name_yields plain (by simp)).bind (.node start))

/-! Value literals -/

/-- The kinds that a value literal starts with. -/
def valueStarts : List Lexeme.Kind :=
  [.punctuator .bracketL, .punctuator .braceL, .punctuator .dollar, .name, .int, .float, .string]

abbrev ValueFormed (isConst : Bool) (depth : Nat) : Value → Prop :=
  Formed (value isConst depth) Value.text valueStarts []

theorem value_texts (values : List Value) : Value.texts values = values.map Value.text := by
  induction values with
  | nil => rfl
  | cons value rest ih => rw [Value.texts, ih, List.map_cons]

/-- A literal of one lexeme. -/
theorem literal_form {literal : Value} (spelled : l.Spelled) (starts : l.kind ∈ valueStarts)
    (canonical : literal.text.toList = l.spelling)
    (reads : ∀ m k, Yields (value isConst depth) (l :: m :: k) literal (m :: k)) :
    ValueFormed isConst depth literal :=
  ⟨[l], {
    spells := .lexeme spelled canonical
    opens := .cons starts
    nonempty := by simp
    yields := fun m k _ => reads m k }⟩

theorem namedLiteral_text (text : String) : (namedLiteral text none).text = text := by
  unfold namedLiteral
  split <;> rfl

theorem list_form {values : List Value} {lss : List (List Lexeme)}
    (forms : List.Forall₂ (Full (value isConst depth) Value.text valueStarts []) values lss) :
    Full (value isConst (depth + 1)) Value.text valueStarts [] (.list values none)
      (.punctuator .bracketL :: lss.flatten ++ [.punctuator .bracketR]) where
  spells := by
    rw [Value.text, value_texts]
    exact ((Closed.mark .bracketL).append (join_spells _ (.blanks _ (by decide)) (by decide)
      (by decide) (forms_spell forms))).append (Closed.mark .bracketR).spells (by decide)
  opens := .cons (by decide)
  nonempty := by simp
  yields m k _ := by
    have items := any_yields forms .bracketL .bracketR
      (by decide) (by decide) (by decide) m k
    rw [List.cons_append, List.cons_append, List.append_assoc]
    rw [value]
    refine .current fun token same => ?_
    simp only [same]
    exact items.bind (.node _)

theorem objectFields_ensures {p : Parser Value} {P : Value → Prop} (item : Ensures p P)
    (fuel : Nat) (seen : List String) :
    Ensures (objectFields p fuel seen) fun fields =>
      (∀ f ∈ fields, Plain f.name ∧ P f.value ∧ f.span = none) ∧
      (∀ f ∈ fields, f.name.text ∉ seen) ∧ (fields.map fun f => f.name.text).Nodup := by
  induction fuel generalizing seen with
  | zero => exact unexpected_ensures
  | succ fuel ih =>
    refine (skip_ensures _).bind fun _ _ => .ite (fun _ => .pure (by simp)) fun _ => ?_
    refine start_ensures.bind fun start _ => name_ensures.bind fun n plain => ?_
    refine .ite (fun _ => (faultAt_ensures _ _).bind (P := fun _ => False) nofun) fun new => ?_
    refine (expect_ensures _).bind fun _ _ => item.bind fun v property =>
      (spanFrom_ensures start).bind ?_
    rintro _ rfl
    refine (ih _).bind ?_
    rintro fields ⟨each, others, distinct⟩
    refine .pure ⟨?_, ?_, ?_⟩
    · simpa using ⟨⟨plain, property⟩, each⟩
    · simp only [List.contains_eq_mem, decide_eq_true_eq] at new
      simp only [List.mem_cons, not_or] at others
      simpa using ⟨new, fun f member => (others f member).2⟩
    · rw [List.map_cons, List.nodup_cons]
      refine ⟨fun member => ?_, distinct⟩
      obtain ⟨f, member, same⟩ := List.mem_map.mp member
      exact others f member (same ▸ List.mem_cons_self)

theorem field_texts (fields : List ObjectField) :
    Value.fieldTexts fields = fields.map fun f => f.name.text ++ ": " ++ f.value.text := by
  induction fields with
  | nil => rfl
  | cons f rest ih =>
    obtain ⟨name, value, span⟩ := f
    rw [Value.fieldTexts, ih, List.map_cons]

/-- The text of a name, a colon and what follows. -/
theorem labelled_spells {n : Name} {text : String} (plain : Plain n) (spells : Spells text ls) :
    Spells (n.text ++ ": " ++ text) (.name n.text :: .punctuator .colon :: ls) := by
  have colon : Closed ": " [.punctuator .colon] := (Closed.spaced .colon).spelled (by decide)
  exact (plain.spells.append_closed colon (by decide) (by decide)).append spells

/-- The lexemes of an object field, which its value ends. -/
def FieldForm (p : Parser Value) (f : ObjectField) (ls : List Lexeme) : Prop :=
  Plain f.name ∧ f.span = none ∧ ∃ vs, ls = .name f.name.text :: .punctuator .colon :: vs ∧
    Full p Value.text valueStarts [] f.value vs

theorem objectFields_yields {p : Parser Value} {fields : List ObjectField}
    {lss : List (List Lexeme)} (forms : List.Forall₂ (FieldForm p) fields lss) {seen : List String}
    (others : ∀ f ∈ fields, f.name.text ∉ seen) (distinct : (fields.map fun f => f.name.text).Nodup)
    {fuel : Nat} (enough : lss.length < fuel) (m : Lexeme) (k : List Lexeme) :
    Yields (objectFields p fuel seen) (lss.flatten ++ .punctuator .braceR :: m :: k) fields
      (m :: k) := by
  induction forms generalizing seen fuel with
  | nil =>
    cases fuel with
    | zero => simp at enough
    | succ fuel => exact (Yields.skipMark (by simp)).bind .pure
  | @cons f ls fields lss head tail ih =>
    cases fuel with
    | zero => simp at enough
    | succ fuel =>
      obtain ⟨plain, noSpan, vs, rfl, full⟩ := head
      obtain ⟨n, v, span⟩ := f
      cases noSpan
      rw [List.map_cons, List.nodup_cons] at distinct
      have new : seen.contains n.text = false := by simpa using others _ List.mem_cons_self
      have fresh : ∀ f ∈ fields, f.name.text ∉ n.text :: seen := by
        intro f member
        simp only [List.mem_cons, not_or]
        exact ⟨fun same => distinct.1 (List.mem_map.mpr ⟨f, member, same⟩),
          others f (List.mem_cons_of_mem _ member)⟩
      have rest := ih fresh distinct.2 (Nat.lt_of_succ_lt_succ enough)
      rw [List.flatten_cons, List.append_assoc, List.cons_append, List.cons_append]
      refine (Yields.noSkipMark (by simp [Lexeme.kind])).bind ?_
      rw [if_neg (by decide)]
      refine .start fun start => (name_yields plain (by simp)).bind ?_
      dsimp only
      rw [new, if_neg (by decide)]
      refine (Yields.expectMark (by simp)).bind ?_
      obtain ⟨first, r, ahead⟩ : ∃ first r, lss.flatten ++ .punctuator .braceR :: m :: k =
        first :: r := List.exists_cons_of_ne_nil (by simp)
      have read := full.yields first r (by simp)
      rw [← ahead] at read
      exact read.bind ((Yields.spanFrom start).bind (rest.bind .pure))

theorem object_form {fields : List ObjectField} {lss : List (List Lexeme)}
    (forms : List.Forall₂ (FieldForm (value isConst depth)) fields lss)
    (distinct : (fields.map fun f => f.name.text).Nodup) :
    Full (value isConst (depth + 1)) Value.text valueStarts [] (.object fields none)
      (.punctuator .braceL :: lss.flatten ++ [Lexeme.punctuator .braceR]) where
  spells := by
    rw [Value.text, field_texts]
    have each : List.Forall₂ Spells (fields.map fun f => f.name.text ++ ": " ++ f.value.text) lss :=
      List.forall₂_map_left_iff.mpr (forms.imp fun f ls form => by
        obtain ⟨plain, -, vs, rfl, full⟩ := form
        exact labelled_spells plain full.spells)
    exact ((Closed.mark .braceL).append (join_spells _ (.blanks _ (by decide)) (by decide)
      (by decide) each)).append (Closed.mark .braceR).spells (by decide)
  opens := .cons (by decide)
  nonempty := by simp
  yields m k _ := by
    have count : lss.length ≤ lss.flatten.length := by
      clear distinct
      induction forms with
      | nil => exact Nat.le_refl _
      | cons form _ ih =>
        obtain ⟨-, -, vs, rfl, -⟩ := form
        simp only [List.flatten_cons, List.length_append, List.length_cons]
        omega
    rw [List.cons_append, List.cons_append, List.append_assoc]
    rw [value]
    refine .current fun token same => ?_
    simp only [same]
    refine (Yields.expectMark (by simp)).bind (.remaining fun fuel enough => ?_)
    simp only [List.length_append] at enough
    exact (objectFields_yields forms (by simp) distinct (by omega) m k).bind (.node _)

/-- Literals whose words and numbers are well written, that name no field twice and that are nested no
deeper than is allowed. -/
inductive Readable (isConst : Bool) : Nat → Value → Prop
  | int {depth : Nat} {text : String} : (Lexeme.int text).Spelled →
      Readable isConst depth (.int text none)
  | float {depth : Nat} {text : String} : (Lexeme.float text).Spelled →
      Readable isConst depth (.float text none)
  | string {depth : Nat} {text : String} : Readable isConst depth (.string text none)
  | named {depth : Nat} {text : String} : (Lexeme.name text).Spelled →
      Readable isConst depth (namedLiteral text none)
  | var {depth : Nat} {target : Variable} : ¬isConst = true → Plain target.name → target.span = none →
      Readable isConst depth (.var target)
  | list {depth : Nat} {values : List Value} : (∀ value ∈ values, Readable isConst depth value) →
      Readable isConst (depth + 1) (.list values none)
  | object {depth : Nat} {fields : List ObjectField} :
      (∀ field ∈ fields, Plain field.name ∧ field.span = none) →
      (fields.map fun field => field.name.text).Nodup →
      (∀ field ∈ fields, Readable isConst depth field.value) →
      Readable isConst (depth + 1) (.object fields none)

/-- Such a literal has a form. -/
theorem Readable.formed {literal : Value} (readable : Readable isConst depth literal) :
    ValueFormed isConst depth literal := by
  induction readable with
  | int spelled =>
    refine literal_form spelled (by simp [valueStarts, Lexeme.kind]) rfl fun m k => ?_
    unfold value
    refine .current fun token same => ?_
    simp only [same]
    exact (Yields.advance (by simp)).bind (.node _)
  | float spelled =>
    refine literal_form spelled (by simp [valueStarts, Lexeme.kind]) rfl fun m k => ?_
    unfold value
    refine .current fun token same => ?_
    simp only [same]
    exact (Yields.advance (by simp)).bind (.node _)
  | @string _ text =>
    refine literal_form (Lexeme.string_spelled text) (by simp [valueStarts, Lexeme.kind])
      (by simp [Value.text, Text.quote, Lexeme.spelling]) fun m k => ?_
    unfold value
    refine .current fun token same => ?_
    simp only [same]
    exact (Yields.advance (by simp)).bind (.node _)
  | named spelled =>
    refine literal_form spelled (by simp [valueStarts, Lexeme.kind])
      (by rw [namedLiteral_text]; rfl) fun m k => ?_
    unfold value
    refine .current fun token same => ?_
    simp only [same]
    exact (Yields.advance (by simp)).bind (.node (f := namedLiteral _) _)
  | var free plain noSpan =>
    have form := variableName_form plain noSpan
    refine ⟨_, { spells := form.spells, opens := .cons (by decide), nonempty := by simp,
                 yields := fun m k _ => ?_ }⟩
    have read := form.yields m k (by simp)
    unfold value
    refine .current fun token same => ?_
    simp only [same]
    rw [if_neg free]
    exact read.bind .pure
  | list _ formed =>
    obtain ⟨lss, forms⟩ := exists_forall₂ formed
    exact ⟨_, list_form forms⟩
  | @object depth fields plain distinct _ formed =>
    obtain ⟨lss, forms⟩ : ∃ lss, List.Forall₂ (FieldForm (value isConst depth)) fields lss :=
      exists_forall₂ fun field member => by
        obtain ⟨vs, full⟩ := formed field member
        exact ⟨_, (plain field member).1, (plain field member).2, vs, rfl, full⟩
    exact ⟨_, object_form forms distinct⟩

theorem word_ensures {f : Option Span → Value} {P : Value → Prop} (start : Nat) (property : P (f none)) :
    Ensures (do advance; return f (← spanFrom start)) P := by
  refine advance_ensures.bind fun _ _ => (spanFrom_ensures start).bind ?_
  rintro _ rfl
  exact .pure property

theorem value_step (shallower : ∀ d, depth = d + 1 → Ensures (value isConst d) (Readable isConst d)) :
    Ensures (value isConst depth) (Readable isConst depth) := by
  unfold value
  refine current_ensures.bind fun token spelled => ?_
  split
  · split
    · exact fault_ensures _
    · rename_i d
      refine (any_ensures _ _ (shallower d rfl)).bind fun values readable => ?_
      refine (spanFrom_ensures _).bind ?_
      rintro _ rfl
      exact .pure (.list readable)
  · split
    · exact fault_ensures _
    · rename_i d
      refine (expect_ensures _).bind fun _ _ => remaining_ensures.bind fun fuel _ => ?_
      refine (objectFields_ensures (shallower d rfl) fuel []).bind ?_
      rintro fields ⟨each, -, distinct⟩
      refine (spanFrom_ensures _).bind ?_
      rintro _ rfl
      exact .pure (.object (fun field member => ⟨(each field member).1, (each field member).2.2⟩)
        distinct fun field member => (each field member).2.1)
  · rename_i text same
    rw [same] at spelled
    exact word_ensures _ (.int (spelled.resolve_left nofun))
  · rename_i text same
    rw [same] at spelled
    exact word_ensures _ (.float (spelled.resolve_left nofun))
  · exact word_ensures _ .string
  · rename_i text same
    rw [same] at spelled
    exact word_ensures _ (.named (spelled.resolve_left nofun))
  · refine .ite (fun _ => unexpected_ensures) fun free => variableName_ensures.bind ?_
    rintro target ⟨plain, noSpan⟩
    exact .pure (.var free plain noSpan)
  · exact unexpected_ensures

/-- Nothing else is read. -/
theorem value_readable (isConst : Bool) (depth : Nat) :
    Ensures (value isConst depth) (Readable isConst depth) := by
  induction depth with
  | zero => exact value_step nofun
  | succ depth ih =>
    refine value_step fun d same => ?_
    rwa [← Nat.succ.inj same]

/-- Every value literal that is read has a form, at the depth that it was read at. -/
theorem value_ensures (isConst : Bool) (depth : Nat) :
    Ensures (value isConst depth) (ValueFormed isConst depth) :=
  (value_readable isConst depth).mono fun _ => Readable.formed

/-! Arguments and directives -/

theorem argument_form {n : Name} {v : Value} (plain : Plain n)
    (full : Full (value isConst depth) Value.text valueStarts [] v ls) :
    Full (argument isConst depth) Argument.text [.name] [] ⟨n, v, none⟩
      (.name n.text :: .punctuator .colon :: ls) where
  spells := labelled_spells plain full.spells
  opens := .cons List.mem_cons_self
  nonempty := by simp
  yields m k _ := .start fun start => (name_yields plain (by simp)).bind <|
    (Yields.expectMark (by simp)).bind <| (full.yields m k (by simp)).bind (.node start)

theorem argument_ensures (isConst : Bool) (depth : Nat) : Ensures (argument isConst depth)
    (Formed (argument isConst depth) Argument.text [.name] []) := by
  refine start_ensures.bind fun start _ => name_ensures.bind fun n plain =>
    (expect_ensures _).bind fun _ _ => (value_ensures isConst depth).bind ?_
  rintro v ⟨ls, full⟩
  refine (spanFrom_ensures start).bind ?_
  rintro _ rfl
  exact .pure ⟨_, argument_form plain full⟩

theorem arguments_ensures (isConst : Bool) (depth : Nat) : Ensures (arguments isConst depth)
    (Optional (arguments isConst depth) argumentsText [.punctuator .parenL]
      [.punctuator .parenL]) := by
  refine (optionalMany_ensures _ _ (argument_ensures isConst depth)).mono fun values formed => ?_
  exact optionalMany_optional formed (by decide) (by decide) (by decide)

theorem argumentsText_apart (arguments : List Argument) : Apart (argumentsText arguments) :=
  wrap_apart (by decide) (by decide)

theorem directive_form {n : Name} {as : List Argument} (plain : Plain n)
    (form : Form (arguments isConst depth) argumentsText [.punctuator .parenL]
      [.punctuator .parenL] as ls) :
    Full (directive isConst depth) Directive.text [.punctuator .atSign] [.punctuator .parenL]
      ⟨n, as, none⟩ (.punctuator .atSign :: .name n.text :: ls) where
  spells := ((Closed.mark .atSign).append plain.spells).append form.spells
    (argumentsText_apart as)
  opens := .cons List.mem_cons_self
  nonempty := by simp
  yields m k free := .start fun start => (Yields.expectMark (by simp)).bind <|
    (name_yields plain (by simp)).bind <| (form.yields m k free).bind (.node start)

theorem directive_ensures (isConst : Bool) (depth : Nat) : Ensures (directive isConst depth)
    (Formed (directive isConst depth) Directive.text [.punctuator .atSign]
      [.punctuator .parenL]) := by
  refine start_ensures.bind fun start _ => (expect_ensures _).bind fun _ _ =>
    name_ensures.bind fun n plain => (arguments_ensures isConst depth).bind ?_
  rintro as ⟨ls, form, -⟩
  refine (spanFrom_ensures start).bind ?_
  rintro _ rfl
  exact .pure ⟨_, directive_form plain form⟩

/-- The kinds that may not stand behind directives, or behind nothing in their place. -/
def afterDirectives : List Lexeme.Kind := [.punctuator .atSign, .punctuator .parenL]

abbrev DirectivesFormed (isConst : Bool) (depth : Nat) : List Directive → Prop :=
  Optional (directives isConst depth) directivesText [.punctuator .atSign] afterDirectives

theorem directives_form {values : List Directive} {lss : List (List Lexeme)}
    (forms : List.Forall₂ (Full (directive isConst depth) Directive.text [.punctuator .atSign]
      [.punctuator .parenL]) values lss) :
    Form (directives isConst depth) directivesText [.punctuator .atSign] afterDirectives values
      lss.flatten where
  spells := join_spells _ (.blanks _ (by decide)) (by decide) (by decide) (forms_spell forms)
  opens := forms_open forms
  yields m k free := by
    have count := forms_count forms
    simp only [afterDirectives, List.mem_cons, List.not_mem_nil, or_false, not_or] at free
    refine .remaining fun fuel enough => ?_
    simp only [List.length_append] at enough
    exact whileSeen_yields forms rfl (by decide) (by simpa using free.2) free.1 (by omega) k

theorem directives_ensures (isConst : Bool) (depth : Nat) :
    Ensures (directives isConst depth) (DirectivesFormed isConst depth) := by
  refine remaining_ensures.bind fun fuel _ =>
    (whileSeen_ensures (sees_ensures _) (directive_ensures isConst depth) fuel).mono ?_
  intro values formed
  obtain ⟨lss, forms⟩ := exists_forall₂ formed
  refine ⟨lss.flatten, directives_form forms, fun none => ?_⟩
  rw [forms_empty forms none]
  rfl

/-! Type annotations -/

theorem namedType_form {t : NamedType} (plain : Plain t.name) (noSpan : t.span = none) :
    Full namedType (fun t => t.name.text) [.name] [] t [.name t.name.text] where
  spells := plain.spells
  opens := .cons List.mem_cons_self
  nonempty := by simp
  yields m k _ := by
    obtain ⟨n, span⟩ := t
    cases noSpan
    exact .start fun start => (name_yields plain (by simp)).bind (.node start)

theorem namedType_ensures : Ensures namedType fun t => Plain t.name ∧ t.span = none := by
  refine start_ensures.bind fun start _ => name_ensures.bind fun n plain =>
    (spanFrom_ensures start).bind ?_
  rintro _ rfl
  exact .pure ⟨plain, rfl⟩

abbrev TypeFormed (depth : Nat) : TypeAnnotation → Prop :=
  Formed ( typeAnnotation depth) TypeAnnotation.text [.name, .punctuator .bracketL]
    [.punctuator .bang]

theorem withBang_ensures (start : Nat) (type : TypeAnnotation) :
    Ensures (withBang start type) fun t => t = type ∨ t = .nonNull type none := by
  refine (skip_ensures _).bind fun _ _ => .ite (fun _ => ?_) fun _ => .pure (.inl rfl)
  refine (sees_ensures _).bind fun _ _ => .ite
    (fun _ => (fault_ensures _).bind (P := fun _ => False) nofun) fun _ => ?_
  refine (spanFrom_ensures start).bind ?_
  rintro _ rfl
  exact .pure (.inr rfl)

/-- What a parser in front of an optional `!` reads, it reads with and without it. -/
theorem type_formed {type t : TypeAnnotation}
    (form : t = type ∨ t = .nonNull type none) (spells : Spells type.text (l :: ls))
    (starts : l.kind ∈ [.name, .punctuator .bracketL])
    (reads : ∀ m k b left, (∀ start, Yields (withBang start type) (m :: k) b left) →
      Yields ( typeAnnotation depth) (l :: ls ++ m :: k) b left) : TypeFormed depth t := by
  rcases form with rfl | rfl
  · refine ⟨l :: ls, { spells := spells, opens := .cons starts, nonempty := by simp,
                       yields := fun m k free => reads m k _ _ fun start => ?_ }⟩
    exact (Yields.noSkipMark (by simpa using free)).bind .pure
  · have bang : Closed "!" [.punctuator .bang] := (Closed.mark .bang).spelled (by decide)
    refine ⟨l :: ls ++ [.punctuator .bang], {
      spells := spells.append bang.spells (by decide)
      opens := .cons starts
      nonempty := by simp
      yields := fun m k free => ?_ }⟩
    rw [List.append_assoc]
    refine reads _ _ _ _ fun start => (Yields.skipMark (by simp)).bind ?_
    rw [if_pos rfl]
    exact (Yields.unseen (by simpa using free)).bind (.node start)

theorem typeAnnotation_step (shallower : ∀ d, depth = d + 1 →
    Ensures ( typeAnnotation d) (TypeFormed d)) :
    Ensures ( typeAnnotation depth) (TypeFormed depth) := by
  unfold typeAnnotation
  refine start_ensures.bind fun start _ => (skip_ensures _).bind fun _ _ =>
    .ite (fun _ => ?_) fun _ => ?_
  · split
    · exact fault_ensures _
    · rename_i d
      refine (shallower d rfl).bind ?_
      rintro item ⟨ls, full⟩
      refine (expect_ensures _).bind fun _ _ => (spanFrom_ensures start).bind ?_
      rintro _ rfl
      have text : Spells ("[" ++ item.text ++ "]")
          (.punctuator .bracketL :: (ls ++ [.punctuator .bracketR])) :=
        (((Closed.mark .bracketL).append full.spells).append (Closed.mark .bracketR).spells
          (by decide))
      refine (withBang_ensures _ _).mono fun t form => type_formed form text (by decide) ?_
      intro m k b left rest
      rw [List.cons_append, List.append_assoc]
      unfold typeAnnotation
      refine .start fun start => (Yields.skipMark (by simp)).bind ?_
      rw [if_pos rfl]
      refine (full.yields _ _ (by decide)).bind ?_
      exact (Yields.expectMark (by simp)).bind ((Yields.spanFrom start).bind (rest start))
  · refine namedType_ensures.bind ?_
    rintro named ⟨plain, noSpan⟩
    refine (withBang_ensures _ _).mono fun t form =>
      type_formed form plain.spells (by simp [Lexeme.kind]) ?_
    intro m k b left rest
    unfold typeAnnotation
    refine .start fun start => (Yields.noSkipMark (by simp [Lexeme.kind])).bind ?_
    rw [if_neg (by decide)]
    exact ((namedType_form plain noSpan).yields m k (by simp)).bind (rest start)

theorem typeAnnotation_ensures (depth : Nat) :
    Ensures ( typeAnnotation depth) (TypeFormed depth) := by
  induction depth with
  | zero => exact typeAnnotation_step nofun
  | succ depth ih =>
    refine typeAnnotation_step fun d same => ?_
    rwa [← Nat.succ.inj same]

end GraphQL.Parser
