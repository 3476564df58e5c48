import GraphQL.Parser.Document
import GraphQL.Proofs.RoundTrip.Value

/-! Selections have forms, at the depth that they are read at. The printer drops the empty
parts of a field; the parser tells the parts by the lexemes that they start with. -/
namespace GraphQL.Parser
open Ast Layout

variable {l : Lexeme} {ls ms k : List Lexeme} {depth : Nat} {set : Parser SelectionSet}

/-! Names and conditions of fragments -/

theorem fragmentName_ensures : Ensures fragmentName fun n => Plain n ∧ n.text ≠ "on" := by
  rintro input ⟨⟨lexeme, start, stop⟩, rest, before⟩ n next plain spelled run
  have unfolded : (if (lexeme == .name "on") = true then unexpected else name)
      input ⟨⟨lexeme, start, stop⟩, rest, before⟩ = .ok (n, next) := run
  split at unfolded
  · cases unfolded
  · rename_i other
    obtain ⟨spelled', named⟩ := name_ensures input _ n next plain spelled unfolded
    refine ⟨spelled', named, fun same => other ?_⟩
    cases lexeme with
    | name text =>
      have read : Ensures (do advance; return ⟨text, ← spanFrom start⟩ : Parser Name)
          fun n => n.text = text :=
        advance_ensures.bind fun _ _ => (spanFrom_ensures start).bind fun _ _ => .pure rfl
      rw [← (read input _ n next plain spelled unfolded).2, same, beq_self_eq_true]
    | _ => cases unfolded

theorem fragmentName_yields {n : Name} (plain : Plain n) (notOn : n.text ≠ "on") (more : k ≠ []) :
    Yields fragmentName (.name n.text :: k) n k := by
  refine (Yields.seesKeyword "on").bind ?_
  rw [if_neg (by simpa using notOn)]
  exact name_yields plain more

/-- The text of an optional type condition. -/
def conditionText (condition : Option NamedType) : String :=
  (condition.map fun condition => "on " ++ condition.name.text).getD ""

theorem name_spells {n : Name} {text : String} (plain : Plain n) (spells : Spells text ls) :
    Spells (n.text ++ (" " ++ text)) (.name n.text :: ls) :=
  plain.spells.append ((Closed.blanks " " (by decide)).append spells)
    (Apart.append (by decide) (by decide))

theorem word_spells {text : String} (word : String) {c : Char} {cs : List Char} (chars : word.toList = c :: cs)
    (start : Lexer.isNameStart c = true) (more : cs.all Lexer.isNameRest = true)
    (spells : Spells text ls) : Spells (word ++ (" " ++ text)) (.name word :: ls) :=
  (Spells.name (keyword_spelled chars start more)).append
    ((Closed.blanks " " (by decide)).append spells)
    (Apart.append (by decide) (by decide))

/-- A type condition is read behind the word `on`, and none where the word is not at hand. -/
theorem typeCondition_ensures : Ensures typeCondition fun condition => ∃ ls,
    Form typeCondition conditionText [.name] [.name] condition ls ∧
      ∀ l ∈ ls.head?, l = .name "on" := by
  refine (seesKeyword_ensures _).bind fun _ _ => .ite (fun _ => ?_) fun _ => .pure ?_
  · refine advance_ensures.bind fun _ _ => namedType_ensures.bind ?_
    rintro type ⟨plain, noSpan⟩
    refine .pure ⟨[.name "on", .name type.name.text], ⟨?_, .cons List.mem_cons_self, ?_⟩, ?_⟩
    · exact word_spells "on" rfl (by decide) (by decide) plain.spells
    · intro m k _
      refine (Yields.seesKeyword "on").bind ?_
      rw [beq_self_eq_true, if_pos rfl]
      refine (Yields.advance (by simp)).bind ?_
      exact ((namedType_form plain noSpan).yields m k (by simp)).bind .pure
    · rintro _ ⟨⟩
      rfl
  · refine ⟨[], ⟨.empty, .nil, fun m k free => ?_⟩, nofun⟩
    refine (Yields.seesKeyword "on").bind ?_
    rw [if_neg (by rintro same; rw [beq_iff_eq.mp same] at free; simp [Lexeme.kind] at free)]
    exact .pure

/-! Fields -/

abbrev SetFormed (set : Parser SelectionSet) : SelectionSet → Prop :=
  Formed set SelectionSet.text [.punctuator .braceL] []

/-- The kinds that may not stand behind a selection. -/
def afterSelection : List Lexeme.Kind :=
  [.punctuator .colon, .punctuator .parenL, .punctuator .atSign, .punctuator .braceL]

/-- The text of a field up to its arguments. -/
def labelText (label : Option Name × Name) : String :=
  ((label.1.map fun other => other.text ++ ": ").getD "") ++ label.2.text

theorem fieldLabel_ensures :
    Ensures fieldLabel (Formed fieldLabel labelText [.name] [.punctuator .colon]) := by
  refine name_ensures.bind fun first plain => (skip_ensures _).bind fun _ _ =>
    .ite (fun _ => name_ensures.bind fun name plainName => .pure ?_) fun _ => .pure ?_
  · refine ⟨[.name first.text, .punctuator .colon, .name name.text], {
      spells := labelled_spells plain plainName.spells
      opens := .cons List.mem_cons_self
      nonempty := by simp
      yields := fun m k _ => ?_ }⟩
    refine (name_yields plain (by simp)).bind ((Yields.skipMark (by simp)).bind ?_)
    rw [if_pos rfl]
    exact (name_yields plainName (by simp)).bind .pure
  · refine ⟨[.name first.text], {
      spells := by simpa [labelText] using plain.spells
      opens := .cons List.mem_cons_self
      nonempty := by simp
      yields := fun m k free => ?_ }⟩
    refine (name_yields plain (by simp)).bind ((Yields.noSkipMark (by simpa using free)).bind ?_)
    rw [if_neg (by decide)]
    exact .pure

theorem optionalSelectionSet_ensures (sets : Ensures set (SetFormed set)) :
    Ensures (optionalSelectionSet set) (Optional (optionalSelectionSet set) Selection.optionalText
      [.punctuator .braceL] [.punctuator .braceL]) := by
  refine (sees_ensures _).bind fun _ _ => .ite (fun _ => sets.bind ?_) fun _ => .pure ?_
  · rintro selections ⟨ls, full⟩
    refine .pure ⟨ls, ⟨full.spells, full.opens, fun m k _ => ?_⟩, fun none => ?_⟩
    · obtain ⟨first, r, ahead, member⟩ := full.next (m :: k)
      have seen : Yields (seesMark .braceL) (ls ++ m :: k) true (ls ++ m :: k) :=
        ahead ▸ .seen (List.mem_singleton.mp member)
      refine seen.bind ?_
      rw [if_pos rfl]
      exact (full.yields m k (by simp)).bind .pure
    · exact absurd none full.nonempty
  · refine ⟨[], ⟨.empty, .nil, fun m k free => ?_⟩, fun _ => rfl⟩
    exact (Yields.unseen (by simpa using free)).bind .pure

/-- The text of a field. -/
def fieldText (field : Field) : String := (Selection.field field).text

theorem field_ensures (sets : Ensures set (SetFormed set)) : Ensures (field set depth)
    (Formed (field set depth) fieldText [.name] afterSelection) := by
  refine start_ensures.bind fun start _ => fieldLabel_ensures.bind ?_
  rintro ⟨nickname, name⟩ ⟨labels, label⟩
  refine (arguments_ensures false depth).bind ?_
  rintro as ⟨las, arguments, -⟩
  refine (directives_ensures false depth).bind ?_
  rintro ds ⟨lds, directives, -⟩
  refine (optionalSelectionSet_ensures sets).bind ?_
  rintro selections ⟨lss, setForm, -⟩
  refine (spanFrom_ensures start).bind ?_
  rintro _ rfl
  refine .pure ⟨labels ++ (las ++ (lds ++ lss)), {
    spells := ?_
    opens := label.opens.append label.nonempty
    nonempty := by simp [label.nonempty]
    yields := fun m k free => ?_ }⟩
  · have head := label.spells.append arguments.spells (argumentsText_apart as)
    simpa [fieldText, Selection.text, labelText] using
      join_spells " " (.blanks _ (by decide)) (by decide) (by decide)
        (.cons head (.cons directives.spells (.cons setForm.spells .nil)))
  · have behind := directives.opens.both setForm.opens
    have tail := arguments.opens.both behind
    simp only [afterSelection, List.mem_cons, List.not_mem_nil, or_false, not_or] at free
    rw [List.append_assoc]
    refine .start fun start => (label.before tail (by decide) (by simp [free]) k).bind ?_
    rw [List.append_assoc]
    refine (arguments.before behind (by decide) (by simp [free]) k).bind ?_
    rw [List.append_assoc]
    refine (directives.before setForm.opens (by decide) (by simp [afterDirectives, free]) k).bind ?_
    exact (setForm.yields m k (by simp [free])).bind (.node start)

/-! Spreads and inline fragments -/

abbrev SelectionFormed (p : Parser Selection) (starts : List Lexeme.Kind) : Selection → Prop :=
  Formed p Selection.text starts afterSelection

theorem spread_formed {n : Name} {ds : List Directive} (plain : Plain n) (notOn : n.text ≠ "on")
    (formed : DirectivesFormed false depth ds) :
    SelectionFormed (fragmentSelection set depth) [.punctuator .spread] (.spread ⟨n, ds, none⟩) := by
  obtain ⟨lds, directives, visible⟩ := formed
  refine ⟨.punctuator .spread :: .name n.text :: lds, {
    spells := ?_
    opens := .cons List.mem_cons_self
    nonempty := by simp
    yields := fun m k free => ?_ }⟩
  · exact ((Closed.mark .spread).append plain.spells).append
      (wrap_blank_spells (.blanks _ (by decide)) directives.spells .empty (by decide) visible)
      (wrap_apart (by decide) (by decide))
  · simp only [afterSelection, List.mem_cons, List.not_mem_nil, or_false, not_or] at free
    refine .start fun start => (Yields.expectMark (by simp)).bind ?_
    refine (Yields.seen (by rfl)).bind ((Yields.seesKeyword "on").bind ?_)
    rw [if_pos (by simpa using notOn)]
    refine (fragmentName_yields plain notOn (by simp)).bind ?_
    exact (directives.yields m k (by simp [afterDirectives, free])).bind (.node start)

/-- In front of an inline fragment no fragment name is seen. -/
theorem inline_ahead {lcs behind : List Lexeme} (on : ∀ l ∈ lcs.head?, l = .name "on")
    (opens : Opens [.punctuator .atSign, .punctuator .braceL] behind) (some : behind ≠ [])
    (k : List Lexeme) : ∃ named on, (named && !on) = false ∧
      Yields (sees .name) (lcs ++ (behind ++ k)) named (lcs ++ (behind ++ k)) ∧
      Yields (seesKeyword "on") (lcs ++ (behind ++ k)) on (lcs ++ (behind ++ k)) := by
  cases lcs with
  | cons l lcs =>
    cases on l rfl
    exact ⟨true, _, by rw [beq_self_eq_true]; rfl, .seen rfl, .seesKeyword "on"⟩
  | nil =>
    cases behind with
    | nil => contradiction
    | cons first r =>
      refine ⟨false, _, rfl, .unseen fun same => ?_, .seesKeyword "on"⟩
      have member := opens first rfl
      rw [same] at member
      simp at member

theorem inline_formed {condition : Option NamedType} {ds : List Directive}
    {selections : SelectionSet} {lcs : List Lexeme}
    (form : Form typeCondition conditionText [.name] [.name] condition lcs)
    (on : ∀ l ∈ lcs.head?, l = .name "on") (formed : DirectivesFormed false depth ds)
    (setFormed : SetFormed set selections) :
    SelectionFormed (fragmentSelection set depth) [.punctuator .spread]
      (.inline ⟨condition, ds, selections, none⟩) := by
  obtain ⟨lds, directives, -⟩ := formed
  obtain ⟨lss, full⟩ := setFormed
  refine ⟨.punctuator .spread :: (lcs ++ (lds ++ lss)), {
    spells := ?_
    opens := .cons List.mem_cons_self
    nonempty := by simp
    yields := fun m k free => ?_ }⟩
  · have dots : Spells "..." [.punctuator .spread] := (Closed.mark .spread).spells
    simpa [Selection.text, conditionText] using
      join_spells " " (.blanks _ (by decide)) (by decide) (by decide)
        (.cons dots (.cons form.spells (.cons directives.spells (.cons full.spells .nil))))
  · have behind := directives.opens.both full.opens
    have some : lds ++ lss ≠ [] := by simp [full.nonempty]
    obtain ⟨named, on, unnamed, sees, keyword⟩ := inline_ahead on behind some (m :: k)
    have conditionRead := form.before_some behind some (by decide) (m :: k)
    rw [List.cons_append, List.append_assoc]
    refine .start fun start => (Yields.expectMark (by simp)).bind (sees.bind (keyword.bind ?_))
    rw [if_neg (by simp [unnamed])]
    refine conditionRead.bind ?_
    rw [List.append_assoc]
    refine (directives.before_some full.opens full.nonempty (by decide) (m :: k)).bind ?_
    exact (full.yields m k (by simp)).bind (.node start)

theorem fragmentSelection_ensures (sets : Ensures set (SetFormed set)) :
    Ensures (fragmentSelection set depth)
      (SelectionFormed (fragmentSelection set depth) [.punctuator .spread]) := by
  refine start_ensures.bind fun start _ => (expect_ensures _).bind fun _ _ =>
    (sees_ensures _).bind fun _ _ => (seesKeyword_ensures _).bind fun _ _ =>
      .ite (fun _ => ?_) fun _ => ?_
  · refine fragmentName_ensures.bind ?_
    rintro n ⟨plain, notOn⟩
    refine (directives_ensures false depth).bind fun ds formed => (spanFrom_ensures start).bind ?_
    rintro _ rfl
    exact .pure (spread_formed plain notOn formed)
  · refine typeCondition_ensures.bind ?_
    rintro condition ⟨lcs, form, on⟩
    refine (directives_ensures false depth).bind fun ds formed => sets.bind fun selections full =>
      (spanFrom_ensures start).bind ?_
    rintro _ rfl
    exact .pure (inline_formed form on formed full)

/-! Selection sets -/

theorem selection_ensures (sets : Ensures set (SetFormed set)) : Ensures (selection set depth)
    (SelectionFormed (selection set depth) [.name, .punctuator .spread]) := by
  refine (sees_ensures _).bind fun _ _ => .ite (fun _ => ?_) fun _ => ?_
  · refine (fragmentSelection_ensures sets).mono ?_
    rintro selection ⟨ls, full⟩
    refine ⟨ls, { full with
      opens := fun l head => List.mem_cons_of_mem _ (full.opens l head)
      yields := fun m k free => ?_ }⟩
    obtain ⟨first, r, ahead, member⟩ := full.next (m :: k)
    have seen : Yields (seesMark .spread) (ls ++ m :: k) true (ls ++ m :: k) :=
      ahead ▸ .seen (List.mem_singleton.mp member)
    refine seen.bind ?_
    rw [if_pos rfl]
    exact full.yields m k free
  · refine (field_ensures sets).bind ?_
    rintro field ⟨ls, full⟩
    refine .pure ⟨ls, {
      spells := full.spells
      nonempty := full.nonempty
      opens := fun l head => by simp [List.mem_singleton.mp (full.opens l head)]
      yields := fun m k free => ?_ }⟩
    obtain ⟨first, r, ahead, member⟩ := full.next (m :: k)
    have unseen : Yields (seesMark .spread) (ls ++ m :: k) false (ls ++ m :: k) :=
      ahead ▸ .unseen (by simp [List.mem_singleton.mp member])
    refine unseen.bind ?_
    rw [if_neg (by decide)]
    exact (full.yields m k free).bind .pure

theorem selection_texts (selections : List Selection) :
    Selection.texts selections = selections.map Selection.text := by
  induction selections with
  | nil => rfl
  | cons selection rest ih => rw [Selection.texts, ih, List.map_cons]

/-- Every selection set that is read has a form, at the depth that it was read at. -/
theorem selectionSet_ensures (depth : Nat) :
    Ensures (selectionSet depth) (SetFormed (selectionSet depth)) := by
  induction depth with
  | zero => exact fault_ensures _
  | succ depth ih =>
    refine start_ensures.bind fun start _ => (many_ensures _ _ (selection_ensures ih)).bind ?_
    rintro selections ⟨some, formed⟩
    refine (spanFrom_ensures start).bind ?_
    rintro _ rfl
    obtain ⟨lss, forms⟩ := exists_forall₂ formed
    refine .pure ⟨.punctuator .braceL :: (lss.flatten ++ [.punctuator .braceR]), {
      spells := ?_
      opens := .cons List.mem_cons_self
      nonempty := by simp
      yields := fun m k _ => .start fun start => ?_ }⟩
    · rw [SelectionSet.text, selection_texts]
      exact block_spells (forms_spell forms)
    · have read := many_yields forms .braceL .braceR (by decide)
        (by decide) (by decide) some m k
      simpa using read.bind (Yields.node start)

end GraphQL.Parser
