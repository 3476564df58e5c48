import Mathlib.Data.List.Perm.Basic
import Mathlib.Tactic.Tauto
import GraphQL.Proofs.Overlap.Exactness

/-! Whether a document conflicts plainly does not depend on the order of its selections and
definitions, so long as the fragments of one name keep theirs: of those the first one counts. -/
namespace GraphQL.Validation.Overlap
open Ast (SelectionSet Selection FragmentSpread FragmentDefinition Definition Document)

/-- Two fields of which the rule reads the same, but for what is selected below them. -/
structure SameField (a b : Ast.Field) : Prop where
  key : a.responseKey = b.responseKey
  name : a.name.text = b.name.text
  arguments : a.arguments.map given = b.arguments.map given
  sets : a.selectionSet.isSome = b.selectionSet.isSome

/-- The same selections in another order, at every depth. -/
inductive Shuffled : List Selection → List Selection → Prop
  | same (selections : List Selection) : Shuffled selections selections
  | field {a b : Ast.Field} {rest others : List Selection} : SameField a b →
      Shuffled a.inner b.inner → Shuffled rest others →
      Shuffled (.field a :: rest) (.field b :: others)
  | spread {a b : FragmentSpread} {rest others : List Selection} : a.target = b.target →
      Shuffled rest others → Shuffled (.spread a :: rest) (.spread b :: others)
  | inline {a b : Ast.InlineFragment} {rest others : List Selection} :
      (a.typeCondition.map fun type => type.name.text) =
        b.typeCondition.map (fun type => type.name.text) →
      Shuffled a.selectionSet.selections b.selectionSet.selections → Shuffled rest others →
      Shuffled (.inline a :: rest) (.inline b :: others)
  | swap (a b : Selection) (rest : List Selection) : Shuffled (a :: b :: rest) (b :: a :: rest)
  | trans {first second third : List Selection} : Shuffled first second → Shuffled second third →
      Shuffled first third

/-- Two fragments of one name and type with the same selections in another order. -/
structure SameFragment (f g : FragmentDefinition) : Prop where
  name : f.name.text = g.name.text
  condition : f.typeCondition.name.text = g.typeCondition.name.text
  selections : Shuffled f.selectionSet.selections g.selectionSet.selections

/-- The same definitions in another order, but the fragments of one name in the same. -/
inductive Rearranged : List Definition → List Definition → Prop
  | same (definitions : List Definition) : Rearranged definitions definitions
  | operation {a b : Ast.OperationDefinition} {rest others : List Definition} :
      a.operation = b.operation →
      Shuffled a.selectionSet.selections b.selectionSet.selections → Rearranged rest others →
      Rearranged (.operation a :: rest) (.operation b :: others)
  | fragment {f g : FragmentDefinition} {rest others : List Definition} : SameFragment f g →
      Rearranged rest others → Rearranged (.fragment f :: rest) (.fragment g :: others)
  | typeSystem (a b : Ast.TypeSystemDefinition) {rest others : List Definition} :
      Rearranged rest others → Rearranged (.typeSystem a :: rest) (.typeSystem b :: others)
  | swap {a b : Definition} (rest : List Definition) :
      (∀ f g, a.fragment? = some f → b.fragment? = some g → f.name.text ≠ g.name.text) →
      Rearranged (a :: b :: rest) (b :: a :: rest)
  | trans {first second third : List Definition} : Rearranged first second →
      Rearranged second third → Rearranged first third

theorem SameField.refl (a : Ast.Field) : SameField a a := ⟨rfl, rfl, rfl, rfl⟩

theorem SameField.symm {a b : Ast.Field} (same : SameField a b) : SameField b a :=
  ⟨same.key.symm, same.name.symm, same.arguments.symm, same.sets.symm⟩

theorem SameField.trans {a b c : Ast.Field} (first : SameField a b) (second : SameField b c) :
    SameField a c :=
  ⟨first.key.trans second.key, first.name.trans second.name,
    first.arguments.trans second.arguments, first.sets.trans second.sets⟩

theorem Shuffled.symm {first second : List Selection} (shuffled : Shuffled first second) :
    Shuffled second first := by
  induction shuffled with
  | same selections => exact .same selections
  | field same _ _ below ih => exact .field same.symm below ih
  | spread same _ ih => exact .spread same.symm ih
  | inline same _ _ inside ih => exact .inline same.symm inside ih
  | swap a b rest => exact .swap b a rest
  | trans _ _ ih after => exact .trans after ih

theorem SameFragment.symm {f g : FragmentDefinition} (same : SameFragment f g) :
    SameFragment g f := ⟨same.name.symm, same.condition.symm, same.selections.symm⟩

theorem SameFragment.refl (f : FragmentDefinition) : SameFragment f f := ⟨rfl, rfl, .same _⟩

theorem SameFragment.trans {f g h : FragmentDefinition} (first : SameFragment f g)
    (second : SameFragment g h) : SameFragment f h :=
  ⟨first.name.trans second.name, first.condition.trans second.condition,
    first.selections.trans second.selections⟩

theorem Rearranged.symm {first second : List Definition} (rearranged : Rearranged first second) :
    Rearranged second first := by
  induction rearranged with
  | same definitions => exact .same definitions
  | operation same selections _ ih => exact .operation same.symm selections.symm ih
  | fragment same _ ih => exact .fragment same.symm ih
  | typeSystem a b _ ih => exact .typeSystem b a ih
  | swap rest apart => exact .swap rest fun f g left right => (apart g f right left).symm
  | trans _ _ ih after => exact .trans after ih

/-- Two selected fields that differ in the order of what is selected below them only. -/
structure Matched (a b : Selected) : Prop where
  parent : a.parent = b.parent
  definition : a.definition = b.definition
  node : SameField a.node b.node
  below : Shuffled a.node.inner b.node.inner

/-- The same selected fields in another order. -/
abbrev Paired : List Selected → List Selected → Prop :=
  Relation.Comp List.Perm (List.Forall₂ Matched)

section Pairs
variable {first second third : List Selected}

theorem Matched.refl (a : Selected) : Matched a a := ⟨rfl, rfl, .refl _, .same _⟩

theorem Matched.trans {a b c : Selected} (left : Matched a b) (right : Matched b c) :
    Matched a c :=
  ⟨left.parent.trans right.parent, left.definition.trans right.definition,
    left.node.trans right.node, left.below.trans right.below⟩

theorem Matched.set {a b : Selected} (matched : Matched a b) {s : SelectionSet}
    (has : a.node.selectionSet = some s) :
    ∃ t, b.node.selectionSet = some t ∧ Shuffled s.selections t.selections := by
  have sets := matched.node.sets
  have below := matched.below
  rw [has] at sets
  obtain ⟨t, other⟩ := Option.isSome_iff_exists.1 sets.symm
  rw [Ast.Field.inner, Ast.Field.inner, has, other] at below
  exact ⟨t, other, below⟩

theorem Paired.refl (fields : List Selected) : Paired fields fields :=
  ⟨fields, .refl fields, List.forall₂_same.2 fun a _ => .refl a⟩

theorem matched_trans (left : List.Forall₂ Matched first second)
    (right : List.Forall₂ Matched second third) : List.Forall₂ Matched first third := by
  induction left generalizing third with
  | nil => exact right
  | cons matched _ ih =>
    cases right with
    | cons other rest => exact .cons (matched.trans other) (ih rest)

theorem Paired.trans (left : Paired first second) (right : Paired second third) :
    Paired first third := by
  obtain ⟨middle, perm, same⟩ := left
  obtain ⟨later, moved, others⟩ := right
  have crossed : Relation.Comp (List.Forall₂ Matched) List.Perm middle later := ⟨second, same, moved⟩
  rw [List.forall₂_comp_perm_eq_perm_comp_forall₂] at crossed
  obtain ⟨between, shifted, matched⟩ := crossed
  exact ⟨between, perm.trans shifted, matched_trans matched others⟩

theorem Paired.append {more others : List Selected} (left : Paired first second)
    (right : Paired more others) : Paired (first ++ more) (second ++ others) := by
  obtain ⟨middle, perm, same⟩ := left
  obtain ⟨later, moved, matched⟩ := right
  exact ⟨middle ++ later, perm.append moved, List.rel_append same matched⟩

theorem Paired.mem {a : Selected} (paired : Paired first second) (member : a ∈ first) :
    ∃ b ∈ second, Matched a b := by
  obtain ⟨middle, perm, same⟩ := paired
  exact forall₂_mem same (perm.mem_iff.1 member)

theorem Paired.pair {a b : Selected} (paired : Paired first second)
    (below : [a, b].Subperm first) :
    ∃ a' b', [a', b'].Subperm second ∧ Matched a a' ∧ Matched b b' := by
  obtain ⟨middle, perm, same⟩ := paired
  rcases subperm_pair ((perm.subperm_left).1 below) with below | below
  · obtain ⟨a', b', below, left, right⟩ := forall₂_pair same below
    exact ⟨a', b', below.subperm, left, right⟩
  · obtain ⟨b', a', below, right, left⟩ := forall₂_pair same below
    exact ⟨a', b', (List.Perm.swap b' a' []).subperm_right.2 below.subperm, left, right⟩

end Pairs

section Selections
variable {schema : Schema} {selections others : List Selection} {name : String}

/-- The type that an inline fragment selects from. -/
theorem fieldsBy_inline (parent : Option TypeDef) (inline : Ast.InlineFragment) :
    fieldsBy schema parent (.inline inline) =
      fieldsIn schema (match inline.typeCondition.map fun type => type.name.text with
        | some condition => schema.type? condition
        | none => parent) inline.selectionSet.selections := by
  obtain ⟨condition, _, ⟨_, _⟩, _⟩ := inline
  cases condition <;> rw [fieldsBy, fieldsOf] <;> rfl

theorem Shuffled.fields (shuffled : Shuffled selections others) (parent : Option TypeDef) :
    Paired (fieldsIn schema parent selections) (fieldsIn schema parent others) := by
  induction shuffled generalizing parent with
  | same selections => exact .refl _
  | @field a b rest others same below _ _ ih =>
    have definition : (parent.bind fun type => schema.field? type a.name.text) =
        parent.bind fun type => schema.field? type b.name.text := by rw [same.name]
    rw [fieldsIn, fieldsIn, fieldsBy, fieldsBy]
    exact Paired.append ⟨_, .refl _, .cons ⟨rfl, definition, same, below⟩ .nil⟩ (ih parent)
  | spread _ _ ih =>
    rw [fieldsIn, fieldsIn, fieldsBy, fieldsBy]
    exact ih parent
  | inline same _ _ inside ih =>
    rw [fieldsIn, fieldsIn, fieldsBy_inline, fieldsBy_inline, same]
    exact (inside _).append (ih parent)
  | swap a b rest =>
    simp only [fieldsIn, ← List.append_assoc]
    exact ⟨_, List.perm_append_comm.append_right _, List.forall₂_same.2 fun x _ => .refl x⟩
  | trans _ _ first second => exact (first parent).trans (second parent)

theorem spreadsBy_inline (inline : Ast.InlineFragment) :
    spreadsBy (.inline inline) = spreadsIn inline.selectionSet.selections := by
  obtain ⟨_, _, ⟨_, _⟩, _⟩ := inline
  rw [spreadsBy, spreadsOf]

theorem Shuffled.beside (shuffled : Shuffled selections others) :
    name ∈ spreadsIn selections ↔ name ∈ spreadsIn others := by
  induction shuffled with
  | same selections => exact Iff.rfl
  | field _ _ _ _ ih =>
    rw [spreadsIn, spreadsIn, spreadsBy, spreadsBy]
    exact ih
  | spread same _ ih =>
    rw [FragmentSpread.target, FragmentSpread.target] at same
    rw [spreadsIn, spreadsIn, spreadsBy, spreadsBy, List.mem_append, List.mem_append, ih, same]
  | inline _ _ _ inside ih =>
    rw [spreadsIn, spreadsIn, spreadsBy_inline, spreadsBy_inline, List.mem_append,
      List.mem_append, inside, ih]
  | swap a b rest =>
    simp only [spreadsIn, List.mem_append]
    exact or_left_comm
  | trans _ _ first second => exact first.trans second

/-- The names that are spread in some selections, at every depth. -/
def targets (selections : List Selection) : List String :=
  (selections.filterMap Selection.spread? ++ Selection.spreadsBelow selections).map
    FragmentSpread.target

theorem spreads_targets (set : SelectionSet) :
    set.spreads.map FragmentSpread.target = targets set.selections := by
  obtain ⟨_, _⟩ := set
  rw [SelectionSet.spreads, targets]

def targetsBy : Selection → List String
  | .field field => targets field.inner
  | .spread spread => [spread.target]
  | .inline inline => targets inline.selectionSet.selections

theorem mem_targets {name : String} {selections : List Selection} :
    name ∈ targets selections ↔
      name ∈ (selections.filterMap Selection.spread?).map FragmentSpread.target ∨
      name ∈ (Selection.spreadsBelow selections).map FragmentSpread.target := by
  rw [targets, List.map_append, List.mem_append]

theorem spreadsInside_targets (selection : Selection) :
    name ∈ selection.spread?.toList.map FragmentSpread.target ∨
      name ∈ selection.spreadsInside.map FragmentSpread.target ↔ name ∈ targetsBy selection := by
  cases selection with
  | spread spread =>
    have none : (Selection.spread spread).spreadsInside = [] := by simp [Selection.spreadsInside]
    rw [none, targetsBy]
    exact or_iff_left List.not_mem_nil
  | field field =>
    obtain ⟨_, _, _, _, set, _⟩ := field
    cases set with
    | none =>
      simp [Selection.spread?, Selection.spreadsInside, targetsBy, targets, Ast.Field.inner,
        Selection.spreadsBelow]
    | some set =>
      rw [Selection.spreadsInside, spreads_targets]
      exact or_iff_right List.not_mem_nil
  | inline inline =>
    obtain ⟨_, _, _, _⟩ := inline
    rw [Selection.spreadsInside, spreads_targets]
    exact or_iff_right List.not_mem_nil

theorem mem_targets_cons (selection : Selection) (rest : List Selection) :
    name ∈ targets (selection :: rest) ↔ name ∈ targetsBy selection ∨ name ∈ targets rest := by
  have first : name ∈ ((selection :: rest).filterMap Selection.spread?).map FragmentSpread.target ↔
      name ∈ selection.spread?.toList.map FragmentSpread.target ∨
        name ∈ (rest.filterMap Selection.spread?).map FragmentSpread.target := by
    cases selection <;> simp [Selection.spread?]
  rw [mem_targets, first, Selection.spreadsBelow, List.map_append, List.mem_append, mem_targets,
    ← spreadsInside_targets]
  tauto

theorem Shuffled.targets (shuffled : Shuffled selections others) :
    name ∈ Overlap.targets selections ↔ name ∈ Overlap.targets others := by
  induction shuffled with
  | same selections => exact Iff.rfl
  | field _ _ _ below ih => rw [mem_targets_cons, mem_targets_cons, targetsBy, targetsBy, below, ih]
  | spread same _ ih => rw [mem_targets_cons, mem_targets_cons, targetsBy, targetsBy, same, ih]
  | inline _ _ _ inside ih =>
    rw [mem_targets_cons, mem_targets_cons, targetsBy, targetsBy, inside, ih]
  | swap a b rest =>
    rw [mem_targets_cons, mem_targets_cons, mem_targets_cons, mem_targets_cons]
    exact or_left_comm
  | trans _ _ first second => exact first.trans second

end Selections

/-- The walk comes to the same sets, each with its selections in another order. -/
def Kept (stops others : List Stop) : Prop :=
  ∀ around parent set, .set around parent set ∈ stops →
    ∃ around' set', .set around' parent set' ∈ others ∧
      Shuffled set.selections set'.selections

section Stops
variable {schema : Schema} {selections others : List Selection} {stops later : List Stop}

theorem Kept.refl (stops : List Stop) : Kept stops stops :=
  fun around _ set member => ⟨around, set, member, .same _⟩

theorem Kept.trans {third : List Stop} (first : Kept stops later) (second : Kept later third) :
    Kept stops third := by
  intro around parent set member
  obtain ⟨_, _, member, shuffled⟩ := first around parent set member
  obtain ⟨around', set', member, again⟩ := second _ parent _ member
  exact ⟨around', set', member, shuffled.trans again⟩

theorem Kept.append {more rest : List Stop} (first : Kept stops later) (second : Kept more rest) :
    Kept (stops ++ more) (later ++ rest) := by
  intro around parent set member
  rcases List.mem_append.1 member with member | member
  · obtain ⟨around', set', found, shuffled⟩ := first around parent set member
    exact ⟨around', set', List.mem_append_left _ found, shuffled⟩
  · obtain ⟨around', set', found, shuffled⟩ := second around parent set member
    exact ⟨around', set', List.mem_append_right _ found, shuffled⟩

theorem kept_of_subset (subset : stops ⊆ later) : Kept stops later :=
  fun around _ set member => ⟨around, set, subset member, .same _⟩

theorem Kept.set {s t : SelectionSet}
    (inner : ∀ type parent, Kept (selectionsStops schema type parent s.selections)
      (selectionsStops schema type parent t.selections))
    (shuffled : Shuffled s.selections t.selections) (around around' : Option String)
    (type : Option TypeRef) :
    Kept (setStops schema around type s) (setStops schema around' type t) := by
  obtain ⟨_, _⟩ := s
  obtain ⟨_, _⟩ := t
  rw [setStops, setStops]
  intro _ parent set member
  rcases List.mem_cons.1 member with same | member
  · cases same
    exact ⟨around', _, List.mem_cons_self, shuffled⟩
  · obtain ⟨outer, set', found, shuffled⟩ := inner type _ _ parent set member
    exact ⟨outer, set', List.mem_cons_of_mem _ found, shuffled⟩

theorem selectionStops_inline (type : Option TypeRef) (parent : Option TypeDef)
    (inline : Ast.InlineFragment) : selectionStops schema type parent (.inline inline) =
      setStops schema none (match inline.typeCondition.map fun type => type.name.text with
        | some condition => ((schema.type? condition).filter TypeDef.isOutput).map fun type =>
            .named type.name
        | none => type.map fun type => .named type.innermost) inline.selectionSet := by
  obtain ⟨condition, _, _, _⟩ := inline
  cases condition <;> rw [selectionStops] <;> rfl

theorem Shuffled.kept (shuffled : Shuffled selections others) (type : Option TypeRef)
    (parent : Option TypeDef) : Kept (selectionsStops schema type parent selections)
      (selectionsStops schema type parent others) := by
  induction shuffled generalizing type parent with
  | same selections => exact .refl _
  | @field a b rest others same below _ inside ih =>
    obtain ⟨_, _, _, _, set, _⟩ := a
    obtain ⟨_, _, _, _, set', _⟩ := b
    have sets := same.sets
    have name := same.name
    dsimp only at sets name
    rw [selectionsStops, selectionsStops]
    refine Kept.append ?_ (ih type parent)
    cases set with
    | none =>
      rw [selectionStops]
      exact fun _ _ _ member => absurd member List.not_mem_nil
    | some set =>
      cases set' with
      | none => cases sets
      | some set' =>
        rw [selectionStops, selectionStops, name]
        exact Kept.set inside below none none _
  | spread _ _ ih =>
    rw [selectionsStops, selectionsStops, selectionStops, selectionStops]
    exact ih type parent
  | inline same below _ inside ih =>
    rw [selectionsStops, selectionsStops, selectionStops_inline, selectionStops_inline, same]
    exact (Kept.set inside below none none _).append (ih type parent)
  | swap a b rest =>
    simp only [selectionsStops, ← List.append_assoc]
    exact kept_of_subset (List.perm_append_comm.append_right _).subset
  | trans _ _ first second => exact (first type parent).trans (second type parent)

end Stops

section Documents
variable {schema : Schema} {selections others : List Selection} {field : Ast.Field}
  {definitions changed : List Definition}

/-- A field keeps its arguments. -/
theorem Shuffled.arguments (shuffled : Shuffled selections others)
    (has : Selection.HasField field selections) :
    ∃ node, Selection.HasField node others ∧
      field.arguments.map given = node.arguments.map given := by
  induction shuffled generalizing field with
  | same selections => exact ⟨field, has, rfl⟩
  | @field a b rest others same _ _ inside ih =>
    simp only [Selection.hasField_field] at has ⊢
    rcases has with rfl | has | has
    · exact ⟨b, .inl rfl, same.arguments⟩
    · obtain ⟨node, found, same⟩ := inside has
      exact ⟨node, .inr (.inl found), same⟩
    · obtain ⟨node, found, same⟩ := ih has
      exact ⟨node, .inr (.inr found), same⟩
  | spread _ _ ih =>
    simp only [Selection.hasField_spread] at has ⊢
    exact ih has
  | inline _ _ _ inside ih =>
    simp only [Selection.hasField_inline] at has ⊢
    rcases has with has | has
    · obtain ⟨node, found, same⟩ := inside has
      exact ⟨node, .inl found, same⟩
    · obtain ⟨node, found, same⟩ := ih has
      exact ⟨node, .inr found, same⟩
  | swap a b rest =>
    refine ⟨field, ?_, rfl⟩
    have two (c d : Selection) : Selection.HasField field (c :: d :: rest) ↔
        Selection.HasField field [c] ∨ Selection.HasField field [d] ∨
          Selection.HasField field rest := by
      exact Selection.hasField_cons.trans (or_congr_right Selection.hasField_cons)
    exact (two b a).2 (or_left_comm.1 ((two a b).1 has))
  | trans _ _ first second =>
    obtain ⟨node, has, same⟩ := first has
    obtain ⟨last, has, again⟩ := second has
    exact ⟨last, has, same.trans again⟩

theorem Rearranged.arguments (rearranged : Rearranged definitions changed)
    (has : ∃ definition ∈ definitions, Selection.HasField field definition.selections) :
    ∃ node, (∃ definition ∈ changed, Selection.HasField node definition.selections) ∧
      field.arguments.map given = node.arguments.map given := by
  induction rearranged generalizing field with
  | same definitions => exact ⟨field, has, rfl⟩
  | operation _ shuffled _ ih =>
    simp only [List.mem_cons, exists_eq_or_imp] at has ⊢
    rcases has with has | has
    · obtain ⟨node, found, same⟩ := shuffled.arguments has
      exact ⟨node, .inl found, same⟩
    · obtain ⟨node, found, same⟩ := ih has
      exact ⟨node, .inr found, same⟩
  | fragment same _ ih =>
    simp only [List.mem_cons, exists_eq_or_imp] at has ⊢
    rcases has with has | has
    · obtain ⟨node, found, same⟩ := same.selections.arguments has
      exact ⟨node, .inl found, same⟩
    · obtain ⟨node, found, same⟩ := ih has
      exact ⟨node, .inr found, same⟩
  | typeSystem a b _ ih =>
    simp only [List.mem_cons, exists_eq_or_imp] at has ⊢
    rcases has with has | has
    · exact absurd has Selection.hasField_nil
    · obtain ⟨node, found, same⟩ := ih has
      exact ⟨node, .inr found, same⟩
  | swap rest _ =>
    obtain ⟨definition, member, has⟩ := has
    exact ⟨field, ⟨definition, (List.Perm.swap _ _ rest).mem_iff.1 member, has⟩, rfl⟩
  | trans _ _ first second =>
    obtain ⟨node, has, same⟩ := first has
    obtain ⟨last, has, again⟩ := second has
    exact ⟨last, has, same.trans again⟩

/-- A name keeps its first fragment. -/
theorem Rearranged.named (rearranged : Rearranged definitions changed) {name : String}
    {f : FragmentDefinition}
    (found : named? (definitions.filterMap Definition.fragment?) name = some f) :
    ∃ g, named? (changed.filterMap Definition.fragment?) name = some g ∧ SameFragment f g := by
  induction rearranged generalizing f with
  | same definitions => exact ⟨f, found, .refl f⟩
  | operation _ _ _ ih => exact ih found
  | typeSystem _ _ _ ih => exact ih found
  | @fragment a b rest others same _ ih =>
    rw [List.filterMap_cons_some (by rfl), named?] at found
    rw [List.filterMap_cons_some (by rfl), named?]
    by_cases here : a.name.text = name
    · rw [List.find?_cons_of_pos (by simpa using here)] at found
      rw [same.name] at here
      rw [List.find?_cons_of_pos (by simpa using here)]
      exact ⟨b, rfl, Option.some.inj found ▸ same⟩
    · rw [List.find?_cons_of_neg (by simpa using here)] at found
      rw [same.name] at here
      rw [List.find?_cons_of_neg (by simpa using here)]
      exact ih found
  | @swap a b rest apart =>
    refine ⟨f, ?_, .refl f⟩
    rw [← found]
    cases left : a.fragment? with
    | none => simp [List.filterMap_cons, left]
    | some g =>
      cases right : b.fragment? with
      | none => simp [List.filterMap_cons, right]
      | some h =>
        have differ := apart g h left right
        simp only [List.filterMap_cons, left, right, named?, List.find?_cons]
        cases here : g.name.text == name with
        | false => cases h.name.text == name <;> rfl
        | true =>
          have away : (h.name.text == name) = false := by
            rw [beq_eq_false_iff_ne]
            exact fun there => differ ((eq_of_beq here).trans there.symm)
          rw [away]
  | trans _ _ first second =>
    obtain ⟨g, found, same⟩ := first found
    obtain ⟨h, found, again⟩ := second found
    exact ⟨h, found, same.trans again⟩

theorem Rearranged.stops (rearranged : Rearranged definitions changed) :
    Kept (definitions.flatMap (definitionStops schema))
      (changed.flatMap (definitionStops schema)) := by
  induction rearranged with
  | same definitions => exact .refl _
  | operation same shuffled _ ih =>
    rw [List.flatMap_cons, List.flatMap_cons, definitionStops, definitionStops, same]
    exact (Kept.set (fun type parent => shuffled.kept type parent) shuffled none none _).append ih
  | typeSystem _ _ _ ih => exact ih
  | @fragment f g rest others same _ ih =>
    have type : Scope.conditionType schema f.typeCondition =
        Scope.conditionType schema g.typeCondition := by
      rw [Scope.conditionType, Scope.conditionType, same.condition]
    rw [List.flatMap_cons, List.flatMap_cons, definitionStops, definitionStops, type, same.name]
    refine Kept.append (Kept.append (.refl [.fragment g.name.text]) ?_) ih
    exact Kept.set (fun type parent => same.selections.kept type parent) same.selections _ _ _
  | swap rest _ =>
    simp only [List.flatMap_cons, ← List.append_assoc]
    exact kept_of_subset (List.perm_append_comm.append_right _).subset
  | trans _ _ first second => exact first.trans second

end Documents

section Conflicts
variable {schema : Schema} {document other : Document}

theorem Rearranged.distinct (rearranged : Rearranged document.definitions other.definitions)
    (arguments : DistinctArguments document) : DistinctArguments other := by
  intro field member
  obtain ⟨node, has, same⟩ := rearranged.symm.arguments (Ast.Tree.field_mem_document other |>.1 member)
  have distinct := arguments node (Ast.Tree.field_mem_document document |>.2 has)
  have names (arguments : List Ast.Argument) : (arguments.map fun argument => argument.name.text) =
      (arguments.map given).map Prod.fst := by
    rw [List.map_map]
    rfl
  rw [names] at distinct ⊢
  rwa [same]

theorem Rearranged.spreads (rearranged : Rearranged document.definitions other.definitions)
    {outer inner : String} (spreads : SpreadsTo document outer inner) :
    SpreadsTo other outer inner := by
  obtain ⟨f, found, member⟩ := spreads
  obtain ⟨g, named, same⟩ := rearranged.named found
  rw [spreads_targets, same.selections.targets, ← spreads_targets] at member
  exact ⟨g, named, member⟩

theorem Rearranged.acyclic (rearranged : Rearranged document.definitions other.definitions)
    (acyclic : Acyclic document) : Acyclic other :=
  fun name cycle => acyclic name (cycle.lift id fun _ _ spreads => rearranged.symm.spreads spreads)

theorem spreadsOf_in (set : SelectionSet) : spreadsOf set = spreadsIn set.selections := by
  obtain ⟨_, _⟩ := set
  rw [spreadsOf]

theorem fieldsOf_in (parent : Option TypeDef) (set : SelectionSet) :
    fieldsOf schema parent set = fieldsIn schema parent set.selections := by
  obtain ⟨_, _⟩ := set
  rw [fieldsOf]

theorem Rearranged.stands (rearranged : Rearranged document.definitions other.definitions)
    {names others : List String} (subset : names ⊆ others) {f : FragmentDefinition}
    (stands : Stands document.fragments names f) :
    ∃ g, Stands other.fragments others g ∧ SameFragment f g := by
  induction stands with
  | spread member found =>
    obtain ⟨g, named, same⟩ := rearranged.named found
    exact ⟨g, .spread (subset member) named, same⟩
  | through _ member found ih =>
    obtain ⟨outer, before, shuffled⟩ := ih
    obtain ⟨g, named, same⟩ := rearranged.named found
    rw [spreadsOf_in, shuffled.selections.beside, ← spreadsOf_in] at member
    exact ⟨g, .through before member named, same⟩

theorem Rearranged.expands (rearranged : Rearranged document.definitions other.definitions)
    {parent : Option TypeDef} {s t : SelectionSet}
    (shuffled : Shuffled s.selections t.selections) {source : Option String}
    {fields : List Selected} (expands : Expands schema document parent s source fields) :
    ∃ changed, Expands schema other parent t source changed ∧ Paired fields changed := by
  cases expands with
  | own =>
    refine ⟨_, .own, ?_⟩
    rw [fieldsOf_in, fieldsOf_in]
    exact shuffled.fields parent
  | @spread f stands =>
    have subset : spreadsOf s ⊆ spreadsOf t := fun name => by
      rw [spreadsOf_in, spreadsOf_in]
      exact shuffled.beside.1
    obtain ⟨g, stands, same⟩ := rearranged.stands subset stands
    rw [same.name]
    refine ⟨_, .spread stands, ?_⟩
    rw [fragmentFields, fragmentFields, fieldsOf_in, fieldsOf_in, same.condition]
    exact same.selections.fields _

/-- Two nodes of two expansions are found again, apart if they were. -/
theorem Rearranged.nodes (rearranged : Rearranged document.definitions other.definitions)
    {p q : Option TypeDef} {s s' t t' : SelectionSet} (left : Shuffled s.selections s'.selections)
    (right : Shuffled t.selections t'.selections) {source target : Option String}
    {fields others : List Selected} (first : Expands schema document p s source fields)
    (second : Expands schema document q t target others) {x y : Selected} (member : x ∈ fields)
    (also : y ∈ others) (apart : Apart source target fields x y) :
    ∃ fields' others' x' y', Expands schema other p s' source fields' ∧
      Expands schema other q t' target others' ∧ x' ∈ fields' ∧ y' ∈ others' ∧
      Apart source target fields' x' y' ∧ Matched x x' ∧ Matched y y' := by
  obtain ⟨fields', expands, paired⟩ := rearranged.expands left first
  obtain ⟨others', again, matched⟩ := rearranged.expands right second
  by_cases known : source = none ∨ source ≠ target
  · obtain ⟨x', inside, same⟩ := paired.mem member
    obtain ⟨y', beside, alike⟩ := matched.mem also
    exact ⟨fields', others', x', y', expands, again, inside, beside, or_assoc.1 (.inl known), same,
      alike⟩
  · have below := (or_assoc.2 apart).resolve_left known
    obtain ⟨named, equal⟩ := not_or.1 known
    obtain ⟨name, rfl⟩ := Option.ne_none_iff_exists'.1 named
    obtain ⟨x', y', below, same, alike⟩ := paired.pair below
    have one := Classical.not_not.1 equal
    subst one
    refine ⟨fields', others', x', y', expands, again, below.subset (by simp), ?_,
      .inr (.inr below), same, alike⟩
    rw [← expands.same again]
    exact below.subset (by simp)

theorem Rearranged.conflicting (rearranged : Rearranged document.definitions other.definitions)
    {exclusive : Bool} {a b a' b' : Selected}
    (conflicting : Conflicting schema document exclusive a b) (left : Matched a a')
    (right : Matched b b') : Conflicting schema other exclusive a' b' := by
  induction conflicting generalizing a' b' with
  | names same differ =>
    rw [left.parent, right.parent] at same
    rw [left.node.name, right.node.name] at differ
    exact .names same differ
  | arguments same differ =>
    rw [left.parent, right.parent] at same
    rw [sameArguments_def, left.node.arguments, right.node.arguments, ← sameArguments_def] at differ
    exact .arguments same differ
  | types first second conflict =>
    rw [Selected.type, left.definition] at first
    rw [Selected.type, right.definition] at second
    exact .types first second conflict
  | @inside exclusive a b x y s t source target fields others hasFirst hasSecond first second member
      also apart key _ ih =>
    obtain ⟨s', again, shuffled⟩ := left.set hasFirst
    obtain ⟨t', anew, moved⟩ := right.set hasSecond
    rw [Selected.below, Selected.type, left.definition] at first
    rw [Selected.below, Selected.type, right.definition] at second
    obtain ⟨fields', others', x', y', expands, opens, inside, beside, apart, same, alike⟩ :=
      rearranged.nodes shuffled moved first second member also apart
    have deeper := ih same alike
    rw [left.parent, right.parent] at deeper
    exact .inside again anew expands opens inside beside apart
      (same.node.key.symm.trans (key.trans alike.node.key)) deeper

theorem Rearranged.setConflicts (rearranged : Rearranged document.definitions other.definitions)
    {parent : Option TypeDef} {s t : SelectionSet} (shuffled : Shuffled s.selections t.selections)
    (conflicts : SetConflicts schema document parent s) :
    SetConflicts schema other parent t := by
  obtain ⟨source, target, fields, others, x, y, first, second, member, also, apart, key,
    conflicting⟩ := conflicts
  by_cases same : source = target
  · obtain ⟨changed, expands, paired⟩ := rearranged.expands shuffled first
    obtain ⟨x', y', below, left, right⟩ :=
      paired.pair (apart.resolve_left fun differ => differ same)
    exact ⟨source, source, changed, changed, x', y', expands, expands, below.subset (by simp),
      below.subset (by simp), .inr below, left.node.key.symm.trans (key.trans right.node.key),
      rearranged.conflicting conflicting left right⟩
  · obtain ⟨fields', others', x', y', expands, again, inside, beside, _, left, right⟩ :=
      rearranged.nodes shuffled shuffled first second member also (.inr (.inl same))
    exact ⟨source, target, fields', others', x', y', expands, again, inside, beside, .inl same,
      left.node.key.symm.trans (key.trans right.node.key),
      rearranged.conflicting conflicting left right⟩

theorem Rearranged.conflicts (rearranged : Rearranged document.definitions other.definitions)
    (conflicts : PlainlyConflicts schema document) : PlainlyConflicts schema other := by
  obtain ⟨around, parent, set, stop, conflicts⟩ := conflicts
  obtain ⟨around', set', stop, shuffled⟩ := rearranged.stops around parent set stop
  exact ⟨around', parent, set', stop, rearranged.setConflicts shuffled conflicts⟩

end Conflicts
end GraphQL.Validation.Overlap
