import Mathlib.Data.Finset.Card
import Mathlib.Data.Fintype.Defs
import GraphQL.Proofs.Ast.Written
import GraphQL.Proofs.Overlap.Inventory

/-! The plain rule: every selection set is expanded fully, through inline fragments and spreads,
and every two of its fields under one key are compared. Nothing is remembered. -/
namespace GraphQL.Validation.Overlap
open Ast (SelectionSet FragmentDefinition Document)

/-- The lists of fields that a set expands to: its own, which come without a name, and those
of each fragment that is spread in it, or in such a fragment beside its fields. -/
inductive Expands (schema : Schema) (document : Document) (parent : Option TypeDef)
    (set : SelectionSet) : Option String → List Selected → Prop
  | own : Expands schema document parent set none (fieldsOf schema parent set)
  | spread {fragment : FragmentDefinition} :
      Stands document.fragments (spreadsOf set) fragment →
      Expands schema document parent set (some fragment.name.text) (fragmentFields schema fragment)

/-- The same names with the same values, in any order. -/
def SameArguments (first second : List Ast.Argument) : Prop :=
  ∀ name value : String,
    (∃ argument ∈ first, argument.name.text = name ∧ argument.value.text = value) ↔
      ∃ argument ∈ second, argument.name.text = name ∧ argument.value.text = value

/-- Two fields of two sets are the same node only if both stand in one fragment, at one place. -/
def Apart (source other : Option String) (fields : List Selected) (x y : Selected) : Prop :=
  source = none ∨ source ≠ other ∨ [x, y].Subperm fields

/-- Two fields conflict. `exclusive` says that the fields around them stand on two different
object types. -/
inductive Conflicting (schema : Schema) (document : Document) : Bool → Selected → Selected → Prop
  | names {exclusive : Bool} {a b : Selected} :
      (exclusive || differentObjects a.parent b.parent) = false →
      a.node.name.text ≠ b.node.name.text → Conflicting schema document exclusive a b
  | arguments {exclusive : Bool} {a b : Selected} :
      (exclusive || differentObjects a.parent b.parent) = false →
      ¬ SameArguments a.node.arguments b.node.arguments → Conflicting schema document exclusive a b
  | types {exclusive : Bool} {a b : Selected} {s t : TypeRef} :
      a.type = some s → b.type = some t → typesConflict schema s t = true →
      Conflicting schema document exclusive a b
  | inside {exclusive : Bool} {a b x y : Selected} {s t : SelectionSet} {source other : Option String}
      {fields others : List Selected} :
      a.node.selectionSet = some s → b.node.selectionSet = some t →
      Expands schema document (a.below schema) s source fields →
      Expands schema document (b.below schema) t other others →
      x ∈ fields → y ∈ others → Apart source other fields x y → x.key = y.key →
      Conflicting schema document (exclusive || differentObjects a.parent b.parent) x y →
      Conflicting schema document exclusive a b

/-- The expansion of a set has two conflicting fields under one key. -/
def SetConflicts (schema : Schema) (document : Document) (parent : Option TypeDef)
    (set : SelectionSet) : Prop :=
  ∃ source other fields others x y,
    Expands schema document parent set source fields ∧
    Expands schema document parent set other others ∧
    x ∈ fields ∧ y ∈ others ∧ (source ≠ other ∨ [x, y].Subperm fields) ∧ x.key = y.key ∧
    Conflicting schema document false x y

/-- Some selection set of the document, with the type that it selects from, has two. -/
def PlainlyConflicts (schema : Schema) (document : Document) : Prop :=
  ∃ around parent set, .set around parent set ∈ documentStops schema document ∧
    SetConflicts schema document parent set

/-- No field repeats an argument name. -/
def DistinctArguments (document : Document) : Prop :=
  ∀ field, .field field ∈ (Ast.Node.document document).tree.preorder →
    (field.arguments.map fun argument => argument.name.text).Nodup

/-- A fragment spreads another one, at any depth. -/
def SpreadsTo (document : Document) (outer inner : String) : Prop :=
  ∃ fragment, document.fragment? outer = some fragment ∧
    inner ∈ fragment.selectionSet.spreads.map Ast.FragmentSpread.target

/-- No fragment spreads itself, directly or through others. -/
def Acyclic (document : Document) : Prop :=
  ∀ name, ¬ Relation.TransGen (SpreadsTo document) name name

end GraphQL.Validation.Overlap

/-! Where no fragment spreads itself, every fragment stands higher than those that it spreads. -/
namespace GraphQL.Validation.Overlap
open Ast (SelectionSet Selection FragmentSpread FragmentDefinition Document)
open Relation (TransGen)

/-- A height for each name, lower for what is spread. -/
def Graded (document : Document) (height : String → Nat) : Prop :=
  ∀ outer inner, SpreadsTo document outer inner → height inner < height outer

/-- Where names lead to names of a list, and no name leads back to itself, there is a height for each,
lower for what it leads to. -/
theorem exists_height {leads : String → String → Prop} (names : List String)
    (within : ∀ outer inner, leads outer inner → inner ∈ names)
    (acyclic : ∀ name, ¬ TransGen leads name name) :
    ∃ height : String → Nat, ∀ outer inner, leads outer inner → height inner < height outer := by
  classical
  let reached (name : String) := names.toFinset.filter (TransGen leads name)
  refine ⟨fun name => (reached name).card, fun outer inner step => ?_⟩
  apply Finset.card_lt_card
  rw [Finset.ssubset_iff_of_subset]
  · refine ⟨inner, Finset.mem_filter.2 ⟨List.mem_toFinset.2 (within outer inner step), .single step⟩, ?_⟩
    intro member
    exact acyclic inner (Finset.mem_filter.1 member).2
  · intro name member
    obtain ⟨known, reaches⟩ := Finset.mem_filter.1 member
    exact Finset.mem_filter.2 ⟨known, .head step reaches⟩

section Height
variable {document : Document}

theorem Acyclic.graded (acyclic : Acyclic document) : ∃ height, Graded document height := by
  refine exists_height (document.fragments.flatMap fun fragment =>
    fragment.selectionSet.spreads.map FragmentSpread.target) (fun outer inner spreads => ?_) acyclic
  obtain ⟨fragment, found, member⟩ := spreads
  exact List.mem_flatMap.2 ⟨fragment, mem_of_named? found, member⟩

mutual

/-- What stands beside fields is spread. -/
theorem spreadsOf_spreads {name : String} : (set : SelectionSet) → name ∈ spreadsOf set →
    name ∈ set.spreads.map FragmentSpread.target
  | ⟨selections, _⟩ => by
    intro member
    rw [spreadsOf] at member
    rw [SelectionSet.spreads, List.map_append, List.mem_append]
    exact spreadsIn_spreads selections member

theorem spreadsIn_spreads {name : String} : (selections : List Selection) →
    name ∈ spreadsIn selections →
      name ∈ (selections.filterMap Selection.spread?).map FragmentSpread.target ∨
      name ∈ (Selection.spreadsBelow selections).map FragmentSpread.target
  | [] => fun member => by
    rw [spreadsIn] at member
    cases member
  | selection :: rest => by
    intro member
    rw [spreadsIn] at member
    rw [Selection.spreadsBelow, List.map_append, List.mem_append]
    rcases List.mem_append.1 member with member | member
    · cases selection with
      | field _ =>
        rw [spreadsBy] at member
        cases member
      | spread spread =>
        rw [spreadsBy, List.mem_singleton] at member
        subst member
        exact .inl List.mem_cons_self
      | inline inline =>
        obtain ⟨_, _, set, _⟩ := inline
        rw [spreadsBy] at member
        exact .inr (.inr (spreadsOf_spreads set member))
    · rcases spreadsIn_spreads rest member with member | member
      · left
        obtain ⟨spread, inside, same⟩ := List.mem_map.1 member
        obtain ⟨other, known, found⟩ := List.mem_filterMap.1 inside
        exact List.mem_map.2 ⟨spread,
          List.mem_filterMap.2 ⟨other, List.mem_cons_of_mem _ known, found⟩, same⟩
      · exact .inr (.inl member)

end

theorem spreadsTo_of_mem {outer inner : String} {fragment : FragmentDefinition}
    (found : document.fragment? outer = some fragment)
    (member : inner ∈ spreadsOf fragment.selectionSet) : SpreadsTo document outer inner :=
  ⟨fragment, found, spreadsOf_spreads _ member⟩

variable {height : String → Nat} {fragment : FragmentDefinition}

/-- What stands behind a name is no higher. -/
theorem Graded.behind (graded : Graded document height) {name : String}
    (stands : Stands document.fragments [name] fragment) : height fragment.name.text ≤ height name := by
  induction stands with
  | spread member found =>
    rw [name_of_named? found, List.mem_singleton.1 member]
  | @through inner outer fragment before member found ih =>
    have lower := graded _ _ (spreadsTo_of_mem before.named member)
    rw [name_of_named? found]
    omega

/-- What stands beside the fields of a fragment is lower. -/
theorem Graded.beside (graded : Graded document height) {outer : String}
    {around : FragmentDefinition} (found : document.fragment? outer = some around)
    (stands : Stands document.fragments (spreadsOf around.selectionSet) fragment) :
    height fragment.name.text < height outer := by
  obtain ⟨name, member, behind⟩ := stands.one
  have lower := graded _ _ (spreadsTo_of_mem found member)
  have low := graded.behind behind
  omega

end Height
end GraphQL.Validation.Overlap
