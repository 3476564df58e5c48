import Mathlib.Logic.Basic
import GraphQL.Validation.Overlap.Expansion

/-! Which fragments stand beside fields: those that are spread there, and those that such a
fragment spreads beside its own fields. -/
namespace GraphQL.Validation.Overlap
open Ast (FragmentDefinition)

/-- The first fragment of a name. -/
def named? (fragments : List FragmentDefinition) (name : String) : Option FragmentDefinition :=
  fragments.find? fun fragment => fragment.name.text == name

/-- The fragments that stand beside fields through spreads of the given names. -/
inductive Stands (fragments : List FragmentDefinition) (names : List String) :
    FragmentDefinition → Prop
  | spread {name : String} {fragment : FragmentDefinition} : name ∈ names →
      named? fragments name = some fragment → Stands fragments names fragment
  | through {name : String} {outer fragment : FragmentDefinition} :
      Stands fragments names outer → name ∈ spreadsOf outer.selectionSet →
      named? fragments name = some fragment → Stands fragments names fragment

section Stands
variable {fragments others : List FragmentDefinition} {names : List String} {name : String}
  {fragment : FragmentDefinition}

theorem name_of_named? (found : named? fragments name = some fragment) :
    fragment.name.text = name := by
  simpa using List.find?_some found

theorem mem_of_named? (found : named? fragments name = some fragment) : fragment ∈ fragments :=
  List.mem_of_find?_eq_some found

theorem Stands.named (stands : Stands fragments names fragment) :
    named? fragments fragment.name.text = some fragment := by
  cases stands with
  | spread _ found => rwa [name_of_named? found]
  | through _ _ found => rwa [name_of_named? found]

theorem Stands.member (stands : Stands fragments names fragment) : fragment ∈ fragments :=
  mem_of_named? stands.named

theorem Stands.mono {more : List String} (stands : Stands fragments names fragment)
    (subset : names ⊆ more) : Stands fragments more fragment := by
  induction stands with
  | spread member found => exact .spread (subset member) found
  | through _ member found ih => exact .through ih member found

theorem stands_eraseDups :
    Stands fragments names.eraseDups fragment ↔ Stands fragments names fragment :=
  ⟨fun stands => stands.mono fun _ => List.mem_eraseDups.1,
    fun stands => stands.mono fun _ => List.mem_eraseDups.2⟩

theorem stands_nil : ¬ Stands fragments [] fragment := by
  intro stands
  induction stands with
  | spread member _ => cases member
  | through _ _ _ ih => exact ih

theorem stands_cons : Stands fragments (name :: names) fragment ↔
    Stands fragments [name] fragment ∨ Stands fragments names fragment := by
  constructor
  · intro stands
    induction stands with
    | spread member found =>
      rcases List.mem_cons.1 member with rfl | member
      · exact .inl (.spread List.mem_cons_self found)
      · exact .inr (.spread member found)
    | through _ member found ih =>
      exact ih.imp (.through · member found) (.through · member found)
  · rintro (stands | stands)
    · exact stands.mono (by simp)
    · exact stands.mono (List.subset_cons_self _ _)

theorem named?_filter (apart : ∀ other, other.name.text = name → keep other = true) :
    named? (fragments.filter keep) name = named? fragments name := by
  rw [named?, named?, List.find?_filter]
  congr
  funext other
  by_cases same : other.name.text = name
  · simp [same, apart other same]
  · simp [same]

theorem take?_eq_some (found : FragmentDefinition.take? fragments name = some (fragment, others)) :
    named? fragments name = some fragment ∧
      others = fragments.filter fun other => other.name.text != name := by
  obtain ⟨first, here, same⟩ := Option.map_eq_some_iff.1 found
  cases same
  exact ⟨here, rfl⟩

theorem named?_others {other : String} (apart : other ≠ name) :
    named? (fragments.filter fun fragment => fragment.name.text != name) other =
      named? fragments other := by
  apply named?_filter
  intro fragment same
  simp [same, apart]

/-- What remains of fragments: those of some names are gone. -/
def Remains (fragments left : List FragmentDefinition) : Prop :=
  ∀ name fragment, named? left name = some fragment → named? fragments name = some fragment

theorem named?_of_taken {other : String} {found : FragmentDefinition}
    (taken : FragmentDefinition.take? fragments name = some (fragment, others))
    (here : named? others other = some found) :
    other ≠ name ∧ named? fragments other = some found := by
  obtain ⟨-, rfl⟩ := take?_eq_some taken
  have apart : other ≠ name := by
    have kept := (List.mem_filter.1 (mem_of_named? here)).2
    rw [name_of_named? here] at kept
    exact bne_iff_ne.1 kept
  exact ⟨apart, named?_others apart ▸ here⟩

theorem remains_of_take? (taken : FragmentDefinition.take? fragments name = some (fragment, others)) :
    Remains fragments others :=
  fun _ _ here => (named?_of_taken taken here).2

/-- What a fragment spreads stands where the fragment stands. -/
theorem Stands.behind {inner : String} {outer : FragmentDefinition}
    (stands : Stands fragments [inner] fragment) (before : Stands fragments names outer)
    (spread : inner ∈ spreadsOf outer.selectionSet) : Stands fragments names fragment := by
  induction stands with
  | spread member found =>
    rw [List.mem_singleton.1 member] at found
    exact .through before spread found
  | through _ member found ih => exact .through ih member found

/-- The fragments that stand beside fields stand there through one of the names. -/
theorem Stands.one (stands : Stands fragments names fragment) :
    ∃ name ∈ names, Stands fragments [name] fragment := by
  induction names with
  | nil => exact absurd stands stands_nil
  | cons first rest ih =>
    rcases stands_cons.1 stands with stands | stands
    · exact ⟨first, List.mem_cons_self, stands⟩
    · obtain ⟨name, member, stands⟩ := ih stands
      exact ⟨name, List.mem_cons_of_mem _ member, stands⟩

/-- A fragment stands behind a name if it has it, or stands beside the fields of the one that
has it. -/
theorem Stands.first (stands : Stands fragments [name] fragment) :
    ∃ outer, named? fragments name = some outer ∧
      (fragment = outer ∨ Stands fragments (spreadsOf outer.selectionSet) fragment) := by
  induction stands with
  | spread member found =>
    rw [List.mem_singleton.1 member] at found
    exact ⟨_, found, .inl rfl⟩
  | through _ member found ih =>
    obtain ⟨outer, named, same | behind⟩ := ih
    · subst same
      exact ⟨_, named, .inr (.spread member found)⟩
    · exact ⟨outer, named, .inr (.through behind member found)⟩

theorem named?_keep (keep : String → Bool) {other : String}
    (found : named? (fragments.filter fun fragment => keep fragment.name.text) other =
      some fragment) : named? fragments other = some fragment := by
  have kept := (List.mem_filter.1 (mem_of_named? found)).2
  have called := name_of_named? found
  rwa [named?_filter] at found
  intro first same
  rw [same, ← called]
  exact kept

/-- Leaving out some names adds no fragments. -/
theorem Stands.keep (keep : String → Bool)
    (stands : Stands (fragments.filter fun fragment => keep fragment.name.text) names fragment) :
    Stands fragments names fragment := by
  induction stands with
  | spread member found => exact .spread member (named?_keep keep found)
  | through _ member found ih => exact .through ih member (named?_keep keep found)

/-- Leaving out names that do not stand there takes none away. -/
theorem Stands.kept (keep : String → Bool) (stands : Stands fragments names fragment)
    (all : ∀ other, Stands fragments names other → keep other.name.text = true) :
    Stands (fragments.filter fun fragment => keep fragment.name.text) names fragment := by
  have found (name : String) (other : FragmentDefinition) (found : named? fragments name = some other)
      (stands : Stands fragments names other) :
      named? (fragments.filter fun fragment => keep fragment.name.text) name = some other := by
    rwa [named?_filter]
    intro first same
    rw [same, ← name_of_named? found]
    exact all other stands
  induction stands with
  | spread member here => exact .spread member (found _ _ here (.spread member here))
  | through before member here ih => exact .through ih member (found _ _ here (.through before member here))

/-- What stands behind a fragment that is taken out stands there with it. -/
theorem Stands.expand {taken : FragmentDefinition} (found : named? fragments name = some taken)
    (stands : Stands (fragments.filter fun other => other.name.text != name)
      ((spreadsOf taken.selectionSet).eraseDups ++ names) fragment) :
    Stands fragments (name :: names) fragment := by
  induction stands with
  | spread member inside =>
    rcases List.mem_append.1 member with member | member
    · exact .through (.spread List.mem_cons_self found) (List.mem_eraseDups.1 member)
        (named?_keep (· != name) inside)
    · exact .spread (List.mem_cons_of_mem _ member) (named?_keep (· != name) inside)
  | through _ member inside ih => exact .through ih member (named?_keep (· != name) inside)

/-- A fragment that is taken out is not missed by the others. -/
theorem Stands.remove {taken : FragmentDefinition} (found : named? fragments name = some taken)
    (stands : Stands fragments (name :: names) fragment) (apart : fragment.name.text ≠ name) :
    Stands (fragments.filter fun other => other.name.text != name)
      ((spreadsOf taken.selectionSet).eraseDups ++ names) fragment := by
  induction stands with
  | spread member inside =>
    rw [name_of_named? inside] at apart
    have member := (List.mem_cons.1 member).resolve_left apart
    exact .spread (List.mem_append_right _ member) (by rwa [named?_others apart])
  | @through inner outer fragment stands member inside ih =>
    rw [name_of_named? inside] at apart
    have inside : named? (fragments.filter fun other => other.name.text != name) inner =
        some fragment := by rwa [named?_others apart]
    by_cases same : outer.name.text = name
    · have first := stands.named
      rw [same, found] at first
      cases first
      exact .spread (List.mem_append_left _ (List.mem_eraseDups.2 member)) inside
    · exact .through (ih same) member inside

theorem mem_beside (unmet : List FragmentDefinition) (names : List String) :
    fragment ∈ beside unmet names ↔ Stands unmet names fragment := by
  fun_induction beside unmet names with
  | case1 unmet =>
    exact ⟨fun member => absurd member List.not_mem_nil, fun stands => absurd stands stands_nil⟩
  | case2 unmet name rest found ih =>
    have missing : named? unmet name = none := by
      simpa [FragmentDefinition.take?, named?] using found
    rw [ih]
    constructor
    · exact fun stands => stands.mono (List.subset_cons_self _ _)
    · intro stands
      clear ih
      induction stands with
      | spread member here =>
        rcases List.mem_cons.1 member with rfl | member
        · rw [missing] at here
          cases here
        · exact .spread member here
      | through _ member here ih => exact .through ih member here
  | case3 unmet name rest taken others found ih =>
    obtain ⟨first, rfl⟩ := take?_eq_some found
    rw [List.mem_cons, ih]
    constructor
    · rintro (rfl | stands)
      · exact .spread List.mem_cons_self first
      · exact stands.expand first
    · intro stands
      by_cases same : fragment.name.text = name
      · have here := stands.named
        rw [same, first] at here
        cases here
        exact .inl rfl
      · exact .inr (stands.remove first same)

end Stands
end GraphQL.Validation.Overlap
