import GraphQL.Proofs.Execution.Accepted
import GraphQL.Proofs.Execution.Occurrences
import GraphQL.Proofs.Overlap.Height

/-! Collecting fields and plain inlining. A spread that is inlined stands for all that its fragment
selects, however often it has been spread before; collecting opens each fragment once. What is
collected are the first occurrences of what inlining gives. -/
namespace GraphQL.Execution
open Ast (SelectionSet Selection FragmentDefinition)
open Validation.Overlap (named? named?_keep name_of_named? mem_of_named? spreadsOf take?_eq_some
  exists_height)

variable {τ : Type}

/-- Plain inlining: every spread is replaced by what its fragment selects, without any memory. -/
inductive Inlines (plan : Plan τ) (object : ObjectType) : List Mark → List Occurrence → Prop
  | nil : Inlines plan object [] []
  | field {occurrence : Occurrence} {rest : List Mark} {found : List Occurrence} :
      Inlines plan object rest found →
      Inlines plan object (.field occurrence :: rest) (occurrence :: found)
  | unknown {name : String} {rest : List Mark} {found : List Occurrence} :
      plan.fragment? name = none → Inlines plan object rest found →
      Inlines plan object (.spread name :: rest) found
  | spread {name : String} {fragment : FragmentDefinition} {rest : List Mark}
      {inside found : List Occurrence} : plan.fragment? name = some fragment →
      Inlines plan object (fragmentMarks plan object fragment) inside →
      Inlines plan object rest found → Inlines plan object (.spread name :: rest) (inside ++ found)

namespace Plan

/-- A fragment spreads another one beside its fields. What is spread inside a field is collected
later, at the objects of the field. -/
def SpreadsBeside (plan : Plan τ) (outer inner : String) : Prop :=
  ∃ fragment, plan.fragment? outer = some fragment ∧ inner ∈ spreadsOf fragment.selectionSet

/-- No fragment spreads itself beside its fields, directly or through others. -/
def Unwinds (plan : Plan τ) : Prop := ∀ name, ¬ Relation.TransGen plan.SpreadsBeside name name

end Plan

section Inlining
variable {plan : Plan τ} {object : ObjectType}

theorem Inlines.append {front back : List Mark} {found later : List Occurrence}
    (first : Inlines plan object front found) (second : Inlines plan object back later) :
    Inlines plan object (front ++ back) (found ++ later) := by
  induction first with
  | nil => exact second
  | field _ ih => exact .field ih
  | unknown missing _ ih => exact .unknown missing ih
  | spread here inside _ _ ih =>
    rw [List.append_assoc]
    exact .spread here inside ih

/-- Inlining has one result. -/
theorem Inlines.unique {marks : List Mark} {found other : List Occurrence}
    (first : Inlines plan object marks found) (second : Inlines plan object marks other) :
    other = found := by
  induction first generalizing other with
  | nil =>
    cases second
    rfl
  | field _ ih =>
    cases second with
    | field second => rw [ih second]
  | unknown missing _ ih =>
    cases second with
    | unknown _ second => exact ih second
    | spread here => 
      rw [missing] at here
      cases here
  | spread here _ _ within ih =>
    cases second with
    | unknown missing => 
      rw [missing] at here
      cases here
    | spread known inside second =>
      rw [here] at known
      cases known
      rw [within inside, ih second]

theorem Inlines.split {front back : List Mark} {all : List Occurrence}
    (inlines : Inlines plan object (front ++ back) all) : ∃ found later, all = found ++ later ∧
      Inlines plan object front found ∧ Inlines plan object back later := by
  induction front generalizing all with
  | nil => exact ⟨[], all, rfl, .nil, inlines⟩
  | cons mark rest ih =>
    cases inlines with
    | field inlines =>
      obtain ⟨found, later, rfl, first, second⟩ := ih inlines
      exact ⟨_, later, rfl, .field first, second⟩
    | unknown missing inlines =>
      obtain ⟨found, later, rfl, first, second⟩ := ih inlines
      exact ⟨found, later, rfl, .unknown missing first, second⟩
    | spread here inside inlines =>
      obtain ⟨found, later, rfl, first, second⟩ := ih inlines
      exact ⟨_, later, (List.append_assoc ..).symm, .spread here inside first, second⟩

/-- A height for each name, lower for what a fragment spreads beside its fields. -/
def Plan.Graded (plan : Plan τ) (height : String → Nat) : Prop :=
  ∀ outer inner, plan.SpreadsBeside outer inner → height inner < height outer

theorem Plan.Unwinds.graded (unwinds : plan.Unwinds) : ∃ height, plan.Graded height := by
  refine exists_height (plan.fragments.flatMap fun fragment => spreadsOf fragment.selectionSet)
    (fun outer inner spreads => ?_) unwinds
  obtain ⟨fragment, found, member⟩ := spreads
  exact List.mem_flatMap.2 ⟨fragment, List.mem_reverse.1 (mem_of_named? found), member⟩

theorem Plan.Graded.unwinds {height : String → Nat} (graded : plan.Graded height) :
    plan.Unwinds := by
  intro name around
  have lower {outer inner : String} (path : Relation.TransGen plan.SpreadsBeside outer inner) :
      height inner < height outer := by
    induction path with
    | single step => exact graded _ _ step
    | tail _ step ih => exact (graded _ _ step).trans ih
  exact absurd (lower around) (Nat.lt_irrefl _)

/-- What a fragment spreads for an object is lower than the fragment. -/
theorem Plan.Graded.lower {height : String → Nat} (graded : plan.Graded height)
    {name inner : String} {fragment : FragmentDefinition}
    (found : plan.fragment? name = some fragment)
    (member : .spread inner ∈ fragmentMarks plan object fragment) : height inner < height name := by
  refine graded name inner ⟨fragment, found, ?_⟩
  rw [fragmentMarks] at member
  split at member
  · have selects : .spread inner ∈ selected plan object fragment.selectionSet := by
      rw [← marks_selected plan object ⟨.fragment fragment.name.text, []⟩]
      exact List.mem_map.2 ⟨_, member, rfl⟩
    exact spread_seen _ selects
  · cases member

/-- Where fragments unwind, inlining comes to an end. -/
theorem Plan.Graded.inlines {height : String → Nat} (graded : plan.Graded height) (bound : Nat)
    (marks : List Mark) (below : ∀ name, .spread name ∈ marks → height name < bound) :
    ∃ found, Inlines plan object marks found := by
  induction bound using Nat.strong_induction_on generalizing marks with
  | h bound lower =>
    induction marks with
    | nil => exact ⟨[], .nil⟩
    | cons mark rest ih =>
      obtain ⟨found, inlines⟩ := ih fun name member => below name (List.mem_cons_of_mem _ member)
      cases mark with
      | field occurrence => exact ⟨_, .field inlines⟩
      | spread name =>
        cases here : plan.fragment? name with
        | none => exact ⟨found, .unknown here inlines⟩
        | some fragment =>
          obtain ⟨inside, opened⟩ := lower (height name) (below name List.mem_cons_self)
            (fragmentMarks plan object fragment) fun inner => graded.lower here
          exact ⟨_, .spread here opened inlines⟩

theorem Plan.Unwinds.inlines (unwinds : plan.Unwinds) (marks : List Mark) :
    ∃ found, Inlines plan object marks found := by
  obtain ⟨height, graded⟩ := unwinds.graded
  have bounded : ∃ bound, ∀ name, .spread name ∈ marks → height name < bound := by
    induction marks with
    | nil => exact ⟨0, fun name member => by cases member⟩
    | cons mark rest ih =>
      obtain ⟨bound, below⟩ := ih
      cases mark with
      | field occurrence =>
        refine ⟨bound, fun name member => ?_⟩
        rcases List.mem_cons.1 member with same | member
        · cases same
        · exact below name member
      | spread first =>
        refine ⟨bound + height first + 1, fun name member => ?_⟩
        rcases List.mem_cons.1 member with same | member
        · cases same
          omega
        · have := below name member
          omega
  obtain ⟨bound, below⟩ := bounded
  exact graded.inlines bound marks below

/-- A fragment that has been opened adds nothing more: all that it selects has been seen, or stands
at the front of what is still to come, where nothing spreads the fragment again. -/
def Covered (plan : Plan τ) (object : ObjectType) (height : String → Nat)
    (seen : List Occurrence) (marks : List Mark) (name : String) : Prop :=
  ∃ front back found, marks = front ++ back ∧ Inlines plan object front found ∧
    (∀ inner, .spread inner ∈ front → height inner < height name) ∧
    ∀ fragment inside, plan.fragment? name = some fragment →
      Inlines plan object (fragmentMarks plan object fragment) inside → inside ⊆ seen ++ found

section Covered
variable {height : String → Nat} {seen : List Occurrence} {rest : List Mark} {name other : String}

/-- A fragment is covered when all that it selects has been seen. -/
theorem covered_seen {marks : List Mark} (covers : ∀ fragment inside,
    plan.fragment? name = some fragment →
    Inlines plan object (fragmentMarks plan object fragment) inside → inside ⊆ seen) :
    Covered plan object height seen marks name :=
  ⟨[], marks, [], rfl, .nil, fun _ member => (by cases member),
    fun fragment inside here opened => by
    rw [List.append_nil]
    exact covers fragment inside here opened⟩

theorem Covered.field {occurrence : Occurrence}
    (covered : Covered plan object height seen (.field occurrence :: rest) name) :
    Covered plan object height (seen ++ [occurrence]) rest name := by
  obtain ⟨front, back, found, split, inlines, lower, covers⟩ := covered
  cases front with
  | nil =>
    cases inlines
    rw [List.append_nil] at covers
    exact covered_seen fun fragment inside here opened =>
      List.Subset.trans (covers fragment inside here opened) (List.subset_append_left _ _)
  | cons mark front =>
    cases split
    cases inlines with
    | @field _ _ found inlines =>
      refine ⟨front, back, found, rfl, inlines,
        fun inner member => lower inner (List.mem_cons_of_mem _ member),
        fun fragment inside here opened => ?_⟩
      rw [List.append_assoc]
      exact covers fragment inside here opened

/-- A spread that is passed over is the front's own, or stands behind it. -/
theorem Covered.passed (covered : Covered plan object height seen (.spread other :: rest) name)
    (passed : ∀ fragment inside, plan.fragment? other = some fragment →
      Inlines plan object (fragmentMarks plan object fragment) inside → inside ⊆ seen) :
    Covered plan object height seen rest name := by
  obtain ⟨front, back, found, split, inlines, lower, covers⟩ := covered
  cases front with
  | nil =>
    cases inlines
    rw [List.append_nil] at covers
    exact covered_seen covers
  | cons mark front =>
    cases split
    have lower (inner : String) (member : .spread inner ∈ front) :=
      lower inner (List.mem_cons_of_mem _ member)
    cases inlines with
    | unknown missing inlines => exact ⟨front, back, found, rfl, inlines, lower, covers⟩
    | @spread _ fragment _ opened found here inside inlines =>
      refine ⟨front, back, found, rfl, inlines, lower, fun outer all known within x member => ?_⟩
      have := covers outer all known within member
      have := @passed fragment opened here inside x
      simp only [List.mem_append] at *
      tauto

theorem Covered.opened {fragment : FragmentDefinition} (graded : plan.Graded height)
    (here : plan.fragment? other = some fragment)
    (covered : Covered plan object height seen (.spread other :: rest) name) :
    Covered plan object height seen (fragmentMarks plan object fragment ++ rest) name := by
  obtain ⟨front, back, found, split, inlines, lower, covers⟩ := covered
  cases front with
  | nil =>
    cases inlines
    rw [List.append_nil] at covers
    exact covered_seen covers
  | cons mark front =>
    cases split
    cases inlines with
    | unknown missing inlines =>
      rw [missing] at here
      cases here
    | @spread _ fragment _ opened found known inside inlines =>
      rw [known] at here
      cases here
      refine ⟨fragmentMarks plan object fragment ++ front, back, opened ++ found,
        (List.append_assoc ..).symm, inside.append inlines, fun inner member => ?_, covers⟩
      rcases List.mem_append.1 member with member | member
      · exact (graded.lower known member).trans (lower _ List.mem_cons_self)
      · exact lower inner (List.mem_cons_of_mem _ member)

/-- A fragment that is just opened is covered by what it selects. -/
theorem covered_self {fragment : FragmentDefinition} {inside : List Occurrence}
    (graded : plan.Graded height) (here : plan.fragment? name = some fragment)
    (opened : Inlines plan object (fragmentMarks plan object fragment) inside) :
    Covered plan object height seen (fragmentMarks plan object fragment ++ rest) name := by
  refine ⟨_, rest, inside, rfl, opened, fun inner => graded.lower here,
    fun known all found within => ?_⟩
  rw [here] at found
  cases found
  rw [opened.unique within]
  exact List.subset_append_right _ _

/-- When a fragment that is covered is spread again, all of it has been seen. -/
theorem Covered.exhausted (covered : Covered plan object height seen (.spread name :: rest) name)
    {fragment : FragmentDefinition} {inside : List Occurrence}
    (here : plan.fragment? name = some fragment)
    (opened : Inlines plan object (fragmentMarks plan object fragment) inside) : inside ⊆ seen := by
  obtain ⟨front, back, found, split, inlines, lower, covers⟩ := covered
  cases front with
  | nil =>
    cases inlines
    simpa using covers fragment inside here opened
  | cons mark front =>
    cases split
    exact absurd (lower name List.mem_cons_self) (Nat.lt_irrefl _)

end Covered

/-- What is discovered are the first occurrences of what inlining gives, as far as they are new. -/
theorem discover_inlines {height : String → Nat} (graded : plan.Graded height)
    (unopened : List FragmentDefinition) (marks : List Mark) (seen all : List Occurrence)
    (known : ∀ name fragment,
      named? unopened name = some fragment → plan.fragment? name = some fragment)
    (covered : ∀ name, named? unopened name = none → Covered plan object height seen marks name)
    (apart : (seen ++ discover plan object unopened marks).Nodup)
    (inlines : Inlines plan object marks all) :
    discover plan object unopened marks = (all.filter (· ∉ seen)).eraseDups := by
  fun_induction discover plan object unopened marks generalizing seen all with
  | case1 unopened =>
    cases inlines
    rfl
  | case2 unopened first rest ih =>
    cases inlines with
    | @field _ _ found inlines =>
      have new : first ∉ seen := fun again =>
        (List.nodup_append.1 apart).2.2 first again first List.mem_cons_self rfl
      rw [ih (seen ++ [first]) found known (fun name gone => (covered name gone).field)
        (by rwa [List.append_assoc]) inlines]
      rw [List.filter_cons_of_pos (by simpa using new), List.eraseDups_cons, List.filter_filter]
      congr 3
      funext occurrence
      by_cases same : occurrence = first <;> simp [same]
  | case3 unopened name rest missing ih =>
    have gone : named? unopened name = none := Option.map_eq_none_iff.1 missing
    have passed (fragment : FragmentDefinition) (inside : List Occurrence)
        (here : plan.fragment? name = some fragment)
        (opened : Inlines plan object (fragmentMarks plan object fragment) inside) :
        inside ⊆ seen :=
      (covered name gone).exhausted here opened
    have again (found : List Occurrence) := ih seen found known
      (fun other gone => (covered other gone).passed passed) apart
    cases inlines with
    | unknown _ inlines => exact again _ inlines
    | @spread _ fragment _ inside found here opened inlines =>
      have none_new : inside.filter (· ∉ seen) = [] :=
        List.filter_eq_nil_iff.2 fun occurrence member => by
          simpa using passed fragment inside here opened member
      rw [again found inlines, List.filter_append, none_new, List.nil_append]
  | case4 unopened name rest fragment others taken ih =>
    obtain ⟨found, rfl⟩ := take?_eq_some taken
    have here := known name fragment found
    cases inlines with
    | unknown missing =>
      rw [here] at missing
      cases missing
    | @spread _ _ _ inside later same opened inlines =>
      rw [here] at same
      cases same
      refine ih seen _ (fun other late below => known other late (named?_keep (· != name) below))
        (fun other gone => ?_) apart (opened.append inlines)
      rw [named?_without] at gone
      split at gone
      · rename_i same
        subst same
        exact covered_self graded here opened
      · exact (covered other gone).opened graded here

/-- Collecting fields is plain inlining with the first occurrences kept. -/
theorem collect_inlines (plan : Plan τ) (object : ObjectType) (sets : List SelectionSet) :
    plan.collect object sets =
        Groups.ofList Ast.Field.responseKey ((plan.occurrences object sets).map Occurrence.node) ∧
      ((plan.occurrences object sets).map Occurrence.place).Nodup ∧
      (∀ occurrence ∈ plan.occurrences object sets,
        plan.nodeAt? sets occurrence.place = some occurrence.node) ∧
      (plan.Unwinds → (∃ inlined, Inlines plan object (plan.marksOf object sets) inlined) ∧
        ∀ inlined, Inlines plan object (plan.marksOf object sets) inlined →
          plan.occurrences object sets = inlined.eraseDups) := by
  have apart := discover_apart plan object _ _ (marksOf_fresh plan object sets)
  refine ⟨collect_occurrences plan object sets, apart, fun _ => occurrences_stand plan object sets,
    fun unwinds => ⟨unwinds.inlines _, fun inlined inlines => ?_⟩⟩
  obtain ⟨height, graded⟩ := unwinds.graded
  have nothing := discover_inlines graded plan.fragments.reverse
    (plan.marksOf object sets) [] inlined (fun _ _ => id)
    (fun name gone => covered_seen fun fragment _ here => by
      rw [Plan.fragment?, gone] at here
      cases here) (List.Nodup.of_map _ apart) inlines
  rw [Plan.occurrences, nothing]
  simp

section Pets

/-- Selects the name of a dog, and whatever the other fragment selects. -/
def namedFragment : FragmentDefinition :=
  ⟨⟨"Named", none⟩, ⟨⟨"Dog", none⟩, none⟩, [],
    ⟨[.field petName, .spread ⟨⟨"Befriended", none⟩, [], none⟩], none⟩, none⟩

def befriendedFragment : FragmentDefinition :=
  ⟨⟨"Befriended", none⟩, ⟨⟨"Pet", none⟩, none⟩, [],
    ⟨[.field (petFriend ⟨[.field petName], none⟩), .field petName], none⟩, none⟩

/-- Both fragments are spread, the second one a second time. -/
def sharedSets : List SelectionSet :=
  [⟨[.spread ⟨⟨"Named", none⟩, [], none⟩, .spread ⟨⟨"Befriended", none⟩, [], none⟩], none⟩]

def sharedPlan : Plan Empty := { petPlan with fragments := [namedFragment, befriendedFragment] }

theorem sharedPlan_unwinds : sharedPlan.Unwinds := by
  have graded : sharedPlan.Graded fun name => if name = "Named" then 1 else 0 := by
    rintro outer inner ⟨fragment, found, member⟩
    have known : fragment = befriendedFragment ∨ fragment = namedFragment := by
      simpa [sharedPlan] using mem_of_named? found
    have called := name_of_named? found
    rcases known with rfl | rfl
    · have nothing : spreadsOf befriendedFragment.selectionSet = [] := by cbv
      rw [nothing] at member
      cases member
    · have one : spreadsOf namedFragment.selectionSet = ["Befriended"] := by cbv
      rw [one, List.mem_singleton] at member
      subst member called
      decide
  exact graded.unwinds

def befriendedFields : List Occurrence :=
  [⟨⟨.fragment "Befriended", [0]⟩, petFriend ⟨[.field petName], none⟩⟩,
    ⟨⟨.fragment "Befriended", [1]⟩, petName⟩]

theorem sharedPlan_inlines : Inlines sharedPlan dogType (sharedPlan.marksOf dogType sharedSets)
    (⟨⟨.fragment "Named", [0]⟩, petName⟩ :: befriendedFields ++ befriendedFields) := by
  have sets : sharedPlan.marksOf dogType sharedSets =
    [.spread "Named", .spread "Befriended"] := by cbv
  have named : fragmentMarks sharedPlan dogType namedFragment =
    [.field ⟨⟨.fragment "Named", [0]⟩, petName⟩, .spread "Befriended"] := by cbv
  have befriended : fragmentMarks sharedPlan dogType befriendedFragment =
    befriendedFields.map .field := by cbv
  have inside : Inlines sharedPlan dogType (fragmentMarks sharedPlan dogType befriendedFragment)
      befriendedFields := by
    rw [befriended]
    exact .field (.field .nil)
  have spread : Inlines sharedPlan dogType [.spread "Befriended"] befriendedFields :=
    .spread rfl inside .nil
  rw [sets]
  refine .spread (show sharedPlan.fragment? "Named" = some namedFragment from rfl) ?_ spread
  rw [named]
  exact .field spread

/-- The second fragment is inlined twice, and its fields are collected once. -/
theorem collect_inlines_shared : sharedPlan.Unwinds ∧
    sharedPlan.collect dogType sharedSets =
      [("name", [petName, petName]), ("friend", [petFriend ⟨[.field petName], none⟩])] := by
  obtain ⟨collected, _, _, inlined⟩ := collect_inlines sharedPlan dogType sharedSets
  rw [collected, (inlined sharedPlan_unwinds).2 _ sharedPlan_inlines]
  exact ⟨sharedPlan_unwinds, by cbv⟩

end Pets

end Inlining
end GraphQL.Execution
