import Mathlib.Logic.Relation
import Mathlib.Data.Finset.Prod
import Mathlib.Data.Fintype.Card
import Mathlib.Tactic.Ring
import GraphQL.Proofs.Overlap.Comparison

/-! When the search for conflicts comes to an end. It does unless a comparison of two fields
leads, through comparisons of fields alone, back to itself. -/
namespace GraphQL.Validation.Overlap
open Ast (Document)
open Relation (TransGen)

def Comparison.isFields : Comparison → Bool
  | fields _ _ _ _ => true
  | fragments _ _ _ => false

section Relations
variable (schema : Schema) (document : Document)

/-- The comparisons, made one after the other from a memory, end with these conflicts and
this memory. -/
inductive Ends : List Comparison → Compared → List Conflict → Compared → Prop
  | done (compared : Compared) : Ends [] compared [] compared
  | skipped {comparison : Comparison} {rest : List Comparison} {compared last : Compared}
      {found : List Conflict} : comparison.skips compared = true →
      Ends rest compared found last → Ends (comparison :: rest) compared found last
  | made {comparison : Comparison} {rest : List Comparison} {compared middle last : Compared}
      {inside others : List Conflict} : comparison.skips compared = false →
      Ends (comparison.parts schema document) (comparison.noted compared) inside middle →
      Ends rest middle others last →
      Ends (comparison :: rest) compared (comparison.answer schema inside ++ others) last

/-- The comparisons, made one after the other from a memory, come to make this one. -/
inductive Makes : List Comparison → Compared → Comparison → Prop
  | here {comparison : Comparison} {rest : List Comparison} {compared : Compared} :
      comparison.skips compared = false → Makes (comparison :: rest) compared comparison
  | inside {comparison made : Comparison} {rest : List Comparison} {compared : Compared} :
      comparison.skips compared = false →
      Makes (comparison.parts schema document) (comparison.noted compared) made →
      Makes (comparison :: rest) compared made
  | later {comparison made : Comparison} {rest : List Comparison} {compared middle : Compared}
      {found : List Conflict} : Ends schema document [comparison] compared found middle →
      Makes rest middle made → Makes (comparison :: rest) compared made

/-- A comparison of fields makes another one. -/
def Nests (outer inner : Comparison) : Prop :=
  outer.isFields = true ∧ inner.isFields = true ∧ inner ∈ outer.parts schema document

/-- A comparison of fields leads to itself through comparisons of fields. -/
def Circular (comparison : Comparison) : Prop := TransGen (Nests schema document) comparison comparison

end Relations

section Runs
variable {schema : Schema} {document : Document}

theorem runAll_cons (fuel : Nat) (comparison : Comparison) (rest : List Comparison)
    (compared : Compared) : runAll schema document fuel (comparison :: rest) compared =
      (comparison.run schema document fuel compared).bind fun first =>
        (runAll schema document fuel rest first.2).map fun others =>
          (first.1 ++ others.1, others.2) := by
  rw [runAll, forEach, search_bind]
  congr
  funext first
  rw [search_bind, Option.map_eq_bind]
  rfl

theorem run_zero (comparison : Comparison) (compared : Compared) :
    comparison.run schema document 0 compared = none := by
  cases comparison with
  | fields exclusive key a b => rw [Comparison.run, conflict]; rfl
  | fragments exclusive a b => rw [Comparison.run, fragments]; rfl

theorem run_skipped {comparison : Comparison} {compared : Compared}
    (skips : comparison.skips compared = true) (fuel : Nat) :
    comparison.run schema document (fuel + 1) compared = some ([], compared) := by
  rw [run_succ, if_pos skips]

theorem run_made {comparison : Comparison} {compared : Compared}
    (skips : comparison.skips compared = false) (fuel : Nat) :
    comparison.run schema document (fuel + 1) compared =
      (runAll schema document fuel (comparison.parts schema document)
        (comparison.noted compared)).map fun outcome =>
          (comparison.answer schema outcome.1, outcome.2) := by
  rw [run_succ, if_neg (by simp [skips])]

/-- What a search with fuel answers is how the comparisons end. -/
theorem ends_of_runAll (fuel : Nat) (comparisons : List Comparison) {compared last : Compared}
    {found : List Conflict}
    (run : runAll schema document fuel comparisons compared = some (found, last)) :
    Ends schema document comparisons compared found last := by
  induction fuel generalizing comparisons compared last found with
  | zero =>
    cases comparisons with
    | nil =>
      cases run
      exact .done compared
    | cons comparison rest =>
      rw [runAll_cons, run_zero] at run
      cases run
  | succ fuel inner =>
    induction comparisons generalizing compared last found with
    | nil =>
      cases run
      exact .done compared
    | cons comparison rest ih =>
      rw [runAll_cons] at run
      obtain ⟨⟨first, middle⟩, here, run⟩ := Option.bind_eq_some_iff.1 run
      obtain ⟨⟨others, last⟩, later, same⟩ := Option.map_eq_some_iff.1 run
      cases same
      cases skips : comparison.skips compared with
      | true =>
        rw [run_skipped skips] at here
        cases here
        exact .skipped skips (ih later)
      | false =>
        rw [run_made skips] at here
        obtain ⟨⟨inside, _⟩, parts, same⟩ := Option.map_eq_some_iff.1 here
        cases same
        exact .made skips (inner _ parts) (ih later)

/-- Comparisons that end do so with any fuel from some on. -/
theorem Ends.runAll {comparisons : List Comparison} {compared last : Compared}
    {found : List Conflict} (ends : Ends schema document comparisons compared found last) :
    ∃ enough, ∀ fuel ≥ enough,
      runAll schema document fuel comparisons compared = some (found, last) := by
  induction ends with
  | done compared => exact ⟨0, fun _ _ => rfl⟩
  | skipped skips _ ih =>
    obtain ⟨enough, later⟩ := ih
    refine ⟨enough + 1, fun fuel more => ?_⟩
    obtain ⟨fuel, rfl⟩ := Nat.exists_eq_add_of_le' (Nat.le_of_add_left_le more)
    rw [runAll_cons, run_skipped skips, Option.bind_some, later _ (by omega)]
    rfl
  | made skips _ _ inside later =>
    obtain ⟨enough, inside⟩ := inside
    obtain ⟨enough', later⟩ := later
    refine ⟨max enough enough' + 1, fun fuel more => ?_⟩
    obtain ⟨fuel, rfl⟩ := Nat.exists_eq_add_of_le' (Nat.le_of_add_left_le more)
    rw [runAll_cons, run_made skips, inside _ (by omega), Option.map_some, Option.bind_some,
      later _ (by omega)]
    rfl

theorem Ends.unique {comparisons : List Comparison} {compared last last' : Compared}
    {found found' : List Conflict} (ends : Ends schema document comparisons compared found last)
    (others : Ends schema document comparisons compared found' last') :
    found = found' ∧ last = last' := by
  obtain ⟨enough, run⟩ := ends.runAll
  obtain ⟨enough', run'⟩ := others.runAll
  have same := (run (max enough enough') (by omega)).symm.trans (run' _ (by omega))
  cases same
  exact ⟨rfl, rfl⟩

theorem Comparison.skips_fields {comparison : Comparison} (fields : comparison.isFields = true)
    (compared : Compared) : comparison.skips compared = false := by
  cases comparison with
  | fields exclusive key a b => rfl
  | fragments exclusive a b => cases fields

/-- Comparisons of fields are all made. -/
theorem Ends.makes {comparisons : List Comparison} {compared last : Compared}
    {found : List Conflict} (ends : Ends schema document comparisons compared found last)
    {comparison : Comparison} (member : comparison ∈ comparisons)
    (fields : comparison.isFields = true) : Makes schema document comparisons compared comparison := by
  induction ends with
  | done compared => cases member
  | @skipped head rest compared last found skips later ih =>
    cases member with
    | head => exact .here (Comparison.skips_fields fields _)
    | tail _ member => exact .later (.skipped skips (.done _)) (ih member)
  | made skips inside later _ ih =>
    cases member with
    | head => exact .here skips
    | tail _ member => exact .later (.made skips inside (.done _)) (ih member)

/-- Where comparisons end, every comparison of fields that they make ends. -/
theorem Ends.acc {comparisons : List Comparison} {compared last : Compared}
    {found : List Conflict} (ends : Ends schema document comparisons compared found last)
    {comparison : Comparison} (makes : Makes schema document comparisons compared comparison) :
    Acc (fun inner outer => Nests schema document outer inner) comparison := by
  induction ends generalizing comparison with
  | done compared => cases makes
  | skipped skips later ih =>
    cases makes with
    | here open_ => simp_all
    | inside open_ _ => simp_all
    | later first makes =>
      obtain ⟨-, rfl⟩ := first.unique (.skipped skips (.done _))
      exact ih makes
  | made skips inside later inner ih =>
    cases makes with
    | here _ =>
      refine Acc.intro _ fun part nested => ?_
      exact inner (inside.makes nested.2.2 nested.2.1)
    | inside _ makes => exact inner makes
    | later first makes =>
      obtain ⟨-, rfl⟩ := first.unique (.made skips inside (.done _))
      exact ih makes

theorem Ends.not_circular {comparisons : List Comparison} {compared last : Compared}
    {found : List Conflict} (ends : Ends schema document comparisons compared found last)
    {comparison : Comparison} (makes : Makes schema document comparisons compared comparison) :
    ¬ Circular schema document comparison := by
  intro circular
  have ending := (ends.acc makes).transGen
  have back : TransGen (fun inner outer => Nests schema document outer inner) comparison
      comparison := Relation.transGen_swap.2 circular
  clear makes circular
  induction ending with
  | intro comparison _ ih => exact ih comparison back back

end Runs
end GraphQL.Validation.Overlap

/-! How much fuel the search needs. Each pair of fragments is compared at most once under
either kind of parents, and between two such comparisons no two fields meet twice. -/
namespace GraphQL.Validation.Overlap
open Ast (Document)
open Relation (TransGen)

section Memory

theorem Pair.joins_comm (pair : Pair) (a b : String) : pair.joins a b = pair.joins b a :=
  Bool.or_comm _ _

theorem Compared.covers_comm (compared : Compared) (a b : String) (exclusive : Bool) :
    compared.covers a b exclusive = compared.covers b a exclusive := by
  unfold Compared.covers
  congr
  funext pair
  rw [pair.joins_comm]

theorem Compared.covers_add (compared : Compared) (a b : String) (exclusive : Bool) :
    (compared.add a b exclusive).covers a b exclusive = true := by
  simp [Compared.covers, Compared.add, Pair.joins]

/-- One memory covers at least what another one covers. -/
def Compared.Extends (later earlier : Compared) : Prop :=
  ∀ a b exclusive, earlier.covers a b exclusive = true → later.covers a b exclusive = true

theorem Compared.Extends.refl (compared : Compared) : compared.Extends compared :=
  fun _ _ _ covered => covered

theorem Compared.Extends.trans {first second third : Compared} (later : third.Extends second)
    (earlier : second.Extends first) : third.Extends first :=
  fun a b exclusive covered => later a b exclusive (earlier a b exclusive covered)

theorem Comparison.noted_extends (comparison : Comparison) (compared : Compared) :
    (comparison.noted compared).Extends compared := by
  cases comparison with
  | fields exclusive key a b => exact .refl compared
  | fragments exclusive a b =>
    intro c d exclusive' covered
    rw [Comparison.noted, Compared.add, Compared.covers, List.any_cons, Bool.or_eq_true]
    exact .inr covered

/-- Nothing is forgotten. -/
theorem Ends.extends {schema : Schema} {document : Document} {comparisons : List Comparison}
    {compared last : Compared} {found : List Conflict}
    (ends : Ends schema document comparisons compared found last) : last.Extends compared := by
  induction ends with
  | done compared => exact .refl compared
  | skipped _ _ ih => exact ih
  | made _ _ _ inside later =>
    exact later.trans (inside.trans (Comparison.noted_extends _ _))

/-- How many comparisons of these fragments, counted in both orders, are not covered. -/
def room (names : Finset String) (compared : Compared) : Nat :=
  ((names ×ˢ names ×ˢ (Finset.univ : Finset Bool)).filter fun pair =>
    compared.covers pair.1 pair.2.1 pair.2.2 = false).card

theorem room_le (names : Finset String) (compared : Compared) :
    room names compared ≤ 2 * (names.card * names.card) := by
  have bound := Finset.card_filter_le (names ×ˢ names ×ˢ (Finset.univ : Finset Bool)) fun pair =>
    compared.covers pair.1 pair.2.1 pair.2.2 = false
  rw [Finset.card_product, Finset.card_product, Finset.card_univ, Fintype.card_bool] at bound
  have regroup : names.card * (names.card * 2) = 2 * (names.card * names.card) := by ring
  exact regroup ▸ bound

theorem room_mono (names : Finset String) {earlier later : Compared}
    (more : later.Extends earlier) : room names later ≤ room names earlier := by
  apply Finset.card_le_card
  intro pair member
  obtain ⟨inside, uncovered⟩ := Finset.mem_filter.1 member
  refine Finset.mem_filter.2 ⟨inside, ?_⟩
  by_contra covered
  rw [more _ _ _ (Bool.not_eq_false _ ▸ covered)] at uncovered
  cases uncovered

/-- Comparing two fragments takes away both orders of the pair. -/
theorem room_add {names : Finset String} {compared : Compared} {a b : String} {exclusive : Bool}
    (first : a ∈ names) (second : b ∈ names) (different : a ≠ b)
    (uncovered : compared.covers a b exclusive = false) :
    room names (compared.add a b exclusive) + 2 ≤ room names compared := by
  let left := (names ×ˢ names ×ˢ (Finset.univ : Finset Bool)).filter fun pair =>
    (compared.add a b exclusive).covers pair.1 pair.2.1 pair.2.2 = false
  have covered : (compared.add a b exclusive).covers a b exclusive = true :=
    Compared.covers_add compared a b exclusive
  have here : (a, b, exclusive) ∉ left := by
    intro member
    simp [left, covered] at member
  have there : (b, a, exclusive) ∉ insert (a, b, exclusive) left := by
    rw [Finset.mem_insert, not_or]
    constructor
    · intro same
      exact different (congrArg Prod.fst same).symm
    · intro member
      rw [Compared.covers_comm] at covered
      simp [left, covered] at member
  have grown : (insert (b, a, exclusive) (insert (a, b, exclusive) left)).card = left.card + 2 := by
    rw [Finset.card_insert_of_notMem there, Finset.card_insert_of_notMem here]
  change left.card + 2 ≤ room names compared
  rw [← grown]
  apply Finset.card_le_card
  intro pair member
  rw [Finset.mem_insert, Finset.mem_insert] at member
  obtain rfl | rfl | member := member
  · rw [Compared.covers_comm] at uncovered
    simp [first, second, uncovered]
  · simp [first, second, uncovered]
  · obtain ⟨inside, open_⟩ := Finset.mem_filter.1 member
    refine Finset.mem_filter.2 ⟨inside, ?_⟩
    by_contra covered
    have kept := Comparison.noted_extends (.fragments exclusive a b) compared _ _ _
      (Bool.not_eq_false _ ▸ covered)
    rw [Comparison.noted, open_] at kept
    cases kept

end Memory

section Bound
variable {schema : Schema} {document : Document} {known : List Comparison}

theorem parts_unknown {a b : String} {exclusive : Bool}
    (part : (Comparison.fragments exclusive a b).parts schema document ≠ []) :
    (document.fragment? a).isSome = true ∧ (document.fragment? b).isSome = true := by
  rw [Comparison.parts] at part
  cases first : document.fragment? a with
  | none => simp [first] at part
  | some f =>
    cases second : document.fragment? b with
    | none => simp [first, second] at part
    | some g => exact ⟨rfl, rfl⟩

/-- Fuel that suffices for comparisons among known ones. The trail holds the comparisons of
fields that led here since fragments were compared last. -/
def Enough (names : Finset String) (known trail : List Comparison) (compared : Compared)
    (fuel : Nat) : Prop :=
  room names compared * (known.length + 1) + 2 * (known.length - trail.length) + 2 ≤ 2 * fuel

theorem Enough.nested {names : Finset String} {trail : List Comparison} {compared : Compared}
    {fuel : Nat} (enough : Enough names known trail compared (fuel + 1))
    (fewer : trail.length < known.length) (comparison : Comparison) :
    Enough names known (comparison :: trail) compared fuel := by
  unfold Enough at enough ⊢
  rw [List.length_cons]
  omega

/-- After two more fragments have been compared the trail starts anew. -/
theorem Enough.anew {names : Finset String} {trail : List Comparison}
    {compared noted : Compared} {fuel : Nat} (enough : Enough names known trail compared (fuel + 1))
    (less : room names noted + 2 ≤ room names compared) : Enough names known [] noted fuel := by
  unfold Enough at enough ⊢
  have product := Nat.mul_le_mul_right (known.length + 1) less
  rw [Nat.add_mul] at product
  rw [List.length_nil]
  omega

theorem Enough.kept {names : Finset String} {trail : List Comparison} {earlier later : Compared}
    {fuel : Nat} (enough : Enough names known trail earlier fuel) (more : later.Extends earlier) :
    Enough names known trail later fuel := by
  have product := Nat.mul_le_mul_right (known.length + 1) (room_mono names more)
  unfold Enough at enough ⊢
  omega

/-- The comparisons of fields are known ones. -/
def Known (known comparisons : List Comparison) : Prop :=
  ∀ comparison ∈ comparisons, comparison.isFields = true → comparison ∈ known

/-- The trail leads to the comparisons of fields. -/
def Leads (schema : Schema) (document : Document) (trail comparisons : List Comparison) : Prop :=
  ∀ comparison ∈ comparisons, comparison.isFields = true →
    ∀ earlier ∈ trail, TransGen (Nests schema document) earlier comparison

theorem Leads.nested {trail : List Comparison} {comparison : Comparison}
    (leads : ∀ earlier ∈ trail, TransGen (Nests schema document) earlier comparison)
    (fields : comparison.isFields = true) :
    Leads schema document (comparison :: trail) (comparison.parts schema document) := by
  intro part member partFields earlier onTrail
  have step : Nests schema document comparison part := ⟨fields, partFields, member⟩
  cases onTrail with
  | head => exact .single step
  | tail _ onTrail => exact (leads earlier onTrail).tail step

/-- The comparisons are made with this fuel. -/
def Suffices (schema : Schema) (document : Document) (fuel : Nat) (comparisons : List Comparison)
    (compared : Compared) : Prop :=
  ∃ found last, runAll schema document fuel comparisons compared = some (found, last)

/-- A list of comparisons needs no more fuel than each of them. -/
theorem suffices_each {fuel : Nat} {comparisons : List Comparison} {start : Compared}
    (each : ∀ comparison ∈ comparisons, ∀ compared : Compared, compared.Extends start →
      comparison.skips compared = false →
      (∀ made, Makes schema document (comparison.parts schema document) (comparison.noted compared)
        made → Makes schema document comparisons start made) →
      Makes schema document comparisons start comparison →
      Suffices schema document fuel (comparison.parts schema document)
        (comparison.noted compared)) :
    Suffices schema document (fuel + 1) comparisons start := by
  induction comparisons generalizing start with
  | nil => exact ⟨[], start, rfl⟩
  | cons comparison rest ih =>
    have first : ∃ found middle, comparison.run schema document (fuel + 1) start =
        some (found, middle) := by
      cases skips : comparison.skips start with
      | true => exact ⟨_, _, run_skipped skips fuel⟩
      | false =>
        obtain ⟨inside, middle, run⟩ := each comparison List.mem_cons_self start (.refl start)
          skips (fun made makes => .inside skips makes) (.here skips)
        refine ⟨comparison.answer schema inside, middle, ?_⟩
        rw [run_made skips, run]
        rfl
    obtain ⟨found, middle, run⟩ := first
    have alone : runAll schema document (fuel + 1) [comparison] start = some (found ++ [], middle) := by
      rw [runAll_cons, run]
      rfl
    have ends := ends_of_runAll (fuel + 1) [comparison] alone
    have later : Suffices schema document (fuel + 1) rest middle := by
      apply ih
      intro next member compared extended skips parts makes
      exact each next (List.mem_cons_of_mem _ member) compared (extended.trans ends.extends) skips
        (fun made inside => .later ends (parts made inside)) (.later ends makes)
    obtain ⟨others, last, rest⟩ := later
    refine ⟨found ++ others, last, ?_⟩
    rw [runAll_cons, run, Option.bind_some, rest]
    rfl

variable {names : Finset String}

/-- With enough fuel comparisons among known ones are made, unless one of them is circular. -/
theorem suffices_enough
    (defined : ∀ name, (document.fragment? name).isSome = true → name ∈ names)
    (closed : ∀ comparison, Known known [comparison] →
      Known known (comparison.parts schema document))
    (fuel : Nat) {comparisons trail : List Comparison} {compared : Compared}
    (here : Known known comparisons) (leads : Leads schema document trail comparisons)
    (distinct : trail.Nodup) (within : trail ⊆ known)
    (straight : ∀ made, Makes schema document comparisons compared made →
      ¬ Circular schema document made)
    (enough : Enough names known trail compared fuel) :
    Suffices schema document fuel comparisons compared := by
  induction fuel generalizing comparisons trail compared with
  | zero => simp [Enough] at enough
  | succ fuel ih =>
    apply suffices_each
    intro comparison member noted extended skips inside makes
    have parts : Known known (comparison.parts schema document) := by
      apply closed
      intro only same fields
      rw [List.mem_singleton.1 same] at fields ⊢
      exact here comparison member fields
    have straightInside : ∀ made, Makes schema document (comparison.parts schema document)
        (comparison.noted noted) made → ¬ Circular schema document made :=
      fun made makes => straight made (inside made makes)
    have enough := enough.kept extended
    cases comparison with
    | fields exclusive key a b =>
      have unmet : Comparison.fields exclusive key a b ∉ trail := fun met =>
        straight _ makes (leads _ member rfl _ met)
      have distinct : (Comparison.fields exclusive key a b :: trail).Nodup :=
        List.nodup_cons.2 ⟨unmet, distinct⟩
      have within : Comparison.fields exclusive key a b :: trail ⊆ known :=
        List.cons_subset.2 ⟨here _ member rfl, within⟩
      have fewer : trail.length < known.length := (distinct.subperm within).length_le
      exact ih parts (Leads.nested (leads _ member rfl) rfl) distinct within straightInside
        (enough.nested fewer _)
    | fragments exclusive a b =>
      by_cases leaf : (Comparison.fragments exclusive a b).parts schema document = []
      · rw [leaf]
        exact ⟨[], _, rfl⟩
      · obtain ⟨first, second⟩ := parts_unknown leaf
        obtain ⟨different, uncovered⟩ : a ≠ b ∧ noted.covers a b exclusive = false := by
          simpa [Comparison.skips] using skips
        have less := room_add (defined a first) (defined b second) different uncovered
        exact ih parts (fun _ _ _ _ onTrail => absurd onTrail List.not_mem_nil) List.nodup_nil (List.nil_subset _)
          straightInside (enough.anew less)

end Bound
end GraphQL.Validation.Overlap
