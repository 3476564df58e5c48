import Mathlib.Data.List.Sort
import GraphQL.Proofs.Suggestion.Distance

/-! Suggestions: the options that are close enough, each as often as it is given, the closest first
and options at one distance by name. -/
namespace GraphQL.Suggestion

open Text (lowerCase)

section Distance
variable {a b : String}

theorem distance_of_case (apart : a ≠ b) (same : lowerCase a.toList = lowerCase b.toList) :
    distance a b = 1 := by
  rw [distance, if_neg apart]
  exact if_pos same

theorem distance_of_letters (apart : lowerCase a.toList ≠ lowerCase b.toList) :
    distance a b = leastEdits (lowerCase a.toList) (lowerCase b.toList) := by
  have other : a ≠ b := fun same => apart (same ▸ rfl)
  rw [distance, if_neg other, ← editDistance_eq]
  exact if_neg apart

theorem distance_comm (a b : String) : distance a b = distance b a := by
  by_cases same : a = b
  · rw [same]
  · by_cases letters : lowerCase a.toList = lowerCase b.toList
    · rw [distance_of_case same letters, distance_of_case (Ne.symm same) letters.symm]
    · rw [distance_of_letters letters, distance_of_letters (Ne.symm letters), leastEdits_comm]

end Distance

/-- The order of suggestions: by distance, then by name. -/
def Precedes (input a b : String) : Prop :=
  distance input a < distance input b ∨ distance input a = distance input b ∧ a ≤ b

instance (input a b : String) : Decidable (Precedes input a b) :=
  inferInstanceAs (Decidable (_ ∨ _ ∧ _))

section Order
variable {input a b c : String}

theorem Precedes.trans (first : Precedes input a b) (second : Precedes input b c) :
    Precedes input a c := by
  rcases first with nearer | ⟨even, before⟩ <;> rcases second with farther | ⟨level, after⟩
  · exact .inl (nearer.trans farther)
  · exact .inl (level ▸ nearer)
  · exact .inl (even ▸ farther)
  · exact .inr ⟨even.trans level, String.le_trans before after⟩

theorem precedes_total (input a b : String) : Precedes input a b ∨ Precedes input b a := by
  rcases Nat.lt_trichotomy (distance input a) (distance input b) with nearer | even | farther
  · exact .inl (.inl nearer)
  · exact (String.le_total a b).imp (fun before => .inr ⟨even, before⟩)
      fun after => .inr ⟨even.symm, after⟩
  · exact .inr (.inl farther)

theorem Precedes.antisymm (first : Precedes input a b) (second : Precedes input b a) : a = b := by
  rcases first with nearer | ⟨even, before⟩ <;> rcases second with farther | ⟨level, after⟩
  · omega
  · omega
  · omega
  · exact String.le_antisymm before after

end Order

section Closest
variable {input : String} {options others : List String}

/-- The sort goes by the options alone: the distances beside them follow from them. -/
theorem closest_eq (input : String) (options : List String) :
    closest input options =
      (options.filter fun option => distance input option ≤ threshold input option).mergeSort
        fun a b => Precedes input a b := by
  rw [closest, List.map_mergeSort (s := fun a b => decide (Precedes input a b)), List.filter_map,
    List.map_map]
  · exact congrArg (List.mergeSort · _) (List.map_id _)
  · intro first firstScored second secondScored
    obtain ⟨a, -, rfl⟩ := List.mem_map.1 (List.mem_filter.1 firstScored).1
    obtain ⟨b, -, rfl⟩ := List.mem_map.1 (List.mem_filter.1 secondScored).1
    rw [Bool.eq_iff_iff, decide_eq_true_iff]
    simp only [Precedes, Bool.or_eq_true, Bool.and_eq_true, decide_eq_true_eq, beq_iff_eq,
      Bool.not_eq_true', decide_eq_false_iff_not, String.not_lt]

theorem closest_perm (input : String) (options : List String) :
    (closest input options).Perm
      (options.filter fun option => distance input option ≤ threshold input option) := by
  rw [closest_eq]
  exact List.mergeSort_perm ..

theorem closest_ordered (input : String) (options : List String) :
    (closest input options).Pairwise (Precedes input) := by
  rw [closest_eq]
  refine (List.pairwise_mergeSort ?_ ?_ _).imp of_decide_eq_true
  · intro a b c first second
    exact decide_eq_true ((of_decide_eq_true first).trans (of_decide_eq_true second))
  · intro a b
    simpa using precedes_total input a b

example : closest "meowVolum" ["barkVolume", "name", "nickname", "meowVolume"] =
    ["meowVolume", "barkVolume"] := by cbv

/-- No two orders list the same options by distance and name. -/
theorem closest_of_perm (same : options.Perm others) : closest input options = closest input others :=
  List.Perm.eq_of_pairwise (fun _ _ _ _ => Precedes.antisymm) (closest_ordered input options)
    (closest_ordered input others)
    ((closest_perm input options).trans ((same.filter _).trans (closest_perm input others).symm))

end Closest

/-- The distance of two words is the length of a shortest script, but for words that differ in case
only, and goes both ways; the suggestions are all options within it, with those at the least
distance first, in whatever order the options come. -/
theorem closest_names (a b input : String) (options : List String) :
    (a = b → distance a b = 0) ∧
    (a ≠ b → lowerCase a.toList = lowerCase b.toList → distance a b = 1) ∧
    (lowerCase a.toList ≠ lowerCase b.toList →
      IsLeast {n | Turns n (lowerCase a.toList) (lowerCase b.toList)} (distance a b)) ∧
    distance a b = distance b a ∧
    (closest input options).Perm (options.filter fun option =>
      distance input option ≤ max (max (input.length / 2) (option.length / 2)) 1) ∧
    (closest input options).Pairwise (fun first second =>
      distance input first < distance input second ∨
        distance input first = distance input second ∧ first ≤ second) ∧
    ∀ others, options.Perm others → closest input options = closest input others := by
  refine ⟨fun same => if_pos same, distance_of_case, fun apart => ?_, distance_comm a b,
    closest_perm input options, closest_ordered input options, fun others => closest_of_perm⟩
  rw [distance_of_letters apart]
  exact leastEdits_isLeast ..

theorem closest_names_volumes :
    distance "meow" "meow" = 0 ∧ distance "NAME" "name" = 1 ∧
    IsLeast {n | Turns n (lowerCase "nmae".toList) (lowerCase "Name".toList)}
      (distance "nmae" "Name") ∧
    closest "meowVolum" ["barkVolume", "name", "nickname", "meowVolume"] =
      closest "meowVolum" ["name", "meowVolume", "nickname", "barkVolume"] :=
  ⟨(closest_names "meow" "meow" "" []).1 rfl,
    (closest_names "NAME" "name" "" []).2.1 (by decide) (by decide),
    (closest_names "nmae" "Name" "" []).2.2.1 (by decide),
    (closest_names "" "" "meowVolum" _).2.2.2.2.2.2 _ (by decide)⟩

end GraphQL.Suggestion
