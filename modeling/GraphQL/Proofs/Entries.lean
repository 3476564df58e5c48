import Mathlib.Data.List.Induction
import Mathlib.Data.List.Nodup
import Mathlib.Data.List.Forall2
import GraphQL.Groups
import GraphQL.Types.Definitions

/-! Gathering under keys: a key has the items that it is the key of, in their order. -/
namespace GraphQL.Groups

variable {α : Type}

theorem get_cons (other key : String) (items : List α) (rest : Groups α) :
    get ((other, items) :: rest) key = if key = other then items else get rest key := by
  unfold get
  by_cases same : key = other
  · simp [same]
  · have apart : (key == other) = false := beq_eq_false_iff_ne.2 same
    simp [List.lookup_cons, same, apart]

theorem get_add (key other : String) (item : α) (groups : Groups α) :
    (groups.add key item).get other =
      if other = key then groups.get other ++ [item] else groups.get other := by
  induction groups with
  | nil =>
    rw [add, get_cons]
    split <;> rfl
  | cons entry rest ih =>
    obtain ⟨first, items⟩ := entry
    rw [add, get_cons]
    by_cases here : first = key
    · subst here
      rw [if_pos rfl, get_cons]
      split <;> rfl
    · rw [if_neg here, get_cons, ih]
      by_cases same : other = first
      · rw [if_pos same, if_pos same, if_neg (same ▸ here)]
      · rw [if_neg same, if_neg same]

theorem keys_add (key : String) (item : α) (groups : Groups α) :
    (groups.add key item).keys =
      if key ∈ groups.keys then groups.keys else groups.keys ++ [key] := by
  induction groups with
  | nil => rfl
  | cons entry rest ih =>
    obtain ⟨first, items⟩ := entry
    rw [add]
    by_cases here : first = key
    · subst here
      simp [keys]
    · have apart : key ≠ first := fun same => here same.symm
      rw [if_neg here]
      simp only [keys, List.map_cons, List.mem_cons, apart, false_or]
      rw [keys, keys] at ih
      rw [ih]
      split <;> rfl

theorem ofList_concat (key : α → String) (items : List α) (item : α) :
    ofList key (items ++ [item]) = (ofList key items).add (key item) item := by
  rw [ofList, List.foldl_append]
  rfl

theorem get_ofList (key : α → String) (items : List α) (name : String) :
    (ofList key items).get name = items.filter fun item => key item = name := by
  induction items using List.reverseRecOn with
  | nil => rfl
  | append_singleton items item ih =>
    rw [ofList_concat, get_add, ih, List.filter_append]
    by_cases same : name = key item
    · simp [same]
    · have apart : key item ≠ name := fun equal => same equal.symm
      simp [same, apart]

theorem keys_ofList (key : α → String) (items : List α) :
    (ofList key items).keys.Nodup ∧
      ∀ name, name ∈ (ofList key items).keys ↔ ∃ item ∈ items, key item = name := by
  induction items using List.reverseRecOn with
  | nil => simp [ofList, keys]
  | append_singleton items item ih =>
    obtain ⟨nodup, members⟩ := ih
    rw [ofList_concat, keys_add]
    split
    · rename_i known
      refine ⟨nodup, fun name => ?_⟩
      rw [members]
      constructor
      · rintro ⟨other, member, rfl⟩
        exact ⟨other, List.mem_append_left _ member, rfl⟩
      · rintro ⟨other, member, rfl⟩
        rcases List.mem_append.1 member with member | member
        · exact ⟨other, member, rfl⟩
        · rw [List.mem_singleton.1 member]
          exact (members _).1 known
    · rename_i unknown
      refine ⟨List.nodup_append.2 ⟨nodup, List.nodup_singleton _, ?_⟩, fun name => ?_⟩
      · intro name member other last same
        rw [List.mem_singleton.1 last] at same
        exact unknown (same ▸ member)
      · simp [members, or_and_right, exists_or, eq_comm]

theorem get_of_mem {groups : Groups α} (nodup : groups.keys.Nodup) {key : String} {items : List α}
    (member : (key, items) ∈ groups) : groups.get key = items := by
  induction groups with
  | nil => cases member
  | cons entry rest ih =>
    obtain ⟨first, others⟩ := entry
    obtain ⟨fresh, nodup⟩ := List.nodup_cons.1 nodup
    rw [get_cons]
    rcases List.mem_cons.1 member with same | member
    · cases same
      exact if_pos rfl
    · have known : key ∈ keys rest := List.mem_map_of_mem member
      have apart : key ≠ first := fun same => fresh (same ▸ known)
      rw [if_neg apart, ih nodup member]

/-- There is one group at most if all items have one key. -/
theorem length_ofList_le_one (key : α → String) (items : List α) :
    (ofList key items).length ≤ 1 ↔ ∀ item ∈ items, ∀ other ∈ items, key item = key other := by
  obtain ⟨nodup, members⟩ := keys_ofList key items
  have known (item : α) (member : item ∈ items) : key item ∈ (ofList key items).keys :=
    (members _).2 ⟨item, member, rfl⟩
  have length : (ofList key items).keys.length = (ofList key items).length := List.length_map _
  rw [← length]
  cases split : (ofList key items).keys with
  | nil =>
    rw [split] at known
    exact iff_of_true (Nat.zero_le 1) fun item member => nomatch known item member
  | cons first rest =>
    rw [split] at nodup members known
    cases rest with
    | nil =>
      refine iff_of_true (Nat.le_refl 1) fun item member other inside => ?_
      rw [List.mem_singleton.1 (known item member), List.mem_singleton.1 (known other inside)]
    | cons second rest =>
      obtain ⟨item, member, rfl⟩ := (members first).1 List.mem_cons_self
      obtain ⟨other, inside, rfl⟩ := (members second).1 (List.mem_cons_of_mem _ List.mem_cons_self)
      refine iff_of_false (by simp) fun same => (List.nodup_cons.1 nodup).1 ?_
      rw [same item member other inside]
      exact List.mem_cons_self

/-- The groups of a list. -/
theorem mem_ofList (key : α → String) (items : List α) (name : String) (group : List α) :
    (name, group) ∈ ofList key items ↔
      group = (items.filter fun item => key item = name) ∧ ∃ item ∈ items, key item = name := by
  obtain ⟨nodup, members⟩ := keys_ofList key items
  constructor
  · intro member
    refine ⟨?_, (members name).1 (List.mem_map_of_mem member)⟩
    rw [← get_ofList, get_of_mem nodup member]
  · rintro ⟨rfl, occurs⟩
    obtain ⟨⟨other, group⟩, member, rfl⟩ := List.mem_map.1 ((members name).2 occurs)
    rwa [← get_ofList, get_of_mem nodup member]

/-- The keys stand in the order in which they are met first. -/
theorem keys_ofList_ordered (key : α → String) (items : List α) :
    (ofList key items).keys.Pairwise fun first second =>
      (items.map key).idxOf first < (items.map key).idxOf second := by
  induction items using List.reverseRecOn with
  | nil => exact .nil
  | append_singleton items item ih =>
    have met (name : String) (known : name ∈ (ofList key items).keys) : name ∈ items.map key := by
      obtain ⟨item, member, rfl⟩ := ((keys_ofList key items).2 name).1 known
      exact List.mem_map_of_mem member
    have stays : (ofList key items).keys.Pairwise fun first second =>
        ((items ++ [item]).map key).idxOf first < ((items ++ [item]).map key).idxOf second := by
      refine ih.imp_of_mem fun {first second} one other before => ?_
      rwa [List.map_append, List.idxOf_append_of_mem (met first one),
        List.idxOf_append_of_mem (met second other)]
    rw [ofList_concat, keys_add]
    split
    · exact stays
    next fresh =>
      refine List.pairwise_append.2 ⟨stays, List.pairwise_singleton _ _, fun first one second other => ?_⟩
      obtain rfl := List.mem_singleton.1 other
      have absent : key item ∉ items.map key := fun member => by
        obtain ⟨other, member, same⟩ := List.mem_map.1 member
        exact fresh (((keys_ofList key items).2 _).2 ⟨other, member, same⟩)
      rw [List.map_append, List.idxOf_append_of_mem (met first one),
        List.idxOf_append_of_notMem absent]
      exact Nat.lt_add_right _ (List.idxOf_lt_length_of_mem (met first one))

/-- Items with different keys are gathered one by one. -/
theorem ofList_distinct (key : α → String) {items : List α} (distinct : (items.map key).Nodup) :
    ofList key items = items.map fun item => (key item, [item]) := by
  have fresh (item : α) (groups : Groups α) (absent : key item ∉ groups.keys) :
      groups.add (key item) item = groups ++ [(key item, [item])] := by
    induction groups with
    | nil => rfl
    | cons group rest ih =>
      obtain ⟨other, others⟩ := group
      obtain ⟨apart, absent⟩ := not_or.1 (mt List.mem_cons.2 absent)
      rw [add, if_neg (Ne.symm apart), ih absent, List.cons_append]
  induction items using List.reverseRecOn with
  | nil => rfl
  | append_singleton items item ih =>
    rw [List.map_append, List.map_singleton, List.nodup_append] at distinct
    obtain ⟨distinct, -, apart⟩ := distinct
    have absent : key item ∉ (ofList key items).keys := by
      intro member
      obtain ⟨other, here, same⟩ := ((keys_ofList key items).2 _).1 member
      exact apart _ (List.mem_map_of_mem here) _ List.mem_cons_self same
    rw [ofList_concat, fresh item _ absent, ih distinct, List.map_append, List.map_singleton]

end GraphQL.Groups

/-! Entries and definitions under names: a name leads to what stands under it, and definitions have
names of their own however they are given. -/
namespace GraphQL

/-- Lists that are related item by item have related members. -/
theorem forall₂_mem {α β : Type} {R : α → β → Prop} {first : List α} {second : List β}
    (same : List.Forall₂ R first second) {a : α} (member : a ∈ first) : ∃ b ∈ second, R a b := by
  induction same with
  | nil => cases member
  | cons related _ ih =>
    rcases List.mem_cons.1 member with rfl | member
    · exact ⟨_, List.mem_cons_self, related⟩
    · obtain ⟨b, later, related⟩ := ih member
      exact ⟨b, List.mem_cons_of_mem _ later, related⟩

/-- Where keys are distinct, an item is the first one of its key. -/
theorem find?_of_distinct {α : Type} {key : α → String} {items : List α}
    (distinct : (items.map key).Nodup) {item : α} (member : item ∈ items) :
    items.find? (fun other => key other == key item) = some item := by
  have some_ : (items.find? fun other => key other == key item).isSome = true :=
    List.find?_isSome.2 ⟨item, member, by simp⟩
  obtain ⟨found, here⟩ := Option.isSome_iff_exists.1 some_
  have same := List.find?_some here
  rw [here, List.inj_on_of_nodup_map distinct (List.mem_of_find?_eq_some here) member
    (beq_iff_eq.1 same)]

namespace Entries
variable {α : Type}

theorem get?_cons (name : String) (value : α) (rest : Entries α) (other : String) :
    get? ((name, value) :: rest) other = if other = name then some value else get? rest other := by
  rw [get?, List.find?_cons]
  by_cases same : other = name
  · simp [same]
  · have apart : (name == other) = false := beq_eq_false_iff_ne.2 (Ne.symm same)
    rw [if_neg same]
    dsimp only
    rw [apart, get?]

theorem get?_of_mem {entries : Entries α} (distinct : entries.keys.Nodup) {name : String} {value : α}
    (member : (name, value) ∈ entries) : entries.get? name = some value := by
  rw [get?, find?_of_distinct distinct member]
  rfl

theorem get?_of_not_mem {entries : Entries α} {name : String} (absent : name ∉ entries.keys) :
    entries.get? name = none := by
  rw [get?, Option.map_eq_none_iff, List.find?_eq_none]
  intro entry member same
  exact absent (List.mem_map.2 ⟨entry, member, beq_iff_eq.1 same⟩)

theorem mem_of_get? {entries : Entries α} {name : String} {value : α}
    (found : entries.get? name = some value) : (name, value) ∈ entries := by
  obtain ⟨⟨key, _⟩, here, rfl⟩ := Option.map_eq_some_iff.1 found
  obtain rfl : key = name := by simpa using List.find?_some here
  exact List.mem_of_find?_eq_some here

theorem get?_put (name : String) (value : α) (entries : Entries α) (other : String) :
    (entries.put name value).get? other = if other = name then some value else entries.get? other := by
  induction entries with
  | nil => exact get?_cons name value [] other
  | cons entry rest ih =>
    obtain ⟨first, here⟩ := entry
    rw [put]
    by_cases same : first = name
    · subst same
      rw [if_pos (by simp), get?_cons, get?_cons]
      split <;> rfl
    · rw [if_neg (by simpa using same), get?_cons, get?_cons, ih]
      by_cases found : other = first
      · rw [if_pos found, if_neg (by rw [found]; exact same), if_pos found]
      · rw [if_neg found, if_neg found]

theorem mem_put {name : String} {value : α} {entries : Entries α} {entry : String × α}
    (member : entry ∈ entries.put name value) : entry = (name, value) ∨ entry ∈ entries := by
  induction entries with
  | nil => exact .inl (List.mem_singleton.1 member)
  | cons first rest ih =>
    rw [put] at member
    split at member
    · exact (List.mem_cons.1 member).imp_right (List.mem_cons_of_mem _)
    · rcases List.mem_cons.1 member with rfl | member
      · exact .inr List.mem_cons_self
      · exact (ih member).imp_right (List.mem_cons_of_mem _)

theorem put_distinct {entries : Entries α} (distinct : entries.keys.Nodup) (name : String) (value : α) :
    (entries.put name value).keys.Nodup := by
  induction entries with
  | nil => exact List.nodup_singleton _
  | cons entry rest ih =>
    obtain ⟨fresh, distinct⟩ := List.nodup_cons.1 distinct
    rw [put]
    split
    · rename_i same
      rw [beq_iff_eq] at same
      exact List.nodup_cons.2 ⟨same ▸ fresh, distinct⟩
    · rename_i apart
      refine List.nodup_cons.2 ⟨fun member => ?_, ih distinct⟩
      obtain ⟨other, inside, same⟩ := List.mem_map.1 member
      rcases mem_put inside with rfl | inside
      · exact apart (by simp [← same])
      · exact fresh (List.mem_map.2 ⟨other, inside, same⟩)

theorem ofPairs_spec (pairs : List (String × α)) :
    (ofPairs pairs).keys.Nodup ∧ ∀ entry ∈ ofPairs pairs, entry ∈ pairs := by
  induction pairs using List.reverseRecOn with
  | nil => exact ⟨List.nodup_nil, fun _ member => absurd member List.not_mem_nil⟩
  | append_singleton pairs pair ih =>
    obtain ⟨distinct, known⟩ := ih
    rw [ofPairs, List.foldl_append, ← ofPairs]
    refine ⟨put_distinct distinct pair.1 pair.2, fun entry member => ?_⟩
    rcases mem_put member with rfl | member
    · exact List.mem_append_right _ List.mem_cons_self
    · exact List.mem_append_left _ (known entry member)

end Entries

namespace Definitions
variable {α : Type} [Named α]

/-- The names of definitions, one after the other. -/
def names (definitions : Definitions α) : List String := definitions.items.map Named.name

theorem add_distinct {definitions : Definitions α} (distinct : definitions.names.Nodup) (item : α) :
    (definitions.add item).names.Nodup := by
  rw [add]
  split
  · exact distinct
  · rename_i fresh
    rw [names, List.map_append, List.nodup_append]
    refine ⟨distinct, List.nodup_singleton _, fun name member other only => ?_⟩
    obtain ⟨known, inside, rfl⟩ := List.mem_map.1 member
    rintro rfl
    refine fresh (List.any_eq_true.2 ⟨known, inside, ?_⟩)
    rw [List.mem_singleton.1 only, beq_self_eq_true]

theorem ofList_append_singleton (items : List α) (item : α) :
    ofList (items ++ [item]) = (ofList items).add item := by
  rw [ofList, List.foldl_append]
  rfl

theorem contains_ofList_iff (items : List α) (name : String) :
    (ofList items).contains name = true ↔ name ∈ items.map Named.name := by
  induction items using List.reverseRecOn with
  | nil => simp [ofList, empty, contains]
  | append_singleton items item ih =>
    rw [ofList_append_singleton, add, List.map_append, List.mem_append, ← ih]
    split
    · rename_i known
      have only : name ∈ [item].map Named.name → (ofList items).contains name = true := by
        intro same
        rwa [List.mem_singleton.1 same]
      exact ⟨Or.inl, fun either => either.elim id only⟩
    · rw [contains, List.any_append, Bool.or_eq_true, ← contains, List.map_singleton,
        List.mem_singleton, List.any_cons, List.any_nil, Bool.or_false, beq_iff_eq]
      exact or_congr_right eq_comm

/-- Definitions given one by one are recorded as repeated exactly if a name stands twice. -/
theorem repeated_ofList_eq_nil_iff (items : List α) :
    (ofList items).repeated = [] ↔ (items.map Named.name).Nodup := by
  induction items using List.reverseRecOn with
  | nil => simp [ofList, empty]
  | append_singleton items item ih =>
    have known := contains_ofList_iff items (Named.name item)
    rw [ofList_append_singleton, add, List.map_append, List.nodup_append, ← ih]
    split
    · rename_i again
      have taken := known.1 again
      refine ⟨fun none => ?_, fun distinct => ?_⟩
      · cases (List.append_eq_nil_iff.1 none).2
      · exact absurd rfl (distinct.2.2 _ taken _ List.mem_cons_self)
    · rename_i fresh
      have fresh := fun taken => fresh (known.2 taken)
      refine ⟨fun none => ⟨none, List.nodup_singleton _, fun name member other only => ?_⟩, And.left⟩
      rw [List.mem_singleton.1 only]
      exact fun same => fresh (same ▸ member)

/-- However definitions are given, no name stands among them twice. -/
theorem ofGiven_distinct (given : Given α) : (ofGiven given).names.Nodup := by
  cases given with
  | oneByOne items =>
    rw [ofGiven, ofList]
    induction items using List.reverseRecOn with
    | nil => exact List.nodup_nil
    | append_singleton items item ih =>
      rw [List.foldl_append]
      exact add_distinct ih item
  | allAtOnce items =>
    obtain ⟨distinct, known⟩ := Entries.ofPairs_spec (items.map fun item => (Named.name item, item))
    rw [ofGiven, ofEntries, names, List.map_map, List.map_congr_left (g := Prod.fst)]
    · exact distinct
    · intro entry member
      obtain ⟨item, _, rfl⟩ := List.mem_map.1 (known entry member)
      rfl

end Definitions
end GraphQL
