import GraphQL.Proofs.Overlap.Depth
import GraphQL.Proofs.Overlap.Inventory

/-! When the search through a document comes to an end: unless it comes to a comparison of
fields that leads back to itself, and then within the depth that it is given. -/
namespace GraphQL.Validation.Overlap
open Ast (SelectionSet FragmentDefinition Document)

/-- All comparisons of some fields. -/
def allPairs (fields : List Selected) : List Comparison :=
  [false, true].flatMap fun exclusive =>
    fields.flatMap fun a => fields.map fun b => .fields exclusive a.key a b

section Owned
variable {schema : Schema} {document : Document}

theorem mem_allPairs {fields : List Selected} {a b : Selected} (first : a ∈ fields)
    (second : b ∈ fields) (exclusive : Bool) : .fields exclusive a.key a b ∈ allPairs fields := by
  refine List.mem_flatMap.2 ⟨exclusive, by cases exclusive <;> simp, ?_⟩
  exact List.mem_flatMap.2 ⟨a, first, List.mem_map.2 ⟨b, second, rfl⟩⟩

theorem length_allPairs (fields : List Selected) :
    (allPairs fields).length = 2 * fields.length * fields.length := by
  simp [allPairs, List.length_flatMap, Nat.mul_assoc]
  omega

/-- The comparisons of fields that an owned comparison makes are of fields in the inventory. -/
theorem Comparison.Owned.parts {comparison : Comparison}
    (owned : comparison.Owned schema document) :
    Known (allPairs (documentInventory schema document)) (comparison.parts schema document) := by
  intro part member fields
  cases comparison with
  | fields exclusive key a b =>
    obtain ⟨_, s, t, first, second, member⟩ := mem_fields_parts.1 member
    have left (x : Selected) (inside : x ∈ fieldsOf schema (a.below schema) s) :=
      owned.1.below first inside
    have right (y : Selected) (inside : y ∈ fieldsOf schema (b.below schema) t) :=
      owned.2.below second inside
    rcases (mem_setParts _ _ _ _).1 member with
      ⟨x, inside, y, other, _, rfl⟩ | ⟨g, stands, x, inside, y, other, _, rfl⟩ |
      ⟨f, stands, y, other, x, inside, _, rfl⟩ | ⟨name, _, other, _, rfl⟩
    · exact mem_allPairs (left x inside) (right y other) _
    · exact mem_allPairs (left x inside) (fragment_inventory stands.member other) _
    · exact mem_allPairs (right y other) (fragment_inventory stands.member inside) _
    · cases fields
  | fragments exclusive a b =>
    obtain ⟨f, g, first, second, member⟩ := mem_fragments_parts.1 member
    rcases mem_fragmentParts.1 member with
      ⟨x, inside, y, other, _, rfl⟩ | ⟨name, _, rfl⟩ | ⟨name, _, rfl⟩
    · exact mem_allPairs (fragment_inventory (mem_of_named? first) inside)
        (fragment_inventory (mem_of_named? second) other) _
    · cases fields
    · cases fields

/-- What an owned comparison makes is owned. -/
theorem Comparison.Owned.part {comparison part : Comparison}
    (owned : comparison.Owned schema document)
    (member : part ∈ comparison.parts schema document) : part.Owned schema document := by
  cases part with
  | fields exclusive key a b =>
    have known := owned.parts _ member rfl
    simp only [allPairs, List.mem_flatMap, List.mem_map] at known
    obtain ⟨_, _, x, first, y, second, same⟩ := known
    cases same
    exact ⟨owned_of_mem first, owned_of_mem second⟩
  | fragments exclusive a b => trivial

theorem known_parts {comparison : Comparison}
    (known : Known (allPairs (documentInventory schema document)) [comparison]) :
    Known (allPairs (documentInventory schema document)) (comparison.parts schema document) := by
  cases comparison with
  | fields exclusive key a b =>
    have member := known _ List.mem_cons_self rfl
    simp only [allPairs, List.mem_flatMap, List.mem_map] at member
    obtain ⟨_, _, x, first, y, second, same⟩ := member
    cases same
    have owned : (Comparison.fields exclusive a.key a b).Owned schema document :=
      ⟨owned_of_mem first, owned_of_mem second⟩
    exact owned.parts
  | fragments exclusive a b =>
    have owned : (Comparison.fragments exclusive a b).Owned schema document := trivial
    exact owned.parts

theorem owned_starts (built : schema.Built) {visited : Visited}
    (member : visited ∈ Overlap.visited schema document) {comparison : Comparison}
    (starts : comparison ∈ visited.starts schema document) :
    comparison.Owned schema document := by
  rcases (mem_starts visited).1 starts with
    ⟨a, b, below, _, rfl⟩ | ⟨fragment, stands, a, inside, b, other, _, rfl⟩ | ⟨_, _, _, rfl⟩
  · exact ⟨owned_visited built member (below.subset (by simp)),
      owned_visited built member (below.subset (by simp))⟩
  · have known := List.mem_of_mem_filter stands.member
    exact ⟨owned_visited built member inside, owned_of_mem (fragment_inventory known other)⟩
  · trivial

/-- The comparisons that the sets of a document start. -/
def documentStarts (schema : Schema) (document : Document) : List Comparison :=
  (visited schema document).flatMap (Visited.starts schema document)

theorem enough_depth (names : Finset String) (compared : Compared)
    (fewer : names.card ≤ document.fragments.length) :
    Enough names (allPairs (documentInventory schema document)) [] compared
      (depth document - 1) := by
  have bound := room_le names compared
  have product := Nat.mul_le_mul fewer fewer
  have scaled := Nat.mul_le_mul_right
    (2 * (documentInventory schema document).length * (documentInventory schema document).length + 1)
    (Nat.le_trans bound (Nat.mul_le_mul_left 2 product))
  rw [Enough, depth, length_allPairs, ← length_documentInventory schema,
    List.length_nil, Nat.sub_zero, Nat.add_sub_cancel, Nat.add_mul, Nat.one_mul]
  rw [Nat.mul_assoc 2 (_ * _)] at scaled
  omega

/-- The search has enough depth, unless it comes to a circular comparison. -/
theorem suffices_depth (built : schema.Built)
    (straight : ∀ made, Makes schema document (documentStarts schema document) [] made →
      ¬ Circular schema document made) :
    Suffices schema document (depth document) (documentStarts schema document) [] := by
  let names := (document.fragments.map fun fragment => fragment.name.text).toFinset
  have fewer : names.card ≤ document.fragments.length := by
    simpa [names] using List.toFinset_card_le (document.fragments.map fun fragment => fragment.name.text)
  have defined (name : String) (known : (document.fragment? name).isSome = true) :
      name ∈ names := by
    obtain ⟨fragment, found⟩ := Option.isSome_iff_exists.1 known
    rw [List.mem_toFinset, ← name_of_named? found]
    exact List.mem_map_of_mem (mem_of_named? found)
  have positive : depth document = depth document - 1 + 1 := rfl
  rw [positive]
  apply suffices_each
  intro comparison member compared _ _ inside _
  obtain ⟨visited, known, starts⟩ := List.mem_flatMap.1 member
  exact suffices_enough defined (fun _ => known_parts) _ (owned_starts built known starts).parts
    (fun _ _ _ _ onTrail => absurd onTrail List.not_mem_nil) List.nodup_nil (List.nil_subset _)
    (fun made makes => straight made (inside made makes)) (enough_depth names _ fewer)

/-- Two fields of the document come to be compared again through comparing them. -/
def Circles (schema : Schema) (document : Document) : Prop :=
  ∃ made, Makes schema document (documentStarts schema document) [] made ∧
    Circular schema document made

/-- The search through a document ends if and only if it does not circle. -/
theorem search_ends_iff (built : schema.Built) :
    (∃ found last, searchThrough schema document (depth document) (visited schema document) [] =
      some (found, last)) ↔ ¬ Circles schema document := by
  rw [searchThrough_run]
  constructor
  · rintro ⟨found, last, run⟩ ⟨made, makes, circular⟩
    exact (ends_of_runAll _ _ run).not_circular makes circular
  · intro straight
    exact suffices_depth built fun made makes circular => straight ⟨made, makes, circular⟩

end Owned
end GraphQL.Validation.Overlap
