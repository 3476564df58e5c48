import GraphQL.Proofs.Schema.Typing
import GraphQL.Validation.Overlap.Search

/-! Types that are alike: lists of the same depth, of the same leaf type inside or of types with
selections. What can stand for a type is alike, and so are types that do not conflict. -/
namespace GraphQL

/-- The type without its outer non-null wrappers. -/
def TypeRef.bare : TypeRef → TypeRef
  | nonNull type => type.bare
  | type => type

/-- How deep lists are nested in a type. -/
def TypeRef.lists : TypeRef → Nat
  | named _ => 0
  | list item => item.lists + 1
  | nonNull type => type.lists

theorem TypeRef.innermost_bare (type : TypeRef) : type.bare.innermost = type.innermost := by
  induction type with
  | nonNull type ih => exact ih
  | _ => rfl

theorem TypeRef.lists_bare (type : TypeRef) : type.bare.lists = type.lists := by
  induction type with
  | nonNull type ih => exact ih
  | _ => rfl

/-- A type is a list or has a name, within its outer non-null wrappers. -/
theorem TypeRef.bare_cases (type : TypeRef) :
    (∃ item, type.bare = .list item) ∨ ∃ name, type.bare = .named name := by
  induction type with
  | named name => exact .inr ⟨name, rfl⟩
  | list item _ => exact .inl ⟨item, rfl⟩
  | nonNull type ih => exact ih

namespace Schema
open Validation.Overlap (typesConflict)

/-- Whether a name is that of a type without selections. -/
def isLeafName (schema : Schema) (name : String) : Bool := (schema.type? name).any TypeDef.isLeaf

/-- Types whose values have the same shape, down to where they have selections. -/
structure Alike (schema : Schema) (type other : TypeRef) : Prop where
  lists : type.lists = other.lists
  leaf : (schema.isLeafName type.innermost || schema.isLeafName other.innermost) = true →
    type.innermost = other.innermost

section Alike
variable {schema : Schema} {type other next : TypeRef}

theorem Alike.refl (schema : Schema) (type : TypeRef) : schema.Alike type type :=
  ⟨rfl, fun _ => rfl⟩

theorem Alike.symm (alike : schema.Alike type other) : schema.Alike other type :=
  ⟨alike.lists.symm, fun leaf => (alike.leaf (by rwa [Bool.or_comm])).symm⟩

theorem Alike.trans (first : schema.Alike type other) (second : schema.Alike other next) :
    schema.Alike type next := by
  refine ⟨first.lists.trans second.lists, fun leaf => ?_⟩
  rcases Bool.or_eq_true_iff.1 leaf with leaf | leaf
  · have same := first.leaf (by rw [leaf, Bool.true_or])
    exact same.trans (second.leaf (by rw [← same, leaf, Bool.true_or]))
  · have same := second.leaf (by rw [leaf, Bool.or_true])
    exact (first.leaf (by rw [same, leaf, Bool.or_true])).trans same

theorem Alike.bare (alike : schema.Alike type other) : schema.Alike type.bare other.bare := by
  refine ⟨?_, ?_⟩
  · rw [type.lists_bare, other.lists_bare, alike.lists]
  · rw [type.innermost_bare, other.innermost_bare]
    exact alike.leaf

/-- The items of lists that are alike are. -/
theorem Alike.item {item its : TypeRef} (alike : schema.Alike type other)
    (list : type.bare = .list item) (others : other.bare = .list its) : schema.Alike item its := by
  have bare := alike.bare
  rw [list, others] at bare
  exact ⟨Nat.succ.inj bare.lists, bare.leaf⟩

theorem Narrows.lists (narrows : schema.Narrows type other) : type.lists = other.lists := by
  induction narrows with
  | refl type => rfl
  | possible _ _ _ => rfl
  | list _ ih => exact congrArg Nat.succ ih
  | nonNull _ ih => exact ih
  | required _ ih => exact ih

/-- A type is alike to those that it can stand for. -/
theorem Built.alike_of_subtype (built : schema.Built) (fits : schema.isSubtype type other = true) :
    schema.Alike type other := by
  have narrows := narrows_of_isSubtype fits
  refine ⟨narrows.lists, fun leaf => ?_⟩
  rcases narrows.innermost with same | ⟨found, here, abstract, possible⟩
  · exact same
  · obtain ⟨object, there⟩ := object_of_possible built possible
    rw [isLeafName, isLeafName, there, here] at leaf
    cases found with
    | interface _ | union _ => cases leaf
    | _ => cases abstract

/-- Types that do not conflict are alike. -/
theorem alike_of_not_conflict (free : typesConflict schema type other = false) :
    schema.Alike type other := by
  induction type generalizing other with
  | named name =>
    cases other with
    | named its =>
      refine ⟨rfl, fun leaf => ?_⟩
      simp only [typesConflict, Bool.and_eq_false_iff, bne_eq_false_iff_eq] at free
      exact free.resolve_left fun none => by
        rw [isLeafName, isLeafName] at leaf
        exact Bool.noConfusion (leaf.symm.trans none)
    | _ => simp [typesConflict] at free
  | list item ih =>
    cases other with
    | list its =>
      rw [typesConflict] at free
      obtain ⟨lists, leaf⟩ := ih free
      exact ⟨congrArg Nat.succ lists, leaf⟩
    | _ => simp [typesConflict] at free
  | nonNull type ih =>
    cases other with
    | nonNull its =>
      rw [typesConflict] at free
      obtain ⟨lists, leaf⟩ := ih free
      exact ⟨lists, leaf⟩
    | _ => simp [typesConflict] at free

/-- Values of two types have the same shape: they are lists, or they have selections, or they are of
one scalar or one enum. -/
inductive SameShape (schema : Schema) : TypeRef → TypeRef → Prop
  | list {type other item its : TypeRef} : type.bare = .list item → other.bare = .list its →
      SameShape schema type other
  | composite {type other : TypeRef} {name its : String} {found next : TypeDef} :
      type.bare = .named name → other.bare = .named its → schema.type? name = some found →
      schema.type? its = some next → found.isComposite = true → next.isComposite = true →
      SameShape schema type other
  | leaf {type other : TypeRef} {name : String} {found : TypeDef} : type.bare = .named name →
      other.bare = .named name → schema.type? name = some found → found.isLeaf = true →
      SameShape schema type other

theorem SameShape.of_bare {first second : TypeRef} (same : schema.SameShape type other)
    (bare : type.bare = first.bare) (bareToo : other.bare = second.bare) :
    schema.SameShape first second := by
  cases same with
  | list list lists => exact .list (bare ▸ list) (bareToo ▸ lists)
  | composite named its known knownToo composite compositeToo =>
    exact .composite (bare ▸ named) (bareToo ▸ its) known knownToo composite compositeToo
  | leaf named its known leaf => exact .leaf (bare ▸ named) (bareToo ▸ its) known leaf

/-- Types of fields that are alike have values of the same shape. -/
theorem Alike.sameShape {found its : TypeDef} (alike : schema.Alike type other)
    (known : schema.named? type = some found) (output : found.isOutput = true)
    (knownToo : schema.named? other = some its) (outputToo : its.isOutput = true) :
    schema.SameShape type other := by
  have bare := alike.bare
  rw [named?, ← type.innermost_bare] at known
  rw [named?, ← other.innermost_bare] at knownToo
  rcases TypeRef.bare_cases type with ⟨item, list⟩ | ⟨name, named⟩
  · rcases TypeRef.bare_cases other with ⟨inner, listToo⟩ | ⟨name, named⟩
    · exact .list list listToo
    · rw [list, named] at bare
      exact absurd bare.lists (Nat.succ_ne_zero _)
  · rcases TypeRef.bare_cases other with ⟨inner, list⟩ | ⟨second, namedToo⟩
    · rw [named, list] at bare
      exact absurd bare.lists (Nat.succ_ne_zero _).symm
    · rw [named, namedToo] at bare
      rw [named] at known
      rw [namedToo] at knownToo
      by_cases leaf : (schema.isLeafName name || schema.isLeafName second) = true
      · obtain rfl : name = second := bare.leaf leaf
        rw [Bool.or_self, isLeafName, show schema.type? name = some found from known] at leaf
        exact .leaf named namedToo known leaf
      · have composite {called : String} {type : TypeDef} (here : schema.type? called = some type)
            (output : type.isOutput = true) (none : ¬ schema.isLeafName called = true) :
            type.isComposite = true :=
          composite_of_output output fun isLeaf => none (by rw [isLeafName, here]; exact isLeaf)
        rw [Bool.or_eq_true, not_or] at leaf
        exact .composite named namedToo known knownToo (composite known output leaf.1)
          (composite knownToo outputToo leaf.2)

end Alike
end Schema
end GraphQL
