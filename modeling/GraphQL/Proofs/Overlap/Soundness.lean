import GraphQL.Proofs.Ast.Fields
import GraphQL.Proofs.Overlap.Height
import GraphQL.Proofs.Overlap.Termination

/-! When two fields do not conflict by themselves: the comparison of arguments is exact where no
name is given twice, and it does not matter which field comes first. -/
namespace GraphQL.Validation.Overlap
open Ast (SelectionSet Selection Document)

section Arguments
variable {first second : List Ast.Argument}

/-- The name and the value of an argument. -/
def given (argument : Ast.Argument) : String × String := (argument.name.text, argument.value.text)

theorem sameArguments_def : SameArguments first second ↔
    ∀ pair, pair ∈ first.map given ↔ pair ∈ second.map given := by
  simp [SameArguments, given, Prod.forall]

theorem given_nodup (distinct : (first.map fun argument => argument.name.text).Nodup) :
    (first.map given).Nodup := by
  apply List.Nodup.of_map Prod.fst
  rw [List.map_map]
  exact distinct

/-- With distinct names the first argument of a name is the only one. -/
theorem find?_given (distinct : (second.map fun argument => argument.name.text).Nodup)
    (argument : Ast.Argument) :
    ((second.find? fun other => other.name.text == argument.name.text).any fun other =>
      argument.value.text == other.value.text) = true ↔ given argument ∈ second.map given := by
  induction second with
  | nil => simp
  | cons other rest ih =>
    obtain ⟨fresh, distinct⟩ := List.nodup_cons.1 distinct
    by_cases same : other.name.text = argument.name.text
    · rw [List.find?_cons_of_pos (by simpa using same)]
      have absent : given argument ∉ rest.map given := by
        intro member
        obtain ⟨later, inside, equal⟩ := List.mem_map.1 member
        have named : later.name.text = argument.name.text := congrArg Prod.fst equal
        exact fresh (List.mem_map.2 ⟨later, inside, named.trans same.symm⟩)
      rw [List.map_cons, List.mem_cons, or_iff_left absent]
      simp [given, same]
    · rw [List.find?_cons_of_neg (by simpa using same), ih distinct, List.map_cons, List.mem_cons]
      have apart : given argument ≠ given other := fun equal => same (congrArg Prod.fst equal).symm
      simp [apart]

theorem sameArguments_eq (first second : List Ast.Argument) :
    sameArguments first second = (first.length == second.length && first.all fun argument =>
      (second.find? fun other => other.name.text == argument.name.text).any fun other =>
        argument.value.text == other.value.text) := by
  unfold sameArguments
  congr
  funext argument
  cases second.find? fun other => other.name.text == argument.name.text <;> rfl

theorem sameArguments_iff (distinct : (first.map fun argument => argument.name.text).Nodup)
    (others : (second.map fun argument => argument.name.text).Nodup) :
    sameArguments first second = true ↔ SameArguments first second := by
  rw [sameArguments_eq, Bool.and_eq_true, beq_iff_eq, List.all_eq_true, sameArguments_def]
  simp only [find?_given others]
  have subset : (∀ argument ∈ first, given argument ∈ second.map given) ↔
      first.map given ⊆ second.map given := List.forall_mem_map.symm
  rw [subset]
  constructor
  · rintro ⟨length, inside⟩ pair
    have perm := ((given_nodup distinct).subperm inside).perm_of_length_le (by simp [length])
    exact perm.mem_iff
  · intro same
    have perm := (List.perm_ext_iff_of_nodup (given_nodup distinct) (given_nodup others)).2 same
    exact ⟨by simpa using perm.length_eq, perm.subset⟩

theorem SameArguments.symm (same : SameArguments first second) : SameArguments second first :=
  fun name value => (same name value).symm

end Arguments

section Reasons
variable {schema : Schema}

theorem typesConflict_comm (schema : Schema) (a b : TypeRef) :
    typesConflict schema a b = typesConflict schema b a := by
  induction a generalizing b with
  | named name =>
    cases b with
    | named other =>
      rw [typesConflict, typesConflict]
      dsimp only
      rw [Bool.or_comm, bne_comm]
    | list _ | nonNull _ => simp [typesConflict]
  | list item ih =>
    cases b with
    | list other => rw [typesConflict, typesConflict, ih]
    | named _ | nonNull _ => simp [typesConflict]
  | nonNull type ih =>
    cases b with
    | nonNull other => rw [typesConflict, typesConflict, ih]
    | named _ | list _ => simp [typesConflict]

theorem differentObjects_comm (first second : Option TypeDef) :
    differentObjects first second = differentObjects second first := by
  have pair (a b : TypeDef) : differentObjects (some a) (some b) =
      differentObjects (some b) (some a) := by
    cases a with
    | object a =>
      cases b with
      | object b => exact bne_comm
      | _ => rfl
    | _ => cases b <;> rfl
  cases first with
  | none =>
    cases second with
    | none => rfl
    | some type => cases type <;> rfl
  | some type =>
    cases second with
    | none => cases type <;> rfl
    | some other => exact pair type other

/-- Arguments of distinct names. -/
def DistinctNames (a : Selected) : Prop :=
  (a.node.arguments.map fun argument => argument.name.text).Nodup

/-- When two fields do not conflict by themselves. -/
theorem ownReason?_none {exclusive : Bool} {a b : Selected} (distinct : DistinctNames a)
    (others : DistinctNames b) :
    ownReason? schema exclusive a b = none ↔
      (exclusive = false → a.node.name.text = b.node.name.text ∧
        SameArguments a.node.arguments b.node.arguments) ∧
      ∀ s t, a.type = some s → b.type = some t → typesConflict schema s t = false := by
  rw [ownReason?, ← sameArguments_iff distinct others]
  by_cases own : exclusive = false → a.node.name.text = b.node.name.text ∧
      sameArguments a.node.arguments b.node.arguments = true
  · have names : ¬ (!exclusive && a.node.name.text != b.node.name.text) = true := by
      cases exclusive <;> simp_all
    have arguments :
        ¬ (!exclusive && !sameArguments a.node.arguments b.node.arguments) = true := by
      cases exclusive <;> simp_all
    rw [if_neg names, if_neg arguments]
    cases a.type with
    | none => simpa using own
    | some s =>
      cases b.type with
      | none => simpa using own
      | some t => simpa using fun _ => own
  · have off : exclusive = false := by
      by_contra on
      exact own fun off => absurd off on
    subst off
    by_cases names : a.node.name.text = b.node.name.text
    · by_cases same : sameArguments a.node.arguments b.node.arguments = true
      · exact absurd (fun _ => ⟨names, same⟩) own
      · simp [names, same]
    · simp [names]

end Reasons

section Distinct
variable {schema : Schema} {a : Selected}

mutual

theorem inventory_hasField (parent : Option TypeDef) : (set : SelectionSet) →
    a ∈ inventory schema parent set → Selection.HasField a.node set.selections
  | ⟨selections, _⟩ => by
    intro member
    rw [inventory] at member
    exact inventoryIn_hasField parent selections member

theorem inventoryIn_hasField (parent : Option TypeDef) : (selections : List Selection) →
    a ∈ inventoryIn schema parent selections → Selection.HasField a.node selections
  | [] => fun member => by
    rw [inventoryIn] at member
    cases member
  | selection :: rest => by
    intro member
    rw [inventoryIn] at member
    rw [Selection.hasField_cons]
    exact (List.mem_append.1 member).imp (inventoryBy_hasField parent selection)
      (inventoryIn_hasField parent rest)

theorem inventoryBy_hasField (parent : Option TypeDef) : (selection : Selection) →
    a ∈ inventoryBy schema parent selection → Selection.HasField a.node [selection]
  | .field ⟨_, _, _, _, none, _⟩ => by
    intro member
    rw [inventoryBy, List.mem_singleton] at member
    subst member
    exact Selection.hasField_field.2 (.inl rfl)
  | .field ⟨_, _, _, _, some set, _⟩ => by
    intro member
    rw [inventoryBy] at member
    rw [Selection.hasField_field]
    rcases List.mem_cons.1 member with rfl | member
    · exact .inl rfl
    · exact .inr (.inl (inventory_hasField _ set member))
  | .spread _ => fun member => by
    rw [inventoryBy] at member
    cases member
  | .inline ⟨some condition, _, set, _⟩ => by
    intro member
    rw [inventoryBy] at member
    exact Selection.hasField_inline.2 (.inl (inventory_hasField _ set member))
  | .inline ⟨none, _, set, _⟩ => by
    intro member
    rw [inventoryBy] at member
    exact Selection.hasField_inline.2 (.inl (inventory_hasField _ set member))

end

theorem documentInventory_hasField {document : Document}
    (member : a ∈ documentInventory schema document) :
    .field a.node ∈ (Ast.Node.document document).tree.preorder := by
  obtain ⟨definition, known, inside⟩ := List.mem_flatMap.1 member
  rw [Ast.Tree.field_mem_document]
  refine ⟨definition, known, ?_⟩
  cases definition with
  | operation operation => exact inventory_hasField _ operation.selectionSet inside
  | fragment fragment => exact inventory_hasField _ fragment.selectionSet inside
  | typeSystem _ => cases inside

theorem Owned.distinct {document : Document} (arguments : DistinctArguments document)
    (owned : Owned schema document a) : DistinctNames a := by
  obtain ⟨b, member, alike⟩ := owned
  rw [DistinctNames, alike.node]
  exact arguments _ (documentInventory_hasField member)

end Distinct
end GraphQL.Validation.Overlap

/-! What the search finds conflicts plainly. -/
namespace GraphQL.Validation.Overlap
open Ast (SelectionSet FragmentDefinition Document)

section Symmetry
variable {schema : Schema} {document : Document} {parent other : Option TypeDef}
  {s t : SelectionSet} {source target : Option String} {fields others : List Selected}
  {x y : Selected}

/-- A fragment expands to the same fields wherever it is spread. -/
theorem Expands.same {name : String} (first : Expands schema document parent s (some name) fields)
    (second : Expands schema document other t (some name) others) : fields = others := by
  generalize source_eq : some name = source at first
  generalize target_eq : some name = target at second
  cases first with
  | own => cases source_eq
  | spread stands =>
    cases second with
    | own => cases target_eq
    | spread behind =>
      have left := stands.named
      have right := behind.named
      rw [← Option.some.inj source_eq] at left
      rw [← Option.some.inj target_eq, left] at right
      rw [Option.some.inj right]

theorem Apart.symm (apart : Apart source target fields x y)
    (first : Expands schema document parent s source fields)
    (second : Expands schema document other t target others) : Apart target source others y x := by
  cases target with
  | none => exact .inl rfl
  | some name =>
    rcases apart with rfl | apart | apart
    · exact .inr (.inl (Option.some_ne_none _))
    · exact .inr (.inl fun same => apart same.symm)
    · by_cases same : source = some name
      · subst same
        rw [← first.same second]
        exact .inr (.inr ((List.Perm.swap y x []).subperm_right.1 apart))
      · exact .inr (.inl fun equal => same equal.symm)

theorem Conflicting.symm {exclusive : Bool} {a b : Selected}
    (conflicting : Conflicting schema document exclusive a b) :
    Conflicting schema document exclusive b a := by
  induction conflicting with
  | names same differ =>
    rw [differentObjects_comm] at same
    exact .names same differ.symm
  | arguments same differ =>
    rw [differentObjects_comm] at same
    exact .arguments same fun equal => differ equal.symm
  | types first second conflict =>
    rw [typesConflict_comm] at conflict
    exact .types second first conflict
  | inside first second left right member inside apart key _ ih =>
    rw [differentObjects_comm] at ih
    exact .inside second first right left inside member (apart.symm left right) key.symm ih

end Symmetry

/-- What a comparison has to find: a conflict of the fields, or of two fields that the fragments
expand to. -/
def Comparison.Conflicts (schema : Schema) (document : Document) : Comparison → Prop
  | fields exclusive _ a b => Conflicting schema document exclusive a b
  | fragments exclusive f g => ∃ F G x y,
      Stands document.fragments [f] F ∧ Stands document.fragments [g] G ∧
      x ∈ fragmentFields schema F ∧ y ∈ fragmentFields schema G ∧
      (F.name.text ≠ G.name.text ∨ [x, y].Subperm (fragmentFields schema F)) ∧ x.key = y.key ∧
      Conflicting schema document exclusive x y

section Soundness
variable {schema : Schema} {document : Document}

theorem own_conflicting {exclusive : Bool} {a b : Selected} (distinct : DistinctNames a)
    (others : DistinctNames b)
    (reason : ownReason? schema (exclusive || differentObjects a.parent b.parent) a b ≠ none) :
    Conflicting schema document exclusive a b := by
  rw [Ne, ownReason?_none distinct others, not_and_or] at reason
  rcases reason with reason | reason
  · obtain ⟨same, differ⟩ := Classical.not_imp.1 reason
    by_cases names : a.node.name.text = b.node.name.text
    · exact .arguments same fun equal => differ ⟨names, equal⟩
    · exact .names same names
  · simp only [not_forall] at reason
    obtain ⟨s, t, first, second, conflict⟩ := reason
    exact .types first second (by simpa using conflict)

/-- A conflict that a part of a comparison of fields has to find is one of the fields. -/
theorem fields_conflict {exclusive : Bool} {key : String} {a b : Selected} {part : Comparison}
    (member : part ∈ (Comparison.fields exclusive key a b).parts schema document)
    (conflicts : part.Conflicts schema document) : Conflicting schema document exclusive a b := by
  obtain ⟨_, s, t, first, second, member⟩ := mem_fields_parts.1 member
  rcases (mem_setParts _ _ _ _).1 member with
    ⟨x, inside, y, other, same, rfl⟩ | ⟨g, stands, x, inside, y, other, same, rfl⟩ |
    ⟨f, stands, y, other, x, inside, same, rfl⟩ | ⟨name, spread, other, beside, rfl⟩
  · exact .inside first second .own .own inside other (.inl rfl) same conflicts
  · exact .inside first second .own (.spread stands) inside other (.inl rfl) same conflicts
  · exact .inside first second (.spread stands) .own inside other
      (.inr (.inl (Option.some_ne_none _))) same.symm (Conflicting.symm conflicts)
  · obtain ⟨F, G, x, y, left, right, inside, others, apart, same, conflicting⟩ := conflicts
    refine .inside first second (.spread (left.mono (by simpa using spread)))
      (.spread (right.mono (by simpa using beside))) inside others (.inr ?_) same conflicting
    exact apart.imp_left fun differ equal => differ (Option.some.inj equal)

theorem fragments_conflict {exclusive : Bool} {a b : String} {part : Comparison} (apart : a ≠ b)
    (member : part ∈ (Comparison.fragments exclusive a b).parts schema document)
    (conflicts : part.Conflicts schema document) :
    (Comparison.fragments exclusive a b).Conflicts schema document := by
  obtain ⟨f, g, first, second, member⟩ := mem_fragments_parts.1 member
  have left : Stands document.fragments [a] f := .spread List.mem_cons_self first
  have right : Stands document.fragments [b] g := .spread List.mem_cons_self second
  rcases mem_fragmentParts.1 member with
    ⟨x, inside, y, other, same, rfl⟩ | ⟨name, spread, rfl⟩ | ⟨name, spread, rfl⟩
  · refine ⟨f, g, x, y, left, right, inside, other, .inl ?_, same, conflicts⟩
    rwa [name_of_named? first, name_of_named? second]
  · obtain ⟨F, G, x, y, before, behind, found⟩ := conflicts
    exact ⟨F, G, x, y, before, behind.behind right spread, found⟩
  · obtain ⟨F, G, x, y, before, behind, found⟩ := conflicts
    exact ⟨F, G, x, y, before.behind left spread, behind, found⟩

theorem ofSubfields_ne_nil {key : String} {a b : Ast.Field} {conflicts : List Conflict}
    (found : ofSubfields key a b conflicts ≠ []) : conflicts ≠ [] := by
  rintro rfl
  exact found rfl

/-- Where comparisons find anything, one of them has to. -/
theorem Ends.conflicts (arguments : DistinctArguments document) {comparisons : List Comparison}
    {compared last : Compared} {found : List Conflict}
    (ends : Ends schema document comparisons compared found last)
    (owned : ∀ comparison ∈ comparisons, comparison.Owned schema document) (some_ : found ≠ []) :
    ∃ comparison ∈ comparisons, comparison.Conflicts schema document := by
  induction ends with
  | done _ => exact absurd rfl some_
  | skipped _ _ ih =>
    obtain ⟨comparison, member, conflicts⟩ :=
      ih (fun comparison member => owned comparison (List.mem_cons_of_mem _ member)) some_
    exact ⟨comparison, List.mem_cons_of_mem _ member, conflicts⟩
  | @made comparison rest compared middle last inside others skips _ _ inner later =>
    by_cases none : others = []
    · have here : comparison.answer schema inside ≠ [] := by
        simpa [none] using some_
      have owns := owned comparison List.mem_cons_self
      refine ⟨comparison, List.mem_cons_self, ?_⟩
      have parts : ∀ part ∈ comparison.parts schema document, part.Owned schema document :=
        fun part => owns.part
      cases comparison with
      | fields exclusive key a b =>
        by_cases reason : ownReason? schema (exclusive || differentObjects a.parent b.parent) a b = Option.none
        · have found : inside ≠ [] := by
            simp only [Comparison.answer, reason] at here
            exact ofSubfields_ne_nil here
          obtain ⟨part, member, conflicts⟩ := inner parts found
          exact fields_conflict member conflicts
        · exact own_conflicting (owns.1.distinct arguments) (owns.2.distinct arguments) reason
      | fragments exclusive a b =>
        obtain ⟨part, member, conflicts⟩ := inner parts here
        refine fragments_conflict ?_ member conflicts
        rintro rfl
        simp [Comparison.skips] at skips
    · obtain ⟨comparison, member, conflicts⟩ :=
        later (fun comparison member => owned comparison (List.mem_cons_of_mem _ member)) none
      exact ⟨comparison, List.mem_cons_of_mem _ member, conflicts⟩

/-- What a set of the document starts is about its own expansion. -/
theorem starts_conflict {visited : Visited} {comparison : Comparison}
    (starts : comparison ∈ visited.starts schema document)
    (conflicts : comparison.Conflicts schema document) :
    SetConflicts schema document visited.parent visited.set := by
  rcases (mem_starts visited).1 starts with
    ⟨a, b, below, same, rfl⟩ | ⟨fragment, stands, a, inside, b, other, same, rfl⟩ |
    ⟨name, other, below, rfl⟩
  · exact ⟨none, none, _, _, a, b, .own, .own, below.subset (by simp), below.subset (by simp),
      .inr below.subperm, same, conflicts⟩
  · have stands := stands.keep fun name => visited.owner != some name
    exact ⟨none, some _, _, _, a, b, .own, .spread stands, inside, other,
      .inl (Option.some_ne_none _).symm, same, conflicts⟩
  · obtain ⟨F, G, x, y, left, right, inside, others, apart, same, conflicting⟩ := conflicts
    have first : name ∈ spreadsOf visited.set :=
      List.mem_eraseDups.1 (below.subset List.mem_cons_self)
    have second : other ∈ spreadsOf visited.set :=
      List.mem_eraseDups.1 (below.subset (List.mem_cons_of_mem _ List.mem_cons_self))
    refine ⟨some F.name.text, some G.name.text, _, _, x, y,
      .spread (left.mono (by simpa using first)), .spread (right.mono (by simpa using second)),
      inside, others, ?_, same, conflicting⟩
    exact apart.imp_left fun differ equal => differ (Option.some.inj equal)

/-- A search that finds anything finds it in a document that conflicts plainly. -/
theorem search_sound (built : schema.Built) (arguments : DistinctArguments document)
    {last : Compared} {found : List Conflict}
    (ends : Ends schema document (documentStarts schema document) [] found last)
    (some_ : found ≠ []) : PlainlyConflicts schema document := by
  obtain ⟨comparison, member, conflicts⟩ := ends.conflicts arguments
    (fun comparison member => by
      obtain ⟨visited, known, starts⟩ := List.mem_flatMap.1 member
      exact owned_starts built known starts) some_
  obtain ⟨visited, known, starts⟩ := List.mem_flatMap.1 member
  obtain ⟨around, stop⟩ := mem_visitedAfter known
  exact ⟨around, visited.parent, visited.set, stop, starts_conflict starts conflicts⟩

end Soundness
end GraphQL.Validation.Overlap
