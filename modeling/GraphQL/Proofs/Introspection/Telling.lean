import Mathlib
import GraphQL.Execution.Request
import GraphQL.Proofs.Execution.Grounded
import GraphQL.Proofs.Entries
import GraphQL.Proofs.Schema.WellFormed

/-! How a schema answers questions about itself. Its resolvers wait for nothing and ask nobody, so
that each value they give is completed at once, to the same result wherever it stands. -/
namespace GraphQL.Execution

variable {τ σ : Type}

section Selecting

/-- The selection of some fields, and of nothing else. -/
def setOf (nodes : List Ast.Field) : Ast.SelectionSet := ⟨nodes.map .field, none⟩

variable {plan : Plan τ} {object : ObjectType} {nodes : List Ast.Field}

theorem selected_fields (plain : ∀ node ∈ nodes, node.directives = []) :
    selected plan object (setOf nodes) = nodes.map .field := by
  rw [setOf, selected]
  induction nodes with
  | nil => rw [List.map_nil, selectedIn, List.map_nil]
  | cons node rest ih =>
    obtain ⟨here, others⟩ := List.forall_mem_cons.1 plain
    have taken : plan.includes node.directives = true := by
      rw [here]
      rfl
    rw [List.map_cons, selectedIn, selectedBy, if_pos taken, ih others]
    rfl

theorem expand_fields (unopened : List Ast.FragmentDefinition) :
    expand plan object unopened (nodes.map .field) = nodes := by
  induction nodes with
  | nil => rw [List.map_nil, expand]
  | cons node rest ih => rw [List.map_cons, expand, ih]

/-- Fields without directives and with different keys are collected as they are. -/
theorem collect_fields (plain : ∀ node ∈ nodes, node.directives = [])
    (distinct : (nodes.map Ast.Field.responseKey).Nodup) :
    plan.collect object [setOf nodes] = nodes.map fun node => (node.responseKey, [node]) := by
  rw [Plan.collect, List.flatMap_singleton, selected_fields plain, expand_fields]
  exact Groups.ofList_distinct _ distinct

end Selecting

/-- A value is completed at once, wherever it stands, with the fields that nodes select from it. -/
def Becomes (executor : Executor τ σ) (type : TypeRef) (nodes : List Ast.Field)
    (value : FieldValue τ) (out : Value) : Prop :=
  ∃ bound, ∀ depth, bound ≤ depth → ∀ site path, site.nodes = nodes →
    executor.complete depth site type path value = pure (.settled (.ok out))

section Becoming
variable {executor : Executor τ σ} {nodes : List Ast.Field} {value : FieldValue τ} {out : Value}
  {name : String}

theorem Becomes.nonNull {type : TypeRef} (becomes : Becomes executor type nodes value out)
    (here : value.later? = none) (solid : out.isNull = false) :
    Becomes executor (.nonNull type) nodes value out := by
  obtain ⟨bound, becomes⟩ := becomes
  refine ⟨bound + 1, fun depth enough site path same => ?_⟩
  obtain ⟨depth, rfl⟩ := Nat.exists_eq_add_of_le' (Nat.le_of_add_left_le enough)
  rw [complete_nonNull _ _ _ _ here, becomes depth (Nat.le_of_succ_le_succ enough) site path same,
    pure_bind, Completion.require, Completion.refuseNull, solid]
  rfl

theorem becomes_null {type : TypeRef} (nullable : type.isNonNull = false) :
    Becomes executor type nodes .null .null := by
  refine ⟨1, fun depth enough site path same => ?_⟩
  obtain ⟨depth, rfl⟩ := Nat.exists_eq_add_of_le' enough
  cases type with
  | named name => rfl
  | list item => rfl
  | nonNull inner => cases nullable

/-- A value that is known is guarded by doing nothing. -/
theorem guardAt_settled (type : TypeRef) (out : Value) :
    Completion.guardAt type (.settled (.ok out) : Completion τ) =
      (pure (.settled (.ok out)) : Exec σ (Completion τ)) := by
  rw [Completion.guardAt]
  split <;> rfl

theorem mapM_settled {α : Type} {items : List α} {outs : List Value}
    {each : α → Exec σ (Completion τ)}
    (settled : List.Forall₂ (fun item out => each item = pure (.settled (.ok out))) items outs) :
    items.mapM each = pure (outs.map fun out => .settled (.ok out)) := by
  induction settled with
  | nil => rfl
  | cons first _ ih => rw [List.mapM_cons, first, pure_bind, ih, pure_bind, List.map_cons]

/-- Parts that are all known are put together at once. -/
theorem join_settled (shape : Shape) (outs : List Value) :
    Completion.join shape (outs.map fun out => (.settled (.ok out) : Completion τ)) =
      .settled (.ok (shape.assemble outs)) := by
  have fine : (outs.map (Except.ok : Value → Outcome)).mapM id = .ok outs := by
    induction outs with
    | nil => rfl
    | cons out rest ih =>
      rw [List.map_cons, List.mapM_cons, ih]
      rfl
  have known : (outs.map fun out => (.settled (.ok out) : Completion τ)).mapM Completion.outcome? =
      some (outs.map .ok) := by
    clear fine
    induction outs with
    | nil => rfl
    | cons out rest ih =>
      rw [List.map_cons, List.mapM_cons, ih]
      rfl
  rw [Completion.join, Completion.gather, known]
  dsimp only
  rw [fine]
  rfl

/-- One bound for all that hold from some bound on. -/
theorem bounded_together {α β : Type} {P : Nat → α → β → Prop} {items : List α} {outs : List β}
    (each : List.Forall₂ (fun item out => ∃ bound, ∀ depth, bound ≤ depth → P depth item out)
      items outs) : ∃ bound, ∀ depth, bound ≤ depth → List.Forall₂ (P depth) items outs := by
  induction each with
  | nil => exact ⟨0, fun _ _ => .nil⟩
  | cons first _ ih =>
    obtain ⟨bound, first⟩ := first
    obtain ⟨other, others⟩ := ih
    refine ⟨max bound other, fun depth enough => ?_⟩
    obtain ⟨enough, still⟩ := max_le_iff.1 enough
    exact .cons (first depth enough) (others depth still)

theorem becomes_list {item : TypeRef} {values : List (FieldValue τ)} {outs : List Value}
    (each : List.Forall₂ (Becomes executor item nodes) values outs) :
    Becomes executor (.list item) nodes (.list values) (.list outs) := by
  replace each := bounded_together each
  obtain ⟨bound, each⟩ := each
  refine ⟨bound + 1, fun depth enough site path same => ?_⟩
  obtain ⟨depth, rfl⟩ := Nat.exists_eq_add_of_le' (Nat.le_of_add_left_le enough)
  have known (index : Nat) : List.Forall₂ (fun found out =>
      executor.complete depth site item (path ++ [.index found.2]) found.1 >>=
        Completion.guardAt item = pure (.settled (.ok out))) (values.zipIdx index) outs := by
    replace each := each depth (Nat.le_of_succ_le_succ enough)
    clear enough
    induction each generalizing index with
    | nil => exact .nil
    | cons first _ ih =>
      refine .cons ?_ (ih _)
      rw [first site _ same, pure_bind, guardAt_settled]
  rw [complete_list _ _ _ _ rfl, items_eq, mapM_settled (known 0), map_pure, join_settled]
  rfl

theorem becomes_scalar {scalar : ScalarType} {plain : Value}
    (known : executor.plan.schema.type? name = some (.scalar scalar)) (solid : plain.isNull = false)
    (written : scalar.serialize plain = .ok out) :
    Becomes executor (.named name) nodes (.value plain) out := by
  refine ⟨1, fun depth enough site path same => ?_⟩
  obtain ⟨depth, rfl⟩ := Nat.exists_eq_add_of_le' enough
  rw [complete_named _ _ _ _ rfl, FieldValue.isNull, solid, Executor.asNamed, known]
  simp only [TypeDef.isLeaf, Executor.leaf, written]
  rfl

theorem becomes_enum {enum : EnumType} {plain : Value}
    (known : executor.plan.schema.type? name = some (.enum enum)) (solid : plain.isNull = false)
    (written : enum.serialize plain = some out) :
    Becomes executor (.named name) nodes (.value plain) out := by
  refine ⟨1, fun depth enough site path same => ?_⟩
  obtain ⟨depth, rfl⟩ := Nat.exists_eq_add_of_le' enough
  rw [complete_named _ _ _ _ rfl, FieldValue.isNull, solid, Executor.asNamed, known]
  simp only [TypeDef.isLeaf, Executor.leaf, written]
  rfl

end Becoming

/-- Middleware that leaves alone what a schema tells about itself. -/
def Middleware.Discreet (wrap : Middleware τ σ) : Prop :=
  ∀ (next : Resolve τ σ) (source : FieldValue τ) (arguments : Entries Value) (info : Info τ),
    info.site.field.resolver = some .introspection →
      wrap next source arguments info = next source arguments info

/-- A field of an object is called and completed at once. -/
def Shows (executor : Executor τ σ) (object : ObjectType) (source : FieldValue τ)
    (node : Ast.Field) (out : Value) : Prop :=
  ∃ field value, executor.plan.schema.objectField? object node.name.text = some field ∧
    (∀ path, executor.call ⟨object, field, [node]⟩ path source = pure (.ok value)) ∧
    Becomes executor field.type [node] value out

section Showing
variable {executor : Executor τ σ} {object : ObjectType} {source : FieldValue τ}
  {nodes : List Ast.Field} {outs : List Value}

/-- An object is completed from the fields that are selected of it. -/
theorem object_becomes (plain : ∀ node ∈ nodes, node.directives = [])
    (distinct : (nodes.map Ast.Field.responseKey).Nodup)
    (shows : List.Forall₂ (Shows executor object source) nodes outs) :
    ∃ bound, ∀ depth, bound ≤ depth → ∀ path,
      executor.object (executor.complete depth) object path source
          (executor.plan.collect object [setOf nodes]) =
        pure (.settled (.ok (.object ((nodes.map Ast.Field.responseKey).zip outs)))) := by
  have sited : ∃ sites : List (String × Site),
      executor.sites object (executor.plan.collect object [setOf nodes]) = sites ∧
      sites.map Prod.fst = nodes.map Ast.Field.responseKey ∧
      List.Forall₂ (fun found out => ∃ bound, ∀ depth, bound ≤ depth → ∀ path,
        executor.field (executor.complete depth) found.2 path source =
          pure (.settled (.ok out))) sites outs := by
    rw [collect_fields plain distinct]
    clear plain distinct
    induction shows with
    | nil => exact ⟨[], rfl, rfl, .nil⟩
    | @cons node out rest others shows _ ih =>
      obtain ⟨field, value, defined, called, bound, becomes⟩ := shows
      obtain ⟨sites, same, keys, each⟩ := ih
      have here : executor.site? object [node] = some ⟨object, field, [node]⟩ := by
        simp only [Executor.site?, List.head?_cons, Option.bind_eq_bind, Option.bind_some, defined,
          Option.pure_def]
      refine ⟨(node.responseKey, ⟨object, field, [node]⟩) :: sites, ?_, ?_, .cons ?_ each⟩
      · rw [← same, Executor.sites, List.map_cons, List.filterMap_cons, here]
        rfl
      · rw [List.map_cons, List.map_cons, keys]
      · refine ⟨bound, fun depth enough path => ?_⟩
        rw [Executor.field, called, pure_bind]
        dsimp only
        rw [becomes depth enough _ path rfl, pure_bind, guardAt_settled]
  obtain ⟨sites, same, keys, each⟩ := sited
  obtain ⟨bound, each⟩ := bounded_together each
  refine ⟨bound, fun depth enough path => ?_⟩
  have settled : List.Forall₂ (fun found out => executor.field (executor.complete depth) found.2
      (path ++ [.key found.1]) source = pure (.settled (.ok out))) sites outs :=
    (each depth enough).imp fun found out known => known _
  rw [object_eq, same, mapM_settled settled, map_pure, join_settled, keys]
  rfl

theorem becomes_object {name : String} {node : Ast.Field}
    (known : executor.plan.schema.type? name = some (.object object))
    (unguarded : object.isTypeOf = none) (here : source.later? = none) (solid : source.isNull = false)
    (selects : node.selectionSet = some (setOf nodes)) (plain : ∀ node ∈ nodes, node.directives = [])
    (distinct : (nodes.map Ast.Field.responseKey).Nodup)
    (shows : List.Forall₂ (Shows executor object source) nodes outs) :
    Becomes executor (.named name) [node] source
      (.object ((nodes.map Ast.Field.responseKey).zip outs)) := by
  obtain ⟨bound, becomes⟩ := object_becomes plain distinct shows
  refine ⟨bound + 1, fun depth enough site path same => ?_⟩
  obtain ⟨depth, rfl⟩ := Nat.exists_eq_add_of_le' (Nat.le_of_add_left_le enough)
  have inside : site.nodes.filterMap Ast.Field.selectionSet = [setOf nodes] := by
    rw [same, List.filterMap_cons, selects]
    rfl
  rw [complete_named _ _ _ _ here, if_neg (by simp [solid]), Executor.asNamed, known]
  simp only [Executor.asObject, unguarded, pure_bind, if_true, inside]
  exact becomes depth (Nat.le_of_succ_le_succ enough) path

/-- All middleware leaves the resolvers alone by which a schema describes itself. -/
theorem resolve_described (discreet : ∀ wrap ∈ executor.middleware, wrap.Discreet) {site : Site}
    (computed : site.field.resolver = some .introspection) (path : Path)
    (arguments : Entries Value) :
    executor.resolve site path source arguments =
      pure (Introspection.resolve source arguments ⟨executor.plan, site, path⟩) := by
  rw [Executor.resolve]
  generalize executor.middleware = middleware at discreet
  induction middleware with
  | nil => simp only [List.foldr_nil, Executor.resolver, computed]
  | cons wrap rest ih =>
    obtain ⟨first, others⟩ := List.forall_mem_cons.1 discreet
    rw [List.foldr_cons, first _ source arguments ⟨executor.plan, site, path⟩ computed]
    exact ih others

/-- A field that the schema computes about itself. -/
theorem shows_described {node : Ast.Field} {field : Field} {arguments : Entries Value}
    {value : FieldValue τ} {out : Value} (discreet : ∀ wrap ∈ executor.middleware, wrap.Discreet)
    (defined : executor.plan.schema.objectField? object node.name.text = some field)
    (computed : field.resolver = some .introspection)
    (given : argumentValues executor.plan.schema executor.plan.bindings node.arguments
      field.arguments.items = .ok arguments)
    (told : ∀ path, Introspection.resolve source arguments
      ⟨executor.plan, ⟨object, field, [node]⟩, path⟩ = .ok value)
    (becomes : Becomes executor field.type [node] value out) :
    Shows executor object source node out := by
  refine ⟨field, value, defined, fun path => ?_, becomes⟩
  simp only [Executor.call, List.head?_cons, Option.map_some, Option.getD_some, given]
  rw [resolve_described discreet computed, told]
  rfl

end Showing
end GraphQL.Execution
