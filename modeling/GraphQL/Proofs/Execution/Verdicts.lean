import GraphQL.Proofs.Execution.Grounded

/-! What an execution amounts to, apart from when the values of its fields come. A field has a
reply: what its resolver's answer turns out to be once nothing in it is pending. From the replies
follow the outcome of each position and the errors that are recorded below it. -/
namespace GraphQL.Execution

variable {τ σ : Type}

/-- What is answered for a field or an item once it has come: an error, a list whose items have
come, or a value. -/
inductive Reply (τ : Type) where
  | failed (message : String)
  | value (of : FieldValue τ)
  | items (of : List (Reply τ))

def Reply.isFailed : Reply τ → Bool
  | failed _ => true
  | _ => false

/-- What resolvers answer, and how the types of values are decided. -/
structure Replies (τ : Type) where
  typeName : τ → Option String
  resolve : FieldValue τ → Entries Value → Info τ → Reply τ
  isTypeOf : Handle → FieldValue τ → Info τ → Bool
  resolveType : Handle → FieldValue τ → Info τ → Option String

/-- A host computes a result that is to be completed at a type, and all that is pending in it, and
so comes to a reply; it does so in all states that have a property, which it keeps. -/
inductive Comes (host : Host τ σ) (I : σ → Prop) : TypeRef → FieldResult τ → Reply τ → Prop
  | failed {type : TypeRef} {message : String} :
      Comes host I type (.error message) (.failed message)
  | deferred {type : TypeRef} {later : Later τ} {reply : Reply τ} :
      (∀ state, I state → I ((host.compute later.source).run state).2) →
      (∀ state, I state → Comes host I type ((host.compute later.source).run state).1 reply) →
      Comes host I type (.ok (.deferred later)) reply
  | nonNull {inner : TypeRef} {value : FieldValue τ} {reply : Reply τ} : value.later? = none →
      Comes host I inner (.ok value) reply → Comes host I (.nonNull inner) (.ok value) reply
  | items {item : TypeRef} {value : FieldValue τ} {values : List (FieldValue τ)}
      {replies : List (Reply τ)} : Executor.items? value = some values →
      values.length = replies.length →
      (∀ (index : Nat) other reply, values[index]? = some other → replies[index]? = some reply →
        Comes host I item (.ok other) reply) →
      Comes host I (.list item) (.ok value) (.items replies)
  | unlisted {item : TypeRef} {value : FieldValue τ} : value.later? = none →
      Executor.items? value = none → Comes host I (.list item) (.ok value) (.value value)
  | named {name : String} {value : FieldValue τ} : value.later? = none →
      Comes host I (.named name) (.ok value) (.value value)

/-- The outcome of a position, and the errors that are recorded below it. -/
structure Verdict where
  outcome : Outcome
  errors : List ResponseError

namespace Verdict

def null : Verdict := ⟨.ok .null, []⟩

def failed (site : Site) (path : Path) (message : String) : Verdict :=
  ⟨.error (site.error path message), []⟩

def guard : Verdict → Verdict
  | ⟨.ok value, errors⟩ => ⟨.ok value, errors⟩
  | ⟨.error error, errors⟩ => ⟨.ok .null, errors ++ [error]⟩

def guardAt (type : TypeRef) (verdict : Verdict) : Verdict :=
  if type.isNonNull then verdict else verdict.guard

def require (site : Site) (path : Path) (verdict : Verdict) : Verdict :=
  { verdict with outcome := Completion.refuseNull site path verdict.outcome }

/-- The first error of a part is the error of the whole. -/
def join (shape : Shape) (parts : List Verdict) : Verdict :=
  ⟨((parts.map outcome).mapM id).map shape.assemble, parts.flatMap errors⟩

/-- The verdict on a list from those on its items. -/
def list (item : TypeRef) (count : Nat) (verdict : Nat → Verdict) : Verdict :=
  join .list ((List.range count).map fun index => (verdict index).guardAt item)

/-- The verdict on an object from those on its fields. -/
def object (sites : List (String × Site)) (verdict : Nat → Verdict) : Verdict :=
  join (.object (sites.map Prod.fst))
    (sites.mapIdx fun index found => (verdict index).guardAt found.2.field.type)

end Verdict

namespace Replies

variable (replies : Replies τ)

/-- The reply to a field, from its arguments as written. -/
def call (plan : Plan τ) (site : Site) (path : Path) (source : FieldValue τ) : Reply τ :=
  let given := (site.nodes.head?.map Ast.Field.arguments).getD []
  match argumentValues plan.schema plan.bindings given site.field.arguments.items with
  | .ok arguments => replies.resolve source arguments ⟨plan, site, path⟩
  | .error fault => .failed fault.message

/-- A host that decides types as the replies say, and does nothing else. -/
def host : Host τ Unit where
  typeName := replies.typeName
  field _ _ := return none
  compute _ := return .ok .null
  resolve _ _ _ _ := return .ok .null
  isTypeOf handle value info := return replies.isTypeOf handle value info
  resolveType handle value info := return replies.resolveType handle value info

def executor (plan : Plan τ) : Executor τ Unit := ⟨plan, replies.host, []⟩

@[simp] theorem executor_plan (plan : Plan τ) : (replies.executor plan).plan = plan := rfl

/-- The object type that a value is completed as, or its outcome if it is not completed as an
object. -/
def Chooses (plan : Plan τ) (site : Site) (path : Path) (name : String) (value : FieldValue τ)
    (answer : Except Outcome ObjectType) : Prop :=
  ((replies.executor plan).objectType site path name value).run ⟨(), []⟩ = some (answer, ⟨(), []⟩)

/-- The fields of an object that are resolved for a site, each with its response key. -/
def sites (plan : Plan τ) (object : ObjectType) (sets : List Ast.SelectionSet) :
    List (String × Site) := (replies.executor plan).sites object (plan.collect object sets)

end Replies

/-- What a reply amounts to at a position: the replies to the fields that are selected from it are
completed to the end. -/
inductive Amounts (plan : Plan τ) (replies : Replies τ) :
    Site → TypeRef → Path → Reply τ → Verdict → Prop
  | failed {site : Site} {type : TypeRef} {path : Path} {message : String} :
      Amounts plan replies site type path (.failed message) (.failed site path message)
  | nonNull {site : Site} {inner : TypeRef} {path : Path} {reply : Reply τ} {verdict : Verdict} :
      reply.isFailed = false → Amounts plan replies site inner path reply verdict →
      Amounts plan replies site (.nonNull inner) path reply (verdict.require site path)
  | list {site : Site} {item : TypeRef} {path : Path} {items : List (Reply τ)}
      {verdict : Nat → Verdict} :
      (∀ (index : Nat) reply, items[index]? = some reply →
        Amounts plan replies site item (path ++ [.index index]) reply (verdict index)) →
      Amounts plan replies site (.list item) path (.items items) (.list item items.length verdict)
  | unlisted {site : Site} {item : TypeRef} {path : Path} {value : FieldValue τ} :
      Amounts plan replies site (.list item) path (.value value)
        (if value.isNull then .null else .failed site path
          ("User Error: expected iterable, but did not find one for field "
            ++ site.coordinate ++ "."))
  | null {site : Site} {name : String} {path : Path} {value : FieldValue τ} :
      value.isNull = true → Amounts plan replies site (.named name) path (.value value) .null
  | settled {site : Site} {name : String} {path : Path} {value : FieldValue τ} {outcome : Outcome} :
      value.isNull = false → replies.Chooses plan site path name value (.error outcome) →
      Amounts plan replies site (.named name) path (.value value) ⟨outcome, []⟩
  | object {site : Site} {name : String} {path : Path} {value : FieldValue τ} {object : ObjectType}
      {verdict : Nat → Verdict} :
      value.isNull = false → replies.Chooses plan site path name value (.ok object) →
      (∀ (index : Nat) key inner,
        (replies.sites plan object (setsOf site.nodes))[index]? = some (key, inner) →
        Amounts plan replies inner inner.field.type (path ++ [.key key])
          (replies.call plan inner (path ++ [.key key]) value) (verdict index)) →
      Amounts plan replies site (.named name) path (.value value)
        (.object (replies.sites plan object (setsOf site.nodes)) verdict)

section Verdicts
variable {host : Host τ σ} {I : σ → Prop} {plan : Plan τ} {replies : Replies τ} {site : Site}
  {type : TypeRef} {path : Path}

theorem Comes.fails {message : String} {reply : Reply τ}
    (comes : Comes host I type (.error message) reply) : reply = .failed message := by
  cases comes
  rfl

/-- What is pending is computed. -/
theorem Comes.computes {later : Later τ} {reply : Reply τ}
    (comes : Comes host I type (.ok (.deferred later)) reply) :
    ∀ state, I state → I ((host.compute later.source).run state).2 ∧
      Comes host I type ((host.compute later.source).run state).1 reply := by
  cases comes with
  | deferred keeps comes => exact fun state holds => ⟨keeps state holds, comes state holds⟩
  | nonNull here | unlisted here | named here => cases here
  | items same => cases same

theorem Comes.stays {name : String} {value other : FieldValue τ} (here : value.later? = none)
    (comes : Comes host I (.named name) (.ok value) (.value other)) : other = value := by
  cases comes with
  | deferred => cases here
  | named => rfl

/-- A value that is there does not fail. -/
theorem Comes.stands {value : FieldValue τ} {reply : Reply τ} (here : value.later? = none)
    (comes : Comes host I type (.ok value) reply) : reply.isFailed = false := by
  generalize same : (Except.ok value : FieldResult τ) = result at comes
  induction comes with
  | failed => cases same
  | deferred =>
    cases same
    cases here
  | nonNull _ _ ih => exact ih same
  | _ => rfl

theorem verdict_list_congr {item : TypeRef} {count : Nat} {verdict other : Nat → Verdict}
    (same : ∀ index < count, verdict index = other index) :
    Verdict.list item count verdict = .list item count other := by
  refine congrArg (Verdict.join .list) (List.map_congr_left fun index inside => ?_)
  rw [same index (List.mem_range.1 inside)]

theorem verdict_object_congr {sites : List (String × Site)} {verdict other : Nat → Verdict}
    (same : ∀ index < sites.length, verdict index = other index) :
    Verdict.object sites verdict = .object sites other := by
  refine congrArg (Verdict.join _) (List.ext_getElem (by simp) fun index inside _ => ?_)
  rw [List.getElem_mapIdx, List.getElem_mapIdx, same index (by simpa using inside)]

theorem Replies.Chooses.unique {name : String} {value : FieldValue τ}
    {answer other : Except Outcome ObjectType}
    (first : replies.Chooses plan site path name value answer)
    (second : replies.Chooses plan site path name value other) : answer = other :=
  congrArg Prod.fst (Option.some.inj (first.symm.trans second))

/-- A reply amounts to one verdict. -/
theorem Amounts.unique {reply : Reply τ} {verdict other : Verdict}
    (first : Amounts plan replies site type path reply verdict)
    (second : Amounts plan replies site type path reply other) : verdict = other := by
  induction first generalizing other with
  | failed =>
    cases second with
    | failed => rfl
    | nonNull stands => cases stands
  | nonNull stands _ ih =>
    cases second with
    | failed => cases stands
    | nonNull _ inner => rw [ih inner]
  | list _ ih =>
    cases second with
    | list each =>
      exact verdict_list_congr fun index inside =>
        ih index _ (List.getElem?_eq_getElem inside)
          (each index _ (List.getElem?_eq_getElem inside))
  | unlisted =>
    cases second with
    | unlisted => rfl
  | null null =>
    cases second with
    | null => rfl
    | settled solid | object solid =>
      rw [null] at solid
      cases solid
  | settled solid chosen =>
    cases second with
    | null null =>
      rw [null] at solid
      cases solid
    | settled _ other =>
      cases chosen.unique other
      rfl
    | object _ other => cases chosen.unique other
  | object solid chosen _ ih =>
    cases second with
    | null null =>
      rw [null] at solid
      cases solid
    | settled _ other => cases chosen.unique other
    | object _ other each =>
      cases chosen.unique other
      exact verdict_object_congr fun index inside =>
        ih index _ _ (List.getElem?_eq_getElem inside)
          (each index _ _ (List.getElem?_eq_getElem inside))

end Verdicts
end GraphQL.Execution
