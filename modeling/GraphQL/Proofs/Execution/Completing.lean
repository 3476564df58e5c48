import GraphQL.Proofs.Execution.Completions

/-! Deciding what a value is completed as: which object type it has at a type without wrappers, or
its outcome if it is not completed as an object. The host is asked for no values here. -/
namespace GraphQL.Execution

variable {τ σ : Type}

namespace Executor

variable (executor : Executor τ σ)

/-- Whether a value is accepted as an object of a type, or its error. -/
def admitted (site : Site) (path : Path) (type : ObjectType) (value : FieldValue τ) :
    Exec σ (Except Outcome ObjectType) := do
  let accepted ←
    match type.isTypeOf with
    | some handle => ask (executor.host.isTypeOf handle value ⟨executor.plan, site, path⟩)
    | none => pure true
  if accepted then return .ok type
  else
    return .error (.error (site.error path
      ("Expected value of type \"" ++ type.name ++ "\" but got: " ++ executor.host.describe value
        ++ ".")))

/-- The object type that a value is completed as at a type without wrappers, or its outcome if it
is not completed as an object. -/
def objectType (site : Site) (path : Path) (name : String) (value : FieldValue τ) :
    Exec σ (Except Outcome ObjectType) := do
  let refused := Except.error (Except.error
    (site.error path ("Cannot complete a value of type \"" ++ name ++ "\".")))
  match executor.plan.schema.type? name with
  | some (.object type) => executor.admitted site path type value
  | some type =>
      if type.isLeaf then return .error (executor.leaf site path type value)
      else if type.isAbstract then
        match ← executor.runtimeType site path type value with
        | .ok object => executor.admitted site path object value
        | .error error => return .error (.error error)
      else return refused
  | none => return refused

/-- Completes a value whose object type is known. -/
def asChosen (complete : Complete τ σ) (site : Site) (path : Path) (value : FieldValue τ) :
    Except Outcome ObjectType → Exec σ (Completion τ)
  | .ok object =>
      executor.object complete object path value (executor.plan.collect object (setsOf site.nodes))
  | .error outcome => return .settled outcome

end Executor

section Named
variable (executor : Executor τ σ) (complete : Executor.Complete τ σ) (site : Site) (path : Path)
  (value : FieldValue τ)

theorem asObject_eq (type : ObjectType) : executor.asObject complete site path type value =
    executor.admitted site path type value >>= executor.asChosen complete site path value := by
  rw [Executor.asObject, Executor.admitted]
  cases type.isTypeOf with
  | none => rfl
  | some handle =>
    dsimp only
    rw [bind_assoc]
    congr
    funext accepted
    cases accepted <;> rfl

theorem asNamed_eq (name : String) : executor.asNamed complete site path name value =
    executor.objectType site path name value >>= executor.asChosen complete site path value := by
  rw [Executor.asNamed, Executor.objectType]
  have abstract (type : TypeDef) : (do
      match ← executor.runtimeType site path type value with
      | .ok object => executor.asObject complete site path object value
      | .error error => return .settled (.error error)) = (do
      match ← executor.runtimeType site path type value with
      | .ok object => executor.admitted site path object value
      | .error error => return .error (.error error)) >>=
        executor.asChosen complete site path value := by
    rw [bind_assoc]
    congr
    funext result
    cases result with
    | ok object => exact asObject_eq executor complete site path value object
    | error error => rfl
  cases executor.plan.schema.type? name with
  | none => rfl
  | some type =>
    cases type with
    | object type => exact asObject_eq executor complete site path value type
    | interface type => exact abstract (.interface type)
    | union type => exact abstract (.union type)
    | _ => rfl

end Named

/-- Deciding the object types of a field's values keeps an invariant of the host's state. -/
structure Judges (executor : Executor τ σ) (I : σ → Prop) (site : Site) : Prop where
  isTypeOf : ∀ handle value path state, I state →
    I ((executor.host.isTypeOf handle value ⟨executor.plan, site, path⟩).run state).2
  resolveType : ∀ handle value path state, I state →
    I ((executor.host.resolveType handle value ⟨executor.plan, site, path⟩).run state).2

/-- What is decided of a value at a type without wrappers: an object type that can stand for it, or
an outcome that conforms to the type. -/
def Decided (plan : Plan τ) (site : Site) (path : Path) (name : String) :
    Except Outcome ObjectType → Prop
  | .ok object => RuntimeType plan.schema name object
  | .error outcome => Settles (Conforms plan (setsOf site.nodes) (.named name)) path outcome []

section Deciding
variable {executor : Executor τ σ} {I : σ → Prop} {site : Site}

/-- The outcome of a scalar or an enum conforms to it. -/
theorem leaf_settles (executor : Executor τ σ) (path : Path) {name : String} {type : TypeDef}
    (known : executor.plan.schema.type? name = some type) (value : FieldValue τ) :
    Settles (Conforms executor.plan (setsOf site.nodes) (.named name)) path
      (executor.leaf site path type value) [] := by
  have failed (message : String) :
      Settles (Conforms executor.plan (setsOf site.nodes) (.named name)) path
        (.error (site.error path message)) [] := Recorded.single rfl
  have stands {result : Value}
      (conforms : Conforms executor.plan (setsOf site.nodes) (.named name) result) :
      Settles (Conforms executor.plan (setsOf site.nodes) (.named name)) path (.ok result) [] :=
    ⟨conforms, .nil path result, fun _ => rfl⟩
  unfold Executor.leaf
  cases value with
  | value plain =>
    cases type with
    | scalar scalar =>
      dsimp only
      cases serialized : scalar.serialize plain with
      | ok result => exact stands (.scalar known serialized)
      | error message => exact failed message
    | enum enum =>
      dsimp only
      cases serialized : enum.serialize plain with
      | none => exact failed _
      | some result => exact stands (.enum known serialized)
    | _ => exact failed _
  | _ => exact failed _

theorem object?_name {schema : Schema} {name : String} {object : ObjectType}
    (found : schema.object? name = some object) : schema.object? object.name = some object := by
  obtain ⟨type, known, same⟩ := Option.bind_eq_some_iff.1 found
  cases type with
  | object _ =>
    cases same
    have called : object.name = name := by simpa [TypeDef.name] using List.find?_some known
    rwa [called]
  | _ => cases same

theorem admitted_consults (judges : Judges executor I site) (path : Path) {name : String}
    {type : ObjectType} (runtime : RuntimeType executor.plan.schema name type)
    (value : FieldValue τ) :
    Consults I (executor.admitted site path type value)
      (Decided executor.plan site path name) := by
  rw [Executor.admitted]
  cases type.isTypeOf with
  | none => exact .pure runtime
  | some handle =>
    have asked : Consults I
        (ask (executor.host.isTypeOf handle value ⟨executor.plan, site, path⟩)) fun _ => True :=
      ask_consults fun state holds => ⟨judges.isTypeOf handle value path state holds, trivial⟩
    refine asked.bind fun accepted _ => ?_
    cases accepted with
    | true => exact .pure runtime
    | false => exact .pure (Recorded.single rfl)

theorem accepting_consults (judges : Judges executor I site) (path : Path) (value : FieldValue τ)
    (objects : List ObjectType) :
    Consults I (executor.accepting value ⟨executor.plan, site, path⟩ objects) fun _ => True := by
  induction objects with
  | nil => exact .pure trivial
  | cons object rest ih =>
    rw [Executor.accepting]
    cases object.isTypeOf with
    | none => exact ih
    | some handle =>
      have asked : Consults I
          (ask (executor.host.isTypeOf handle value ⟨executor.plan, site, path⟩)) fun _ => True :=
        ask_consults fun state holds => ⟨judges.isTypeOf handle value path state holds, trivial⟩
      refine asked.bind fun accepts _ => ?_
      cases accepts with
      | true => exact .pure trivial
      | false => exact ih

theorem runtimeName_consults (judges : Judges executor I site) (path : Path) (type : TypeDef)
    (value : FieldValue τ) :
    Consults I (executor.runtimeName type value ⟨executor.plan, site, path⟩) fun _ => True := by
  rw [Executor.runtimeName]
  split
  · exact ask_consults fun state holds => ⟨judges.resolveType _ value path state holds, trivial⟩
  · refine (accepting_consults judges path value _).bind fun name _ => ?_
    cases name <;> exact .pure trivial

/-- A value at an abstract type has an object type that can stand for it, or it is an error. -/
theorem runtimeType_consults (judges : Judges executor I site) (path : Path) {name : String}
    {type : TypeDef} (known : executor.plan.schema.type? name = some type)
    (abstract : type.isAbstract = true) (value : FieldValue τ) :
    Consults I (executor.runtimeType site path type value) fun result =>
      match result with
      | .ok object => RuntimeType executor.plan.schema name object
      | .error error => error.path = some path := by
  rw [Executor.runtimeType]
  refine (runtimeName_consults judges path type value).bind fun called _ => ?_
  cases found : called.bind executor.plan.schema.object? with
  | none => exact .pure rfl
  | some object =>
    dsimp only
    split
    · rename_i possible
      obtain ⟨first, _, here⟩ := Option.bind_eq_some_iff.1 found
      exact .pure (.possible known abstract (object?_name here) possible)
    · exact .pure rfl

theorem objectType_consults (judges : Judges executor I site) (path : Path) (name : String)
    (value : FieldValue τ) : Consults I (executor.objectType site path name value)
      (Decided executor.plan site path name) := by
  have refused (message : String) :
      Decided executor.plan site path name (.error (.error (site.error path message))) :=
    Recorded.single rfl
  rw [Executor.objectType]
  split
  · rename_i object known
    exact admitted_consults judges path (.declared known) value
  · rename_i type _ known
    split
    · exact .pure (leaf_settles executor path known value)
    · split
      · rename_i abstract
        refine (runtimeType_consults judges path known abstract value).bind fun result fits => ?_
        cases result with
        | error error => exact .pure (Recorded.single fits)
        | ok object => exact admitted_consults judges path fits value
      · exact .pure (refused _)
  · exact .pure (refused _)

end Deciding
end GraphQL.Execution

/-! Completing values: what is not known yet keeps its promise, and so does what is. The host is
asked about resolved fields only. -/
namespace GraphQL.Execution
open Ast (SelectionSet)

variable {τ σ : Type}

/-- All that the host does for an execution keeps an invariant of its state. It is told of no
other fields than those that the execution resolves. -/
structure Keeps (executor : Executor τ σ) (root : ObjectType) (I : σ → Prop) : Prop where
  resolve : ∀ site, executor.plan.Resolves root site → ∀ path source arguments state, I state →
    I ((executor.resolve site path source arguments).run state).2
  isTypeOf : ∀ site, executor.plan.Resolves root site → ∀ handle value path state, I state →
    I ((executor.host.isTypeOf handle value ⟨executor.plan, site, path⟩).run state).2
  resolveType : ∀ site, executor.plan.Resolves root site → ∀ handle value path state, I state →
    I ((executor.host.resolveType handle value ⟨executor.plan, site, path⟩).run state).2
  compute : ∀ source state, I state → I ((executor.host.compute source).run state).2

theorem Keeps.judges {executor : Executor τ σ} {root : ObjectType} {I : σ → Prop} {site : Site}
    (keeps : Keeps executor root I) (resolves : executor.plan.Resolves root site) :
    Judges executor I site :=
  ⟨keeps.isTypeOf site resolves, keeps.resolveType site resolves⟩

/-- A way of completing values at the types inside resolved fields. -/
def Completes (executor : Executor τ σ) (root : ObjectType) (I : σ → Prop)
    (complete : Executor.Complete τ σ) : Prop :=
  ∀ site type path value, executor.plan.Places root site type →
    Ensures I (complete site type path value)
      (Sound executor.plan root (Conforms executor.plan (setsOf site.nodes) type) path)

section Fields
variable {executor : Executor τ σ} {root : ObjectType} {I : σ → Prop}
  {complete : Executor.Complete τ σ} {site : Site}

theorem call_ensures (keeps : Keeps executor root I) (resolves : executor.plan.Resolves root site)
    (path : Path) (source : FieldValue τ) :
    Ensures I (executor.call site path source) fun _ errors => errors = [] ∧ True := by
  rw [Executor.call]
  split
  · exact ask_ensures (keeps.resolve site resolves path source _)
  · exact .pure ⟨rfl, trivial⟩

/-- What a resolver has answered is completed, and an error guarded if it can be. -/
theorem completed_ensures (completes : Completes executor root I complete)
    (resolves : executor.plan.Resolves root site) (path : Path) (value : FieldValue τ) :
    Ensures I (complete site site.field.type path value >>= Completion.guardAt site.field.type)
      (Shielded executor.plan root (Conforms executor.plan (setsOf site.nodes) site.field.type)
        path) :=
  (completes site site.field.type path value ⟨resolves, rfl⟩).bind
    fun _ _ sound => guardAt_ensures sound .null

theorem field_ensures (keeps : Keeps executor root I) (completes : Completes executor root I complete)
    (resolves : executor.plan.Resolves root site) (path : Path) (source : FieldValue τ) :
    Ensures I (executor.field complete site path source)
      (Shielded executor.plan root (Conforms executor.plan (setsOf site.nodes) site.field.type)
        path) := by
  rw [Executor.field]
  refine (call_ensures keeps resolves path source).silent fun result _ => ?_
  cases result with
  | ok value => exact completed_ensures completes resolves path value
  | error message => exact guardAt_ensures (failed_sound site message) .null

/-- The completions of an object's fields, apart from their keys. -/
theorem fields_apart (executor : Executor τ σ) (complete : Executor.Complete τ σ)
    (parent : ObjectType) (path : Path) (source : FieldValue τ) (groups : Groups Ast.Field) :
    (fun parts => (parts.map Prod.fst, parts.map Prod.snd)) <$>
        executor.fields complete parent path source groups =
      (fun completions => ((executor.sites parent groups).map Prod.fst, completions)) <$>
        (executor.sites parent groups).mapM fun found =>
          executor.field complete found.2 (path ++ [.key found.1]) source := by
  induction groups with
  | nil => rfl
  | cons group rest ih =>
    obtain ⟨key, nodes⟩ := group
    rw [Executor.fields, Executor.sites, List.filterMap_cons]
    cases executor.site? parent nodes with
    | none => exact ih
    | some site =>
      rw [← Executor.sites]
      simp only [Option.map_some, List.mapM_cons, List.map_cons, map_eq_pure_bind, bind_assoc,
        pure_bind] at ih ⊢
      congr
      funext first
      have extended := congrArg (fun step => step >>= fun pair =>
        (pure (key :: pair.1, first :: pair.2) : Exec σ (List String × List (Completion τ)))) ih
      simpa only [bind_assoc, pure_bind] using extended

theorem object_eq (executor : Executor τ σ) (complete : Executor.Complete τ σ) (parent : ObjectType)
    (path : Path) (source : FieldValue τ) (groups : Groups Ast.Field) :
    executor.object complete parent path source groups =
      (Completion.join (.object ((executor.sites parent groups).map Prod.fst))) <$>
        (executor.sites parent groups).mapM fun found =>
          executor.field complete found.2 (path ++ [.key found.1]) source := by
  have joined := congrArg (fun step => (fun pair =>
    Completion.join (.object pair.1) pair.2) <$> step)
    (fields_apart executor complete parent path source groups)
  simpa only [Functor.map_map, Executor.object, map_eq_pure_bind, bind_assoc, pure_bind] using joined

/-- Settles fields one after the other. The first error ends it. -/
def Executor.settleInTurn (executor : Executor τ σ) (limits : Limits) (source : FieldValue τ) :
    List (String × Site) → Exec σ (Except ResponseError (Entries Value))
  | [] => return .ok []
  | (key, site) :: rest => do
      match ← executor.field (executor.complete limits.depth) site [.key key] source >>=
          executor.settle limits with
      | .error error => return .error error
      | .ok value => return (← settleInTurn executor limits source rest).map ((key, value) :: ·)

theorem inTurn_eq (executor : Executor τ σ) (limits : Limits) (parent : ObjectType)
    (source : FieldValue τ) (groups : Groups Ast.Field) :
    executor.inTurn limits parent source groups =
      executor.settleInTurn limits source (executor.sites parent groups) := by
  induction groups with
  | nil => rfl
  | cons group rest ih =>
    obtain ⟨key, nodes⟩ := group
    rw [Executor.inTurn, Executor.sites, List.filterMap_cons]
    cases executor.site? parent nodes with
    | none => exact ih
    | some site =>
      rw [Option.map_some, ← Executor.sites]
      dsimp only
      rw [Executor.settleInTurn, ← bind_assoc, ih]
      congr
      funext outcome
      cases outcome with
      | error error => rfl
      | ok value =>
        dsimp only
        congr
        funext result
        cases result <;> rfl

/-- The sites of an object are told apart by their keys. -/
theorem sites_addresses (executor : Executor τ σ) (object : ObjectType) (sets : List SelectionSet) :
    Shape.Addresses
      (.object ((executor.sites object (executor.plan.collect object sets)).map Prod.fst))
      ((executor.sites object (executor.plan.collect object sets)).map fun found =>
        .key found.1) := by
  have distinct := answered_nodup executor.plan object sets
  rw [← keys_sites executor] at distinct
  have addresses := Shape.Addresses.object distinct
  rwa [List.map_map] at addresses

/-- What conforms at each site answers the object. -/
theorem answers_sites {object : ObjectType} {sets : List SelectionSet} {values : List Value}
    (each : List.Forall₂ (fun found value =>
      Conforms executor.plan (setsOf found.2.nodes) found.2.field.type value)
      (executor.sites object (executor.plan.collect object sets)) values) :
    Answers executor.plan object sets ((executor.plan.answered object sets).zip values) := by
  have keys : Entries.keys ((executor.plan.answered object sets).zip values) =
      executor.plan.answered object sets := by
    refine List.map_fst_zip (Nat.le_of_eq ?_)
    rw [← each.length_eq, ← keys_sites, List.length_map]
  have nodup := answered_nodup executor.plan object sets
  refine .entries keys (by rwa [keys]) fun key nodes field value collected found member => ?_
  rw [← keys_sites executor, List.zip_map_left, List.mem_map] at member
  obtain ⟨⟨⟨first, site⟩, other⟩, member, same⟩ := member
  cases same
  obtain ⟨rfl, known, defined⟩ := mem_sites.1 (List.of_mem_zip member).1
  obtain rfl := collect_unique known collected
  rw [found] at defined
  cases defined
  exact (List.forall₂_iff_zip.1 each).2 member

theorem object_ensures (keeps : Keeps executor root I) (completes : Completes executor root I complete)
    {object : ObjectType} {sets : List SelectionSet} {goal : Value → Prop}
    (reached : executor.plan.Reaches root object sets)
    (fits : ∀ entries, Answers executor.plan object sets entries → goal (.object entries))
    (path : Path) (source : FieldValue τ) :
    Ensures I (executor.object complete object path source (executor.plan.collect object sets))
      (Sound executor.plan root goal path) := by
  rw [object_eq]
  refine (mapM_ensures fun found member => field_ensures keeps completes
    (resolves_of_mem reached member) (path ++ [.key found.1]) source).map
    fun completions errors answered => ?_
  obtain ⟨parts, sites, rfl, rfl, each⟩ := answered
  rw [Completion.join, ← sites]
  refine gather_parts (fun found => .key found.1)
    (fun found => Conforms executor.plan (setsOf found.2.nodes) found.2.field.type) _
    (sites ▸ sites_addresses executor object sets) (fun values conforms => fits _ ?_) each
  rw [sites] at conforms ⊢
  rw [keys_sites]
  exact answers_sites conforms

end Fields

section Positions
variable {executor : Executor τ σ} {root : ObjectType} {I : σ → Prop}
  {complete : Executor.Complete τ σ} {site : Site}

theorem items_eq (complete : FieldValue τ → Path → Exec σ (Completion τ)) (item : TypeRef)
    (path : Path) (index : Nat) (values : List (FieldValue τ)) :
    Executor.items complete item path index values = (values.zipIdx index).mapM fun found =>
      complete found.1 (path ++ [.index found.2]) >>= Completion.guardAt item := by
  induction values generalizing index with
  | nil => rfl
  | cons value rest ih =>
    rw [Executor.items, List.zipIdx_cons, List.mapM_cons]
    simp only [ih, bind_assoc]

theorem items_addresses (values : List (FieldValue τ)) :
    Shape.Addresses .list (values.zipIdx.map fun found => .index found.2) := by
  have counted := Shape.Addresses.list values.length
  rwa [List.range_eq_range', ← List.zipIdx_map_snd 0 values, List.map_map] at counted

/-- The object of a value at a resolved field is reached. -/
theorem reaches_of_resolves {plan : Plan τ} (resolves : plan.Resolves root site) {object : ObjectType}
    (runtime : RuntimeType plan.schema site.field.type.innermost object) :
    plan.Reaches root object (setsOf site.nodes) := by
  obtain ⟨sets, key, reached, collected, defined⟩ := resolves
  exact .field reached collected defined runtime

theorem asNamed_ensures (keeps : Keeps executor root I)
    (completes : Completes executor root I complete) {name : String}
    (places : executor.plan.Places root site (.named name)) (path : Path) (value : FieldValue τ) :
    Ensures I (executor.asNamed complete site path name value)
      (Sound executor.plan root (Conforms executor.plan (setsOf site.nodes) (.named name)) path) := by
  obtain ⟨resolves, innermost⟩ := places
  rw [asNamed_eq]
  refine (objectType_consults (keeps.judges resolves) path name value).ensures.silent
    fun answer decided => ?_
  cases answer with
  | error outcome => exact .pure (.settled decided)
  | ok object =>
    have runtime : RuntimeType executor.plan.schema name object := decided
    have reached := reaches_of_resolves resolves (show RuntimeType _ _ object by rwa [← innermost])
    exact object_ensures keeps completes reached (fun entries answers => .object runtime answers)
      path value

/-- Whatever the items of a list are completed to conforms, or the list does not. -/
theorem items_ensures {complete : FieldValue τ → Path → Exec σ (Completion τ)} {plan : Plan τ}
    {sets : List SelectionSet} {item : TypeRef}
    (completes : ∀ value path, Ensures I (complete value path)
      (Sound plan root (Conforms plan sets item) path)) (path : Path) (values : List (FieldValue τ)) :
    Ensures I (Completion.join .list <$> Executor.items complete item path 0 values)
      (Sound plan root (Conforms plan sets (.list item)) path) := by
  rw [items_eq]
  refine (mapM_ensures (P := fun found => Shielded plan root (Conforms plan sets item)
    (path ++ [.index found.2])) fun found member => ?_).map fun completions errors answered => ?_
  · exact (completes found.1 _).bind fun completion errors sound => guardAt_ensures sound .null
  · obtain ⟨parts, indices, rfl, rfl, each⟩ := answered
    refine gather_parts (fun found => .index found.2) (fun _ => Conforms plan sets item) _
      (indices ▸ items_addresses values) (fun values conforms => .list ?_) each
    intro value member
    obtain ⟨position, here⟩ := List.mem_iff_getElem?.1 member
    obtain ⟨inside, same⟩ := List.getElem?_eq_some_iff.1 here
    have fits := (List.forall₂_iff_get.1 conforms).2 position (by rwa [conforms.length_eq]) inside
    rwa [← same]

/-- A completion at any type keeps its promise. -/
theorem complete_ensures (keeps : Keeps executor root I) (depth : Nat) :
    Completes executor root I (executor.complete depth) := by
  induction depth with
  | zero => exact fun _ _ _ _ _ => failure_ensures
  | succ depth ih =>
    intro site type path value places
    rw [Executor.complete.eq_def]
    dsimp only
    split
    · exact .pure (.awaiting places fun _ conforms => conforms)
    · rename_i inner _
      refine (ih site inner path value places).bind fun completion errors sound => .pure ?_
      rw [List.append_nil]
      exact require_sound site sound fun value conforms solid => .nonNull solid conforms
    · rename_i item _
      split
      · exact .pure (sound_value (.null rfl))
      · split
        · rename_i values _
          have joined := items_ensures (fun value path => ih site item path value places) path values
          rwa [map_eq_pure_bind] at joined
        · exact .pure (failed_sound site _)
    · rename_i name _
      split
      · exact .pure (sound_value (.null rfl))
      · exact asNamed_ensures keeps ih places path value

end Positions
end GraphQL.Execution
