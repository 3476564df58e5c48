import GraphQL.Proofs.Execution.Termination
import GraphQL.Proofs.Execution.Verdicts

/-! Hosts that give replies. Whatever a host hands out comes to the reply of its field, at once or
later, and types are decided as the replies say. -/
namespace GraphQL.Execution

variable {τ σ α β : Type}

/-- An action answers as a plain one does. It records nothing, and the host keeps a property. -/
def Mirrors (I : σ → Prop) (action : Exec σ α) (plain : Exec Unit α) : Prop :=
  Consults I action fun answer => plain.run ⟨(), []⟩ = some (answer, ⟨(), []⟩)

section Mirroring
variable {I : σ → Prop} {action : Exec σ α} {plain : Exec Unit α}

theorem Mirrors.pure (a : α) : Mirrors I (Pure.pure a : Exec σ α) (Pure.pure a) :=
  Consults.pure rfl

theorem Mirrors.bind {f : α → Exec σ β} {g : α → Exec Unit β} (first : Mirrors I action plain)
    (next : ∀ a, Mirrors I (f a) (g a)) : Mirrors I (action >>= f) (plain >>= g) := by
  refine Consults.bind first fun a same trace holds => ?_
  rw [StateT.run_bind, same]
  exact next a trace holds

theorem Mirrors.ask {action : StateM σ α} {answer : α}
    (answers : ∀ state, I state → I (action.run state).2 ∧ (action.run state).1 = answer) :
    Mirrors I (Execution.ask action) (Execution.ask (Pure.pure answer)) :=
  ask_consults fun state holds => by
    obtain ⟨kept, rfl⟩ := answers state holds
    exact ⟨kept, rfl⟩

end Mirroring

/-- The host decides the types of a field's values as the replies say. -/
structure Decides (executor : Executor τ σ) (replies : Replies τ) (I : σ → Prop) (site : Site) :
    Prop where
  typeName : executor.host.typeName = replies.typeName
  isTypeOf : ∀ handle value path state, I state →
    let answer := (executor.host.isTypeOf handle value ⟨executor.plan, site, path⟩).run state
    I answer.2 ∧ answer.1 = replies.isTypeOf handle value ⟨executor.plan, site, path⟩
  resolveType : ∀ handle value path state, I state →
    let answer := (executor.host.resolveType handle value ⟨executor.plan, site, path⟩).run state
    I answer.2 ∧ answer.1 = replies.resolveType handle value ⟨executor.plan, site, path⟩

section Deciding
variable {executor : Executor τ σ} {replies : Replies τ} {I : σ → Prop} {site : Site}

theorem Decides.describe (decides : Decides executor replies I site) :
    executor.host.describe = replies.host.describe := by
  funext value
  cases value with
  | object object =>
    rw [Host.describe, Host.describe, decides.typeName]
    rfl
  | _ => rfl

theorem Decides.reportedType (decides : Decides executor replies I site) :
    executor.host.reportedType = replies.host.reportedType := by
  funext value
  cases value with
  | object object =>
    rw [Host.reportedType, Host.reportedType, decides.typeName]
    rfl
  | _ => rfl

theorem Decides.leaf (decides : Decides executor replies I site) (path : Path) (type : TypeDef)
    (value : FieldValue τ) : executor.leaf site path type value =
      (replies.executor executor.plan).leaf site path type value := by
  unfold Executor.leaf
  rw [decides.describe]
  rfl

theorem admitted_mirrors (decides : Decides executor replies I site) (path : Path)
    (type : ObjectType) (value : FieldValue τ) :
    Mirrors I (executor.admitted site path type value)
      ((replies.executor executor.plan).admitted site path type value) := by
  rw [Executor.admitted, Executor.admitted, decides.describe]
  cases type.isTypeOf with
  | none => exact .pure _
  | some handle =>
    refine .bind (.ask (decides.isTypeOf handle value path)) fun accepted => ?_
    cases accepted <;> exact .pure _

theorem accepting_mirrors (decides : Decides executor replies I site) (path : Path)
    (value : FieldValue τ) (objects : List ObjectType) :
    Mirrors I (executor.accepting value ⟨executor.plan, site, path⟩ objects)
      ((replies.executor executor.plan).accepting value ⟨executor.plan, site, path⟩ objects) := by
  induction objects with
  | nil => exact .pure none
  | cons object rest ih =>
    rw [Executor.accepting, Executor.accepting]
    cases object.isTypeOf with
    | none => exact ih
    | some handle =>
      refine .bind (.ask (decides.isTypeOf handle value path)) fun accepts => ?_
      cases accepts with
      | true => exact .pure _
      | false => exact ih

theorem runtimeName_mirrors (decides : Decides executor replies I site) (path : Path)
    (type : TypeDef) (value : FieldValue τ) :
    Mirrors I (executor.runtimeName type value ⟨executor.plan, site, path⟩)
      ((replies.executor executor.plan).runtimeName type value ⟨executor.plan, site, path⟩) := by
  rw [Executor.runtimeName, Executor.runtimeName, decides.reportedType]
  cases type.resolveType? with
  | some handle => exact .ask (decides.resolveType handle value path)
  | none =>
    refine .bind (accepting_mirrors decides path value _) fun name => ?_
    cases name <;> exact .pure _

theorem runtimeType_mirrors (decides : Decides executor replies I site) (path : Path)
    (type : TypeDef) (value : FieldValue τ) :
    Mirrors I (executor.runtimeType site path type value)
      ((replies.executor executor.plan).runtimeType site path type value) := by
  rw [Executor.runtimeType, Executor.runtimeType, decides.describe, Replies.executor_plan]
  refine .bind (runtimeName_mirrors decides path type value) fun name => ?_
  cases name.bind executor.plan.schema.object? with
  | none => exact .pure _
  | some object =>
    dsimp only
    split <;> exact .pure _

theorem objectType_mirrors (decides : Decides executor replies I site) (path : Path)
    (name : String) (value : FieldValue τ) :
    Mirrors I (executor.objectType site path name value)
      ((replies.executor executor.plan).objectType site path name value) := by
  rw [Executor.objectType, Executor.objectType, Replies.executor_plan]
  cases executor.plan.schema.type? name with
  | none => exact .pure _
  | some type =>
    cases type with
    | object object => exact admitted_mirrors decides path object value
    | scalar _ | enum _ =>
      dsimp only
      rw [decides.leaf]
      exact .pure _
    | interface _ | union _ =>
      refine .bind (runtimeType_mirrors decides path _ value) fun result => ?_
      cases result with
      | ok object => exact admitted_mirrors decides path object value
      | error error => exact .pure _
    | inputObject _ => exact .pure _

/-- A value is completed as an object of a type that can stand at its position. -/
theorem Replies.Chooses.runtime {plan : Plan τ} {path : Path} {name : String} {value : FieldValue τ}
    {object : ObjectType} (chosen : replies.Chooses plan site path name value (.ok object)) :
    RuntimeType plan.schema name object := by
  have judges : Judges (replies.executor plan) (fun _ => True) site :=
    ⟨fun _ _ _ _ _ => trivial, fun _ _ _ _ _ => trivial⟩
  obtain ⟨answer, _, run, -, decided⟩ := objectType_consults judges path name value ⟨(), []⟩ trivial
  rw [chosen] at run
  cases run
  exact decided

end Deciding

/-- What the host is asked for when a field is called. Arguments that are refused are not passed
on. -/
def Executor.supply (executor : Executor τ σ) (site : Site) (path : Path) (source : FieldValue τ) :
    StateM σ (FieldResult τ) :=
  let given := (site.nodes.head?.map Ast.Field.arguments).getD []
  let plan := executor.plan
  match argumentValues plan.schema plan.bindings given site.field.arguments.items with
  | .ok arguments => executor.resolve site path source arguments
  | .error fault => return .error fault.message

/-- A field that is called in a state with the first property comes to its reply, in states with
the second one. -/
def Supplies (executor : Executor τ σ) (I J : σ → Prop) (replies : Replies τ) (site : Site)
    (path : Path) (source : FieldValue τ) : Prop :=
  ∀ state, I state →
    let answer := (executor.supply site path source).run state
    J answer.2 ∧ Comes executor.host J site.field.type answer.1
      (replies.call executor.plan site path source)

/-- The host gives the replies below the fields of the root. -/
structure Alike (executor : Executor τ σ) (root : ObjectType) (replies : Replies τ)
    (I : σ → Prop) : Prop where
  decides : ∀ site, executor.plan.Resolves root site → Decides executor replies I site
  supplies : ∀ site, executor.plan.Resolves root site → ∀ path key source, path ≠ [] →
    Supplies executor I I replies site (path ++ [.key key]) source

/-- The host gives the replies in a whole execution. They, and what is known of the host, depend on
the fields of the root that have been called one after the other. -/
structure Gives (executor : Executor τ σ) (root : ObjectType) (replies : List String → Replies τ)
    (I : List String → σ → Prop) : Prop where
  starts : ∀ before key site, (key, site) ∈
      executor.sites root (executor.plan.collect root [executor.plan.operation.selectionSet]) →
    let called := executor.plan.called before key
    Supplies executor (I before) (I called) (replies called) site [.key key] executor.plan.root
  alike : ∀ called, Alike executor root (replies called) (I called)

section Supplying
variable {executor : Executor τ σ} {I J : σ → Prop} {replies : Replies τ} {site : Site}
  {path : Path} {source : FieldValue τ}

theorem call_eq (executor : Executor τ σ) (site : Site) (path : Path) (source : FieldValue τ) :
    executor.call site path source = ask (executor.supply site path source) := by
  rw [Executor.call, Executor.supply]
  generalize argumentValues _ _ _ _ = bound
  cases bound <;> rfl

theorem Supplies.leads (supplies : Supplies executor I J replies site path source) :
    Leads I J (executor.call site path source) fun result errors => errors = [] ∧
      Comes executor.host J site.field.type result
        (replies.call executor.plan site path source) := by
  rw [call_eq]
  exact ask_leads supplies

theorem Supplies.returns (supplies : Supplies executor I J replies site path source) :
    Returns I J (fun _ => executor.call site path source) fun result =>
      Comes executor.host J site.field.type result
        (replies.call executor.plan site path source) := by
  rw [call_eq]
  refine (ask_returns fun state holds => (supplies state holds).1).mono fun result answered => ?_
  obtain ⟨state, holds, rfl⟩ := answered
  exact (supplies state holds).2

end Supplying
end GraphQL.Execution
