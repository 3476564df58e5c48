import GraphQL.Execution.Introspection
import GraphQL.Execution.Request
import GraphQL.Proofs.Execution.Resting

/-! Answers of a schema about itself: whatever it tells is there at once. -/
namespace GraphQL.Execution

variable {τ : Type}

/-- The value that is still to come. -/
def FieldValue.later? : FieldValue τ → Option (Later τ)
  | .deferred later => some later
  | _ => none

/-- A value that is there with all its items. -/
inductive Present : FieldValue τ → Prop
  | intro {value : FieldValue τ} : value.later? = none →
      (∀ items, value = .list items → ∀ item ∈ items, Present item) → Present value

/-- A failure, or a value that is there. -/
def Told (result : FieldResult τ) : Prop := ∀ value, result = .ok value → Present value

section Told

theorem present_value (value : Value) : Present (.value value : FieldValue τ) :=
  .intro rfl fun _ same => by cases same

theorem present_described (described : Described) : Present (.described described : FieldValue τ) :=
  .intro rfl fun _ same => by cases same

theorem present_list {α : Type} {f : α → FieldValue τ} (items : List α)
    (each : ∀ item, Present (f item)) : Present (.list (items.map f)) := by
  refine .intro rfl fun items same item member => ?_
  cases same
  obtain ⟨inner, _, rfl⟩ := List.mem_map.1 member
  exact each inner

theorem present_option {α : Type} {f : α → FieldValue τ} (option : Option α)
    (each : ∀ item, Present (f item)) : Present (.ofOption f option) := by
  cases option with
  | none => exact present_value .null
  | some item => exact each item

theorem told_ok {value : FieldValue τ} (present : Present value) : Told (.ok value) :=
  fun _ same => by cases same; exact present

theorem told_null : Told (.ok .null : FieldResult τ) := told_ok (present_value .null)

theorem told_described (described : Described) :
    Told (.ok (.described described) : FieldResult τ) :=
  told_ok (present_described described)

theorem told_text (s : String) : Told (Introspection.text s : FieldResult τ) :=
  told_ok (present_value _)

theorem told_truth (b : Bool) : Told (Introspection.truth b : FieldResult τ) :=
  told_ok (present_value _)

theorem told_optionalText (s : Option String) :
    Told (Introspection.optionalText s : FieldResult τ) :=
  told_ok (present_option s fun _ => present_value _)

theorem told_inputs (arguments : List InputValue) :
    Told (Introspection.inputs arguments : FieldResult τ) :=
  told_ok (present_list arguments fun _ => present_described _)

theorem told_optionalList {α : Type} {f : α → FieldValue τ} (items : Option (List α))
    (each : ∀ item, Present (f item)) : Told (Introspection.optionalList f items) :=
  told_ok (present_option items fun inner => present_list inner each)

theorem ofSchema_told (schema : Schema) (name : String) :
    Told (Introspection.ofSchema schema name : FieldResult τ) := by
  unfold Introspection.ofSchema
  split
  · exact told_ok (present_list _ fun _ => present_described _)
  · exact told_described _
  · exact told_ok (present_option _ fun _ => present_described _)
  · exact told_ok (present_option _ fun _ => present_described _)
  · exact told_ok (present_list _ fun _ => present_described _)
  · exact told_null

theorem ofType_told (schema : Schema) (type : TypeRef) (withDeprecated : Bool) (name : String) :
    Told (Introspection.ofType schema type withDeprecated name : FieldResult τ) := by
  unfold Introspection.ofType
  split
  · cases Introspection.kindOf schema type with
    | error message => exact fun value same => by cases same
    | ok kind => exact told_ok (present_value _)
  · exact told_optionalText _
  · exact told_optionalText _
  · exact told_optionalList _ fun _ => present_described _
  · exact told_optionalList _ fun _ => present_described _
  · exact told_optionalList _ fun _ => present_described _
  · exact told_optionalList _ fun _ => present_described _
  · exact told_optionalList _ fun _ => present_described _
  · cases type with
    | named name => exact told_null
    | _ => exact told_described _
  · exact told_null

theorem ofField_told (field : Field) (name : String) :
    Told (Introspection.ofField field name : FieldResult τ) := by
  unfold Introspection.ofField
  split
  · exact told_text _
  · exact told_optionalText _
  · exact told_inputs _
  · exact told_described _
  · exact told_truth _
  · exact told_optionalText _
  · exact told_null

theorem ofInput_told (schema : Schema) (input : InputValue) (name : String) :
    Told (Introspection.ofInput schema input name : FieldResult τ) := by
  unfold Introspection.ofInput
  split
  · exact told_text _
  · exact told_optionalText _
  · exact told_described _
  · exact told_optionalText _
  · exact told_null

theorem ofEnumValue_told (value : EnumValue) (name : String) :
    Told (Introspection.ofEnumValue value name : FieldResult τ) := by
  unfold Introspection.ofEnumValue
  split
  · exact told_text _
  · exact told_optionalText _
  · exact told_truth _
  · exact told_optionalText _
  · exact told_null

theorem ofDirective_told (directive : DirectiveDef) (name : String) :
    Told (Introspection.ofDirective directive name : FieldResult τ) := by
  unfold Introspection.ofDirective
  split
  · exact told_text _
  · exact told_optionalText _
  · exact told_ok (present_list _ fun _ => present_value _)
  · exact told_inputs _
  · exact told_null

/-- A schema answers questions about itself at once. -/
theorem introspection_told (source : FieldValue τ) (arguments : Entries Value) (info : Info τ) :
    Told (Introspection.resolve source arguments info) := by
  unfold Introspection.resolve
  dsimp only
  split
  · exact told_text _
  · exact told_described _
  · rw [Introspection.typeByName]
    split
    · exact told_described _
    · exact told_null
  · split
    · exact ofSchema_told _ _
    · exact ofType_told _ _ _ _
    · exact ofField_told _ _
    · exact ofInput_told _ _ _
    · exact ofEnumValue_told _ _
    · exact ofDirective_told _ _
    · exact fun value same => by cases same

end Told
end GraphQL.Execution

/-! Values whose completion comes to an end. Completing a value leads to the values of its items
and of the fields that are selected from it, and to the value that it turns out to be when it is
still to come; it ends if none of these ways goes on forever. -/
namespace GraphQL.Execution

variable {τ σ α : Type}

/-- An action has an answer in some state of the host that has a property. -/
def Answered (I : σ → Prop) (action : Exec σ α) (answer : α) : Prop :=
  ∃ trace next, I trace.host ∧ action.run trace = some (answer, next)

theorem Returns.answered {I J : σ → Prop} {action : Exec σ α}
    (returns : Returns I J (fun _ => action) fun _ => True) :
    Returns I J (fun _ => action) (Answered I action) := by
  refine returns.reached.mono fun answer reached => ?_
  obtain ⟨-, -, trace, next, holds, run⟩ := reached
  exact ⟨trace, next, holds, run⟩

/-- What is known of all answers is known of one. -/
theorem Answered.holds {I J : σ → Prop} {action : Exec σ α} {answer : α} {P : α → Prop}
    (answered : Answered I action answer) (returns : Returns I J (fun _ => action) P) :
    P answer := by
  obtain ⟨trace, next, holds, run⟩ := answered
  obtain ⟨other, last, yields, _, property⟩ := returns trace holds
  have once : Yields (fun _ => action) trace answer next := ⟨0, fun _ _ => run⟩
  rw [(once.unique yields).1]
  exact property

section Equations
variable (executor : Executor τ σ) (depth : Nat) (site : Site) (path : Path) {value : FieldValue τ}

theorem complete_nonNull (here : value.later? = none) (inner : TypeRef) :
    executor.complete (depth + 1) site (.nonNull inner) path value = (do
      let completion ← executor.complete depth site inner path value
      return completion.require site path) := by
  cases value <;> first | rfl | cases here

theorem complete_list {values : List (FieldValue τ)} (same : Executor.items? value = some values)
    (item : TypeRef) : executor.complete (depth + 1) site (.list item) path value =
      Completion.join .list <$> Executor.items
        (fun value path => executor.complete depth site item path value) item path 0 values := by
  rw [map_eq_pure_bind]
  cases value with
  | list items =>
    cases same
    rfl
  | value plain =>
    cases plain with
    | list items =>
      cases same
      rfl
    | _ => cases same
  | _ => cases same

theorem complete_unlisted (here : value.later? = none) (none : Executor.items? value = none)
    (item : TypeRef) : executor.complete (depth + 1) site (.list item) path value =
      return if value.isNull then .settled (.ok .null) else .failed site path
        ("User Error: expected iterable, but did not find one for field "
          ++ site.coordinate ++ ".") := by
  cases value with
  | value plain => cases plain <;> first | rfl | cases none
  | list items => cases none
  | deferred later => cases here
  | _ => rfl

theorem complete_named (here : value.later? = none) (name : String) :
    executor.complete (depth + 1) site (.named name) path value =
      if value.isNull then return .settled (.ok .null)
      else executor.asNamed (executor.complete depth) site path name value := by
  cases value <;> first | rfl | cases here

end Equations

/-- Completing a value comes to an end: so do the values that it leads to, whatever the host
answers in states that have a property, which it keeps. -/
inductive Grounded (executor : Executor τ σ) (I : σ → Prop) :
    Site → TypeRef → Path → FieldValue τ → Prop
  | deferred {site : Site} {type : TypeRef} {path : Path} {later : Later τ} :
      (∀ state, I state → I ((executor.host.compute later.source).run state).2) →
      (∀ state value, I state →
        ((executor.host.compute later.source).run state).1 = .ok value →
        Grounded executor I site type path value) →
      Grounded executor I site type path (.deferred later)
  | nonNull {site : Site} {inner : TypeRef} {path : Path} {value : FieldValue τ} :
      value.later? = none → Grounded executor I site inner path value →
      Grounded executor I site (.nonNull inner) path value
  | list {site : Site} {item : TypeRef} {path : Path} {value : FieldValue τ}
      {values : List (FieldValue τ)} : Executor.items? value = some values →
      (∀ index other, values[index]? = some other →
        Grounded executor I site item (path ++ [.index index]) other) →
      Grounded executor I site (.list item) path value
  | unlisted {site : Site} {item : TypeRef} {path : Path} {value : FieldValue τ} :
      value.later? = none → Executor.items? value = none →
      Grounded executor I site (.list item) path value
  | null {site : Site} {name : String} {path : Path} {value : FieldValue τ} :
      value.isNull = true → Grounded executor I site (.named name) path value
  | named {site : Site} {name : String} {path : Path} {value : FieldValue τ} :
      value.later? = none →
      Returns I I (fun _ => executor.objectType site path name value) (fun _ => True) →
      (∀ object, Answered I (executor.objectType site path name value) (.ok object) →
        ∀ key inner,
        (key, inner) ∈ executor.sites object (executor.plan.collect object (setsOf site.nodes)) →
        Returns I I (fun _ => executor.call inner (path ++ [.key key]) value) fun _ => True) →
      (∀ object, Answered I (executor.objectType site path name value) (.ok object) →
        ∀ key inner,
        (key, inner) ∈ executor.sites object (executor.plan.collect object (setsOf site.nodes)) →
        ∀ other, Answered I (executor.call inner (path ++ [.key key]) value) (.ok other) →
        Grounded executor I inner inner.field.type (path ++ [.key key]) other) →
      Grounded executor I site (.named name) path value

section Completing
variable {executor : Executor τ σ} {I J : σ → Prop}

theorem field_returns {site : Site} {path : Path} {source : FieldValue τ}
    {supplied : FieldResult τ → Prop}
    (calls : Returns I J (fun _ => executor.call site path source) supplied)
    (completes : ∀ value, supplied (.ok value) →
      Returns J J (fun limits => executor.complete limits.depth site site.field.type path value)
        (Rests executor J)) :
    Returns I J (fun limits => executor.field (executor.complete limits.depth) site path source)
      (Rests executor J) := by
  simp only [Executor.field]
  refine calls.bind fun result known => ?_
  cases result with
  | ok value =>
    exact (completes value known).bind fun completion rests => guardAt_returns site.field.type rests
  | error message => exact guardAt_returns site.field.type (.settled _)

/-- An object comes to rest if its fields do. -/
theorem object_returns {object : ObjectType} {path : Path} {source : FieldValue τ}
    {groups : Groups Ast.Field}
    (fields : ∀ found ∈ executor.sites object groups,
      Returns I I (fun limits => executor.field (executor.complete limits.depth) found.2
        (path ++ [.key found.1]) source) (Rests executor I)) :
    Returns I I (fun limits =>
      executor.object (executor.complete limits.depth) object path source groups)
      (Rests executor I) := by
  simp only [object_eq]
  exact (mapM_returns fields).map fun completions each => join_rests _ (allRest_of_forall₂ each)

/-- A list comes to rest if its items do. -/
theorem items_returns {site : Site} {item : TypeRef} {path : Path} {values : List (FieldValue τ)}
    (completes : ∀ index value, values[index]? = some value →
      Returns I I
        (fun limits => executor.complete limits.depth site item (path ++ [.index index]) value)
        (Rests executor I)) :
    Returns I I (fun limits => Completion.join .list <$> Executor.items
      (fun value path => executor.complete limits.depth site item path value) item path 0 values)
      (Rests executor I) := by
  simp only [items_eq]
  have each : ∀ found ∈ values.zipIdx, Returns I I (fun limits =>
      executor.complete limits.depth site item (path ++ [.index found.2]) found.1 >>=
        Completion.guardAt item) (Rests executor I) := fun found member =>
    (completes found.2 found.1 (List.mem_zipIdx_iff_getElem?.1 member)).bind
      fun completion rests => guardAt_returns item rests
  exact (mapM_returns each).map fun completions each => join_rests _ (allRest_of_forall₂ each)

/-- What is grounded is completed, and comes to rest. -/
theorem Grounded.returns {site : Site} {type : TypeRef} {path : Path} {value : FieldValue τ}
    (grounded : Grounded executor I site type path value) :
    Returns I I (fun limits => executor.complete limits.depth site type path value)
      (Rests executor I) := by
  induction grounded with
  | @deferred site type path later keeps _ comes =>
    obtain ⟨polls, source⟩ := later
    exact Returns.deeper (fun _ => pure (.awaiting ⟨polls, source⟩ site type path))
      (executor.complete · site type path _) (fun _ => rfl)
      (.pure (awaiting_rests keeps comes polls))
  | @nonNull site inner path value here _ completes =>
    exact Returns.deeper _ (executor.complete · site (.nonNull inner) path value)
      (complete_nonNull executor · site path here inner)
      (completes.bind fun completion rests => require_returns site path rests)
  | @list site item path value values same _ completes =>
    exact Returns.deeper _ (executor.complete · site (.list item) path value)
      (complete_list executor · site path same item) (items_returns completes)
  | @unlisted site item path value here none =>
    refine Returns.deeper _ (executor.complete · site (.list item) path value)
      (complete_unlisted executor · site path here none item) (.pure ?_)
    split <;> exact .settled _
  | @null site name path value null =>
    have here : value.later? = none := by cases value <;> first | rfl | cases null
    refine Returns.deeper (fun _ => pure (.settled (.ok .null)))
      (executor.complete · site (.named name) path value) (fun depth => ?_) (.pure (.settled _))
    rw [complete_named executor depth site path here, if_pos null]
  | @named site name path value here decides calls _ completes =>
    refine Returns.deeper _ (executor.complete · site (.named name) path value)
      (complete_named executor · site path here name) ?_
    split
    · exact .pure (.settled _)
    · simp only [asNamed_eq]
      refine decides.answered.bind fun answer answered => ?_
      cases answer with
      | error outcome => exact .pure (.settled outcome)
      | ok object =>
        refine object_returns fun found member => field_returns
          (calls object answered found.1 found.2 member).answered fun value supplied => ?_
        exact completes object answered found.1 found.2 member value supplied

end Completing

/-- The root fields that have been called once a further one is. Only those of a mutation are
called one after the other. -/
def Plan.called (plan : Plan τ) (before : List String) (key : String) : List String :=
  if plan.operation.operation = .mutation then before ++ [key] else before

/-- Calling a field of the root returns with a value whose completion comes to an end. What is
known of the host depends on the fields that have been called. -/
def Begins (executor : Executor τ σ) (root : ObjectType) (I : List String → σ → Prop) : Prop :=
  ∀ before key site, (key, site) ∈
      executor.sites root (executor.plan.collect root [executor.plan.operation.selectionSet]) →
    Returns (I before) (I (executor.plan.called before key))
      (fun _ => executor.call site [.key key] executor.plan.root) fun result =>
        ∀ value, result = .ok value → Grounded executor (I (executor.plan.called before key)) site
          site.field.type [.key key] value

/-- Calling a field of the root returns with a value whose completion comes to an end. -/
def Starts (executor : Executor τ σ) (I J : σ → Prop) (key : String) (site : Site) : Prop :=
  Returns I J (fun _ => executor.call site [.key key] executor.plan.root) fun result =>
    ∀ value, result = .ok value → Grounded executor J site site.field.type [.key key] value

/-- Fields of the root start one after the other, for as long as none of them fails. -/
def StartInTurn (executor : Executor τ σ) (I : List String → σ → Prop) :
    List String → List (String × Site) → Prop
  | _, [] => True
  | before, (key, site) :: rest =>
      Starts executor (I before) (I (before ++ [key])) key site ∧
        ((∃ limits trace value next, I before trace.host ∧
          (executor.field (executor.complete limits.depth) site [.key key] executor.plan.root >>=
            executor.settle limits).run trace = some (.ok value, next)) →
          StartInTurn executor I (before ++ [key]) rest)

/-- The fields of the root start, those of a mutation in turn. -/
def AllStart (executor : Executor τ σ) (root : ObjectType) (I : List String → σ → Prop) : Prop :=
  if executor.plan.operation.operation = .mutation then
    StartInTurn executor I []
      (executor.sites root (executor.plan.collect root [executor.plan.operation.selectionSet]))
  else
    ∀ key site, (key, site) ∈
      executor.sites root (executor.plan.collect root [executor.plan.operation.selectionSet]) →
        Starts executor (I []) (I []) key site

section Operations
variable {executor : Executor τ σ} {root : ObjectType} {I : List String → σ → Prop}

theorem Starts.returns {I J : σ → Prop} {key : String} {site : Site}
    (starts : Starts executor I J key site) :
    Returns I J (fun limits => executor.field (executor.complete limits.depth) site [.key key]
      executor.plan.root) (Rests executor J) :=
  field_returns starts fun _ grounded => (grounded _ rfl).returns

theorem Begins.allStart (begins : Begins executor root I) : AllStart executor root I := by
  unfold AllStart
  split
  · rename_i mutation
    have starts (before : List String) (key : String) (site : Site) (member : (key, site) ∈
        executor.sites root (executor.plan.collect root [executor.plan.operation.selectionSet])) :
        Starts executor (I before) (I (before ++ [key])) key site := by
      have calls := begins before key site member
      rwa [Plan.called, if_pos mutation] at calls
    generalize executor.sites root _ = sites at starts
    generalize ([] : List String) = before
    induction sites generalizing before with
    | nil => trivial
    | cons found rest ih =>
      exact ⟨starts before found.1 found.2 List.mem_cons_self, fun _ =>
        ih (fun before key site member => starts before key site (List.mem_cons_of_mem _ member)) _⟩
  · rename_i other
    intro key site member
    have calls := begins [] key site member
    rwa [Plan.called, if_neg other] at calls

theorem inTurn_returns {parent : ObjectType} {groups : Groups Ast.Field} (before : List String)
    (starts : StartInTurn executor I before (executor.sites parent groups)) :
    Returns (I before) (fun state => ∃ called, I called state)
      (fun limits => executor.inTurn limits parent executor.plan.root groups) fun _ => True := by
  simp only [inTurn_eq]
  generalize executor.sites parent groups = sites at starts
  induction sites generalizing before with
  | nil => exact (Returns.pure trivial).keeping fun state holds => ⟨before, holds⟩
  | cons found rest ih =>
    obtain ⟨key, site⟩ := found
    have first := (starts.1.returns.bind fun completion rests => settle_returns rests).reached
    refine first.bind fun outcome reached => ?_
    obtain ⟨-, limits, trace, next, holds, run⟩ := reached
    cases outcome with
    | error error =>
      exact (Returns.pure trivial).keeping fun state holds => ⟨before ++ [key], holds⟩
    | ok value =>
      have later := starts.2 ⟨limits, trace, value, next, holds, run⟩
      exact (ih (before ++ [key]) later).bind fun result _ => .pure trivial

theorem operation_returns (starts : AllStart executor root I) :
    Returns (I []) (fun state => ∃ called, I called state)
      (fun limits => executor.operation limits root) fun _ => True := by
  unfold AllStart at starts
  have parallel (other : executor.plan.operation.operation ≠ .mutation) :
      Returns (I []) (fun state => ∃ called, I called state) (fun limits =>
        executor.object (executor.complete limits.depth) root [] executor.plan.root
          (executor.plan.collect root [executor.plan.operation.selectionSet]) >>=
        executor.settle limits) fun _ => True := by
    rw [if_neg other] at starts
    refine Returns.keeping ?_ fun state holds => ⟨[], holds⟩
    exact (object_returns fun found member => (starts found.1 found.2 member).returns).bind
      fun completion rests => settle_returns rests
  simp only [Executor.operation]
  cases kind : executor.plan.operation.operation with
  | mutation =>
    rw [if_pos kind] at starts
    exact (inTurn_returns [] starts).bind fun result _ => .pure trivial
  | query => exact parallel (by simp [kind])
  | subscription => exact parallel (by simp [kind])

/-- A request is answered, and all limits that are high enough give the same answer. -/
theorem execute_returns {schema : Schema} {host : Host τ σ} {request : Request τ σ} {state : σ}
    (starts : ∀ executor root, prepare schema host request = .ok (executor, root) →
      AllStart executor root I) (holds : I [] state) :
    ∃ bound response after, ∀ limits : Limits, limits.Allow bound →
      execute limits schema host request state = some (response, after) := by
  cases prepared : prepare schema host request with
  | error errors => exact ⟨0, .refusal errors, state, fun limits _ => by rw [execute, prepared]⟩
  | ok found =>
    obtain ⟨executor, root⟩ := found
    obtain ⟨outcome, trace, ⟨bound, runs⟩, _⟩ :=
      operation_returns (starts executor root prepared) ⟨state, []⟩ holds
    refine ⟨bound, respond trace outcome, trace.host, fun limits allow => ?_⟩
    rw [execute, prepared]
    simp only [runs limits allow, Option.map_some]

end Operations
end GraphQL.Execution
