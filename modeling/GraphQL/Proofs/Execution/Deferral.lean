import GraphQL.Proofs.Execution.Responses
import GraphQL.Proofs.Execution.Owing

/-! Executions whose values come at once or later. Hosts that give the same replies are answered
alike, whatever they put off and in whichever order it comes: if one execution comes to an end so
do the others, with the same data and the same errors in some order. -/
namespace GraphQL.Execution

variable {τ σ ρ : Type}

section Grounding
variable {executor : Executor τ σ} {root : ObjectType} {replies : Replies τ} {I : σ → Prop}
  {site : Site} {type : TypeRef} {path : Path} {reply : Reply τ}

/-- What is pending comes to an end if the value that it turns out to be does. -/
theorem Comes.grounded {value : FieldValue τ}
    (comes : Comes executor.host I type (.ok value) reply)
    (present : ∀ value, value.later? = none → Comes executor.host I type (.ok value) reply →
      Grounded executor I site type path value) : Grounded executor I site type path value := by
  generalize same : (Except.ok value : FieldResult τ) = result at comes
  induction comes generalizing value with
  | failed => cases same
  | deferred keeps _ ih =>
    cases same
    exact .deferred keeps fun state value holds came => ih state holds present came.symm
  | nonNull here comes =>
    cases same
    exact present _ here (.nonNull here comes)
  | @items _ found _ _ items lengths each =>
    cases same
    have here : found.later? = none := by cases found <;> first | rfl | cases items
    exact present _ here (.items items lengths each)
  | unlisted here none =>
    cases same
    exact present _ here (.unlisted here none)
  | named here =>
    cases same
    exact present _ here (.named here)

/-- Where a reply amounts to a verdict, completing a value that comes to it comes to an end. -/
theorem Amounts.grounded (alike : Alike executor root replies I) {verdict : Verdict}
    (amounts : Amounts executor.plan replies site type path reply verdict)
    (places : executor.plan.Places root site type) (deep : path ≠ []) {value : FieldValue τ}
    (comes : Comes executor.host I type (.ok value) reply) :
    Grounded executor I site type path value := by
  induction amounts generalizing value with
  | failed => exact comes.grounded fun value here comes => by cases comes.stands here
  | nonNull _ _ ih =>
    refine comes.grounded fun value here comes => ?_
    cases comes with
    | deferred => cases here
    | nonNull _ comes => exact .nonNull here (ih places deep comes)
  | @list site item path found verdict _ ih =>
    refine comes.grounded fun value here comes => ?_
    cases comes with
    | deferred => cases here
    | items same lengths each =>
      have places : executor.plan.Places root site item := places
      refine .list same fun index other known => ?_
      have inside : index < found.length := lengths ▸ (List.getElem?_eq_some_iff.1 known).1
      have reply := List.getElem?_eq_getElem inside
      exact ih index _ reply places (by simp) (each index other _ known reply)
  | unlisted =>
    refine comes.grounded fun value here comes => ?_
    cases comes with
    | deferred => cases here
    | unlisted here none => exact .unlisted here none
  | null null =>
    refine comes.grounded fun found here comes => ?_
    obtain rfl := comes.stays here
    exact .null null
  | @settled site name path of outcome solid chosen =>
    refine comes.grounded fun found here comes => ?_
    obtain rfl := comes.stays here
    have decides := Consults.returns (objectType_mirrors (alike.decides site places.1) path name of)
    have nothing (object : ObjectType) (answered : Answered I
        (executor.objectType site path name of) (.ok object)) : False := by
      cases chosen.unique (answered.holds decides)
    exact .named here (decides.mono fun _ _ => trivial)
      (fun object answered => (nothing object answered).elim)
      fun object answered => (nothing object answered).elim
  | @object site name path of object verdict solid chosen _ ih =>
    refine comes.grounded fun found here comes => ?_
    obtain rfl := comes.stays here
    have decides := Consults.returns (objectType_mirrors (alike.decides site places.1) path name of)
    have innermost : name = site.field.type.innermost := places.2
    have reached := reaches_of_resolves places.1 (innermost ▸ chosen.runtime)
    have same (other : ObjectType) (answered : Answered I
        (executor.objectType site path name of) (.ok other)) : object = other := by
      cases chosen.unique (answered.holds decides)
      rfl
    have supplied (key : String) (inner : Site) (member : (key, inner) ∈
        executor.sites object (executor.plan.collect object (setsOf site.nodes))) :=
      (alike.supplies inner (resolves_of_mem reached member) path key of deep).returns
    refine .named here (decides.mono fun _ _ => trivial)
      (fun other answered key inner member => ?_)
      fun other answered key inner member result came => ?_
    · obtain rfl := same other answered
      exact (supplied key inner member).mono fun _ _ => trivial
    · obtain rfl := same other answered
      obtain ⟨index, known⟩ := List.mem_iff_getElem?.1 member
      exact ih index key inner known ⟨resolves_of_mem reached member, rfl⟩ (by simp)
        (came.holds (supplied key inner member))

end Grounding

/-- What the fields of a mutation amount to, which are settled one after the other. The first error
ends it. -/
inductive Sequence (plan : Plan τ) (replies : List String → Replies τ) :
    List String → List (String × Site) → Except ResponseError (Entries Value) →
      List ResponseError → Prop
  | nil {before : List String} : Sequence plan replies before [] (.ok []) []
  | stopped {before : List String} {key : String} {site : Site} {rest : List (String × Site)}
      {verdict : Verdict} {error : ResponseError} {errors : List ResponseError} :
      Amounts plan (replies (before ++ [key])) site site.field.type [.key key]
        ((replies (before ++ [key])).call plan site [.key key] plan.root) verdict →
      verdict.guardAt site.field.type = ⟨.error error, errors⟩ →
      Sequence plan replies before ((key, site) :: rest) (.error error) errors
  | settled {before : List String} {key : String} {site : Site} {rest : List (String × Site)}
      {verdict : Verdict} {value : Value} {errors more : List ResponseError}
      {result : Except ResponseError (Entries Value)} :
      Amounts plan (replies (before ++ [key])) site site.field.type [.key key]
        ((replies (before ++ [key])).call plan site [.key key] plan.root) verdict →
      verdict.guardAt site.field.type = ⟨.ok value, errors⟩ →
      Sequence plan replies (before ++ [key]) rest result more →
      Sequence plan replies before ((key, site) :: rest) (result.map ((key, value) :: ·))
        (errors ++ more)

/-- What an operation amounts to. -/
inductive Results (plan : Plan τ) (replies : List String → Replies τ) (root : ObjectType) :
    Verdict → Prop
  | mutation {result : Except ResponseError (Entries Value)} {errors : List ResponseError} :
      plan.operation.operation = .mutation →
      Sequence plan replies [] ((replies []).sites plan root [plan.operation.selectionSet]) result
        errors → Results plan replies root ⟨result.map Value.object, errors⟩
  | together {verdict : Nat → Verdict} : plan.operation.operation ≠ .mutation →
      (∀ (index : Nat) key site,
        ((replies []).sites plan root [plan.operation.selectionSet])[index]? = some (key, site) →
        Amounts plan (replies []) site site.field.type [.key key]
          ((replies []).call plan site [.key key] plan.root) (verdict index)) →
      Results plan replies root
        (.object ((replies []).sites plan root [plan.operation.selectionSet]) verdict)

section Operations
variable {plan : Plan τ} {root : ObjectType} {replies : List String → Replies τ}

theorem Sequence.unique {before : List String} {sites : List (String × Site)}
    {result other : Except ResponseError (Entries Value)} {errors more : List ResponseError}
    (first : Sequence plan replies before sites result errors)
    (second : Sequence plan replies before sites other more) : result = other ∧ errors = more := by
  induction first generalizing other more with
  | nil =>
    cases second
    exact ⟨rfl, rfl⟩
  | stopped amounts fails =>
    cases second with
    | stopped again likewise | settled again likewise =>
      rw [amounts.unique again, likewise] at fails
      cases fails
      try exact ⟨rfl, rfl⟩
  | settled amounts stands _ ih =>
    cases second with
    | stopped again likewise =>
      rw [amounts.unique again, likewise] at stands
      cases stands
    | settled again likewise rest =>
      rw [amounts.unique again, likewise] at stands
      cases stands
      obtain ⟨rfl, rfl⟩ := ih rest
      exact ⟨rfl, rfl⟩

/-- An operation amounts to one verdict. -/
theorem Results.unique {verdict other : Verdict} (first : Results plan replies root verdict)
    (second : Results plan replies root other) : verdict = other := by
  cases first with
  | mutation kind first =>
    cases second with
    | mutation _ second =>
      obtain ⟨rfl, rfl⟩ := first.unique second
      rfl
    | together apart => exact absurd kind apart
  | together apart each =>
    cases second with
    | mutation kind => exact absurd kind apart
    | together _ others =>
      exact verdict_object_congr fun index inside =>
        (each index _ _ (List.getElem?_eq_getElem inside)).unique
          (others index _ _ (List.getElem?_eq_getElem inside))

end Operations

section Runs
variable {executor : Executor τ σ} {root : ObjectType} {replies : List String → Replies τ}
  {I : List String → σ → Prop} {limits : Limits}

/-- A field that is called and settled has the verdict on its reply. -/
theorem settled_field {replies : Replies τ} {I J : σ → Prop}
    (alike : Alike executor root replies J) {site : Site}
    (resolves : executor.plan.Resolves root site) {path : Path} (deep : path ≠ [])
    {source : FieldValue τ} (supplies : Supplies executor I J replies site path source) :
    Leads I J (executor.field (executor.complete limits.depth) site path source >>=
      executor.settle limits) fun outcome errors => ∃ found,
        Amounts executor.plan replies site site.field.type path
          (replies.call executor.plan site path source) found ∧
        outcome = (found.guardAt site.field.type).outcome ∧
        errors.Perm (found.guardAt site.field.type).errors := by
  refine (field_owes (complete_owes alike limits.depth) resolves deep supplies).bind
    fun completion errors owes trace outcome next holds run => ?_
  obtain ⟨kept, more, added, verdict, amounts, same, perm⟩ :=
    settle_owes alike limits owes trace outcome next holds run
  obtain ⟨found, amounts, rfl⟩ := amounts
  exact ⟨kept, more, added, found, amounts, same, perm⟩

/-- The fields of the root that are resolved in a mutation, and what they are answered with. -/
theorem Gives.inTurn (gives : Gives executor root replies I)
    (mutation : executor.plan.operation.operation = .mutation) (before : List String) {key : String}
    {site : Site} (member : (key, site) ∈
      executor.sites root (executor.plan.collect root [executor.plan.operation.selectionSet])) :
    Supplies executor (I before) (I (before ++ [key])) (replies (before ++ [key])) site [.key key]
      executor.plan.root := by
  have starts := gives.starts before key site member
  rwa [Plan.called, if_pos mutation] at starts

theorem Gives.together (gives : Gives executor root replies I)
    (other : executor.plan.operation.operation ≠ .mutation) {key : String} {site : Site}
    (member : (key, site) ∈
      executor.sites root (executor.plan.collect root [executor.plan.operation.selectionSet])) :
    Supplies executor (I []) (I []) (replies []) site [.key key] executor.plan.root := by
  have starts := gives.starts [] key site member
  rwa [Plan.called, if_neg other] at starts

/-- The fields of a mutation are settled to what they amount to in sequence. -/
theorem settleInTurn_sequence {sites : List (String × Site)}
    (alike : ∀ called, Alike executor root (replies called) (I called))
    (supplies : ∀ before key site, (key, site) ∈ sites →
      executor.plan.Resolves root site ∧ Supplies executor (I before) (I (before ++ [key]))
        (replies (before ++ [key])) site [.key key] executor.plan.root) (before : List String) :
    Leads (I before) (fun _ => True) (executor.settleInTurn limits executor.plan.root sites)
      fun result errors => ∃ more,
        Sequence executor.plan replies before sites result more ∧ errors.Perm more := by
  induction sites generalizing before with
  | nil => exact .pure (fun _ _ => trivial) ⟨[], .nil, .refl []⟩
  | cons found rest ih =>
    obtain ⟨key, site⟩ := found
    obtain ⟨resolves, first⟩ := supplies before key site List.mem_cons_self
    have others := ih (fun before key site member =>
      supplies before key site (List.mem_cons_of_mem _ member)) (before ++ [key])
    rw [Executor.settleInTurn]
    refine (settled_field (alike _) resolves (by simp) first).bind
      fun outcome errors settled => ?_
    obtain ⟨found, amounts, rfl, perm⟩ := settled
    generalize verdict : found.guardAt site.field.type = guarded at perm
    obtain ⟨outcome, inside⟩ := guarded
    cases outcome with
    | error error =>
      refine .pure (fun _ _ => trivial) ⟨inside, .stopped amounts verdict, ?_⟩
      rwa [List.append_nil]
    | ok value =>
      refine others.bind fun result more sequence => .pure (fun _ _ => trivial) ?_
      obtain ⟨later, sequence, same⟩ := sequence
      refine ⟨inside ++ later, .settled amounts verdict sequence, ?_⟩
      rw [List.append_nil]
      exact perm.append same

/-- An operation is answered with what it amounts to. -/
theorem operation_results (gives : Gives executor root replies I) :
    Leads (I []) (fun _ => True) (executor.operation limits root) fun outcome errors =>
      ∃ verdict, Results executor.plan replies root verdict ∧ outcome = verdict.outcome ∧
        errors.Perm verdict.errors := by
  have parallel (other : executor.plan.operation.operation ≠ .mutation) :
      Leads (I []) (fun _ => True) (executor.object (executor.complete limits.depth) root []
        executor.plan.root (executor.plan.collect root [executor.plan.operation.selectionSet]) >>=
        executor.settle limits) fun outcome errors => ∃ verdict,
          Results executor.plan replies root verdict ∧ outcome = verdict.outcome ∧
            errors.Perm verdict.errors := by
    have owes : Ensures (I []) (executor.object (executor.complete limits.depth) root []
        executor.plan.root (executor.plan.collect root [executor.plan.operation.selectionSet]))
        (Owes executor root (replies []) (I []) (Results executor.plan replies root)) :=
      object_owes (complete_owes (gives.alike []) limits.depth) .root
        (fun key inner _ member => gives.together other member)
        fun verdict amounts => .together other amounts
    refine Leads.bind owes fun completion errors owes trace outcome next holds run => ?_
    obtain ⟨-, settled⟩ := settle_owes (gives.alike []) limits owes trace outcome next holds run
    exact ⟨trivial, settled⟩
  rw [Executor.operation]
  cases kind : executor.plan.operation.operation with
  | mutation =>
    rw [inTurn_eq]
    refine (settleInTurn_sequence gives.alike (fun before key site member =>
      ⟨resolves_of_mem .root member, gives.inTurn kind before member⟩) []).bind
      fun result errors sequence => .pure (fun _ _ => trivial) ?_
    obtain ⟨more, sequence, perm⟩ := sequence
    rw [List.append_nil]
    exact ⟨_, .mutation kind sequence, rfl, perm⟩
  | query => exact parallel (by simp [kind])
  | subscription => exact parallel (by simp [kind])

theorem starts_of_amounts {replies : Replies τ} {I J : σ → Prop}
    (alike : Alike executor root replies J) {key : String} {site : Site}
    (resolves : executor.plan.Resolves root site)
    (supplies : Supplies executor I J replies site [.key key] executor.plan.root)
    {verdict : Verdict} (amounts : Amounts executor.plan replies site site.field.type [.key key]
      (replies.call executor.plan site [.key key] executor.plan.root) verdict) :
    Starts executor I J key site :=
  supplies.returns.mono fun result comes value same =>
    amounts.grounded alike ⟨resolves, rfl⟩ (by simp) (same ▸ comes)

/-- The fields of a mutation start in turn, up to the one that the sequence ends with. -/
theorem Sequence.startInTurn (alike : ∀ called, Alike executor root (replies called) (I called))
    {before : List String} {sites : List (String × Site)}
    {result : Except ResponseError (Entries Value)} {errors : List ResponseError}
    (sequence : Sequence executor.plan replies before sites result errors)
    (supplies : ∀ before key site, (key, site) ∈ sites →
      executor.plan.Resolves root site ∧ Supplies executor (I before) (I (before ++ [key]))
        (replies (before ++ [key])) site [.key key] executor.plan.root) :
    StartInTurn executor I before sites := by
  induction sequence with
  | nil => trivial
  | @stopped before key site rest verdict error errors amounts fails =>
    obtain ⟨resolves, first⟩ := supplies before key site List.mem_cons_self
    refine ⟨starts_of_amounts (alike _) resolves first amounts, fun reached => ?_⟩
    obtain ⟨limits, trace, value, next, holds, run⟩ := reached
    obtain ⟨-, more, -, found, again, same, -⟩ :=
      settled_field (alike _) resolves (by simp) first trace _ next holds run
    rw [again.unique amounts, fails] at same
    cases same
  | @settled before key site rest verdict value errors more result amounts _ _ ih =>
    obtain ⟨resolves, first⟩ := supplies before key site List.mem_cons_self
    exact ⟨starts_of_amounts (alike _) resolves first amounts, fun _ => ih
      fun before key site member => supplies before key site (List.mem_cons_of_mem _ member)⟩

/-- Where an operation amounts to a verdict, its fields start. -/
theorem Results.allStart (gives : Gives executor root replies I) {verdict : Verdict}
    (results : Results executor.plan replies root verdict) : AllStart executor root I := by
  unfold AllStart
  cases results with
  | mutation kind sequence =>
    rw [if_pos kind]
    exact sequence.startInTurn gives.alike fun before key site member =>
      ⟨resolves_of_mem .root member, gives.inTurn kind before member⟩
  | together other amounts =>
    rw [if_neg other]
    intro key site member
    obtain ⟨index, known⟩ := List.mem_iff_getElem?.1 member
    exact starts_of_amounts (gives.alike []) (resolves_of_mem .root member)
      (gives.together other member) (amounts index key site known)

end Runs

/-- The same request to another host, without middleware. -/
def Request.alone (request : Request τ σ) : Request τ ρ :=
  { document := request.document, operationName := request.operationName,
    inputs := request.inputs, root := request.root }

/-- How a request without middleware is prepared does not depend on the host. -/
theorem prepare_alone (schema : Schema) (request : Request τ σ) (host : Host τ σ)
    (other : Host τ ρ) : prepare schema other request.alone =
      (fun found => (⟨found.1.plan, other, []⟩, found.2)) <$>
        prepare schema host request.alone := by
  simp only [prepare, map_bind, map_pure]
  rfl

theorem respond_agrees {first : Trace σ} {second : Trace ρ} (outcome : Outcome)
    (same : second.errors.Perm first.errors) :
    (respond second outcome).data = (respond first outcome).data ∧
      (respond second outcome).errors.Perm (respond first outcome).errors := by
  cases outcome with
  | ok data => exact ⟨rfl, same⟩
  | error error => exact ⟨rfl, same.append_right [error]⟩

section Pending

/-- What a host may put off. -/
inductive Pending where
  | names
  | friend
  | slow

def namesField : Field :=
  { name := "names", type := .list (.nonNull (.named "N")), resolver := some (.host 0) }

def slowField : Field := { name := "slow", type := .named "N", resolver := some (.host 1) }

def pendingType : ObjectType := { name := "T", fields := ⟨[namesField, slowField], []⟩ }

def pendingSchema : Schema :=
  { query := pendingType, mutation := none, subscription := none
    types := [.object pendingType, .scalar { name := "N" }], directives := [] }

def pendingNode (name : String) : Ast.Field := ⟨none, ⟨name, none⟩, [], [], none, none⟩

def pendingOperation : Ast.OperationDefinition :=
  ⟨.query, none, [], [], ⟨[.field (pendingNode "names"), .field (pendingNode "slow")], none⟩, none⟩

/-- Knows two names, and fails to tell a third thing. If it is late it has none of this at once. -/
def pendingHost (late : Bool) : Host Pending Unit where
  typeName _ := none
  field _ _ := return none
  compute
    | .names => return .ok (.list [.deferred ⟨2, .friend⟩, .value (.string "c")])
    | .friend => return .ok (.value (.string "b"))
    | .slow => return .error "timed out"
  resolve
    | 0, _, _, _ => return .ok (if late then .deferred ⟨1, .names⟩
        else .list [.value (.string "b"), .value (.string "c")])
    | _, _, _, _ => return if late then .ok (.deferred ⟨0, .slow⟩) else .error "timed out"
  isTypeOf _ _ _ := return true
  resolveType _ _ _ := return none

def pendingReplies : Replies Pending where
  typeName _ := none
  resolve _ _ info := if info.site.field.name = "names" then
    .items [.value (.value (.string "b")), .value (.value (.string "c"))] else .failed "timed out"
  isTypeOf _ _ _ := true
  resolveType _ _ _ := none

def pendingRequest : Request Pending Unit := { document := ⟨[.operation pendingOperation], none⟩ }

def pendingExecutor (late : Bool) : Executor Pending Unit :=
  ⟨⟨pendingSchema, [], .null, pendingOperation, []⟩, pendingHost late, []⟩

theorem pendingRequest_prepared (late : Bool) :
    prepare pendingSchema (pendingHost late) pendingRequest.alone =
      .ok (pendingExecutor late, pendingType) := rfl

theorem pending_sites (late : Bool) {key : String} {nodes : List Ast.Field} {field : Field}
    (collected : (key, nodes) ∈ (pendingExecutor late).plan.collect pendingType
      [pendingOperation.selectionSet])
    (defined : (pendingExecutor late).plan.field? pendingType nodes = some field) :
    nodes = [pendingNode "names"] ∧ field = namesField ∨
      nodes = [pendingNode "slow"] ∧ field = slowField := by
  have groups : (pendingExecutor late).plan.collect pendingType [pendingOperation.selectionSet] =
      [("names", [pendingNode "names"]), ("slow", [pendingNode "slow"])] := by cbv
  rw [groups, List.mem_pair] at collected
  rcases collected with same | same
  all_goals
    cases same
    cases defined
  · exact .inl ⟨rfl, rfl⟩
  · exact .inr ⟨rfl, rfl⟩

/-- The two fields are the only ones that are resolved. -/
theorem pending_resolves {late : Bool} {site : Site}
    (resolves : (pendingExecutor late).plan.Resolves pendingType site) :
    site = ⟨pendingType, namesField, [pendingNode "names"]⟩ ∨
      site = ⟨pendingType, slowField, [pendingNode "slow"]⟩ := by
  have leaf (object : ObjectType) : ¬ RuntimeType pendingSchema "N" object := by
    intro runtime
    cases runtime with
    | declared known => cases known
    | possible known abstract =>
      cases known
      cases abstract
  have root {object : ObjectType} {sets : List Ast.SelectionSet}
      (reached : (pendingExecutor late).plan.Reaches pendingType object sets) :
      object = pendingType ∧ sets = [pendingOperation.selectionSet] := by
    induction reached with
    | root => exact ⟨rfl, rfl⟩
    | field _ collected defined runtime ih =>
      obtain ⟨rfl, rfl⟩ := ih
      rcases pending_sites late collected defined with ⟨rfl, rfl⟩ | ⟨rfl, rfl⟩ <;>
        exact absurd runtime (leaf _)
  obtain ⟨parent, field, nodes⟩ := site
  obtain ⟨sets, key, reached, collected, defined⟩ := resolves
  obtain ⟨rfl, rfl⟩ := root reached
  rcases pending_sites late collected defined with ⟨rfl, rfl⟩ | ⟨rfl, rfl⟩
  · exact .inl rfl
  · exact .inr rfl

theorem pendingHost_comes (late : Bool) {site : Site}
    (resolves : (pendingExecutor late).plan.Resolves pendingType site) (path : Path)
    (source : FieldValue Pending) : Supplies (pendingExecutor late) (fun _ => True) (fun _ => True)
      pendingReplies site path source := by
  have told (name : String) : Comes (pendingHost late) (fun _ => True) (.nonNull (.named "N"))
      (.ok (.value (.string name))) (.value (.value (.string name))) := .nonNull rfl (.named rfl)
  have friend : Comes (pendingHost late) (fun _ => True) (.nonNull (.named "N"))
      (.ok (.deferred ⟨2, .friend⟩)) (.value (.value (.string "b"))) :=
    .deferred (fun _ _ => trivial) fun _ _ => told "b"
  have list {first : FieldValue Pending}
      (comes : Comes (pendingHost late) (fun _ => True) (.nonNull (.named "N")) (.ok first)
        (.value (.value (.string "b")))) :
      Comes (pendingHost late) (fun _ => True) namesField.type
        (.ok (.list [first, .value (.string "c")]))
        (.items [.value (.value (.string "b")), .value (.value (.string "c"))]) := by
    refine .items rfl rfl fun index other reply here there => ?_
    match index with
    | 0 =>
      cases here
      cases there
      exact comes
    | 1 =>
      cases here
      cases there
      exact told "c"
  intro state _
  refine ⟨trivial, ?_⟩
  rcases pending_resolves resolves with rfl | rfl
  · cases late with
    | false => exact list (told "b")
    | true => exact .deferred (fun _ _ => trivial) fun _ _ => list friend
  · cases late with
    | false => exact .failed
    | true => exact .deferred (fun _ _ => trivial) fun _ _ => .failed

theorem pendingHost_gives (late : Bool) : Gives (pendingExecutor late) pendingType
    (fun _ => pendingReplies) fun _ _ => True where
  starts _ _ _ member := pendingHost_comes late (resolves_of_mem .root member) _ _
  alike _ := ⟨fun _ _ => ⟨rfl, fun _ _ _ _ _ => ⟨trivial, rfl⟩, fun _ _ _ _ _ => ⟨trivial, rfl⟩⟩,
    fun _ resolves _ _ source _ => pendingHost_comes late resolves _ source⟩

end Pending

/-- Two hosts give the same replies, each of which comes at once or as late as the host likes. Then
if one of them answers a request so does the other, at all limits that are high enough, with the
same data and the same errors in some order. -/
theorem execute_agrees {schema : Schema} {request : Request τ σ} {host : Host τ σ}
    {other : Host τ ρ} {replies : List String → Replies τ} {I : List String → σ → Prop}
    {J : List String → ρ → Prop} {state after : σ} {start : ρ} {limits : Limits}
    {response : Response}
    (gives : ∀ executor root, prepare schema host request.alone = .ok (executor, root) →
      Gives executor root replies I)
    (likewise : ∀ executor root, prepare schema other request.alone = .ok (executor, root) →
      Gives executor root replies J)
    (holds : I [] state) (begins : J [] start)
    (ran : execute limits schema host request.alone state = some (response, after)) :
    (∃ bound answer last, ∀ limits : Limits, limits.Allow bound →
      execute limits schema other request.alone start = some (answer, last)) ∧
    ∀ limits answer last, execute limits schema other request.alone start = some (answer, last) →
      answer.data = response.data ∧ answer.errors.Perm response.errors := by
  have both := prepare_alone schema request host other
  cases prepared : prepare schema host request.alone with
  | error errors =>
    have refused : prepare schema other request.alone = .error errors := by
      rw [both, prepared]
      rfl
    rw [execute, prepared] at ran
    cases ran
    refine ⟨⟨0, .refusal errors, start, fun limits _ => by rw [execute, refused]⟩,
      fun limits answer last ran => ?_⟩
    rw [execute, refused] at ran
    cases ran
    exact ⟨rfl, .refl _⟩
  | ok found =>
    obtain ⟨executor, root⟩ := found
    have also : prepare schema other request.alone = .ok (⟨executor.plan, other, []⟩, root) := by
      rw [both, prepared]
      rfl
    have second := likewise _ _ also
    obtain ⟨outcome, trace, run, rfl, -⟩ := execute_prepared prepared ran
    obtain ⟨-, errors, added, verdict, results, rfl, perm⟩ :=
      operation_results (gives _ _ prepared) _ outcome trace holds run
    constructor
    · refine execute_returns (fun executor found same => ?_) begins
      rw [also] at same
      cases same
      exact Results.allStart second results
    · intro limits answer last ran
      obtain ⟨outcome, later, run, rfl, -⟩ := execute_prepared also ran
      obtain ⟨-, more, addedLater, again, alike, rfl, same⟩ :=
        operation_results second _ outcome later begins run
      cases results.unique alike
      refine respond_agrees _ ?_
      rw [added, addedLater]
      exact same.trans perm.symm

/-- A list, one of its items, and an error come late, and the response is the same. -/
theorem execute_agrees_late :
    (∃ bound answer, ∀ limits : Limits, limits.Allow bound →
      execute limits pendingSchema (pendingHost true) pendingRequest.alone () = some (answer, ())) ∧
    ∀ limits answer, execute limits pendingSchema (pendingHost true) pendingRequest.alone () =
        some (answer, ()) →
      answer.data = some (.object [("names", .list [.string "b", .string "c"]), ("slow", .null)]) ∧
        answer.errors.map ResponseError.message = ["timed out"] := by
  have now : (execute ⟨4, 1⟩ pendingSchema (pendingHost false) pendingRequest.alone ()).map
      (fun answer => (answer.1.data, answer.1.errors.map ResponseError.message)) =
      some (some (.object [("names", .list [.string "b", .string "c"]), ("slow", .null)]),
        ["timed out"]) := by cbv
  obtain ⟨⟨response, ⟨⟩⟩, ran, same⟩ := Option.map_eq_some_iff.1 now
  obtain ⟨data, messages⟩ := Prod.mk.inj same
  have gives (late : Bool) (executor : Executor Pending Unit) (root : ObjectType)
      (prepared : prepare pendingSchema (pendingHost late) pendingRequest.alone =
        .ok (executor, root)) :
      Gives executor root (fun _ => pendingReplies) fun _ _ => True := by
    rw [pendingRequest_prepared] at prepared
    cases prepared
    exact pendingHost_gives late
  obtain ⟨⟨bound, answer, ⟨⟩, returns⟩, agree⟩ :=
    execute_agrees (gives false) (gives true) trivial trivial ran
  refine ⟨⟨bound, answer, returns⟩, fun limits answer ran => ?_⟩
  obtain ⟨same, perm⟩ := agree limits answer () ran
  refine ⟨same.trans data, List.perm_singleton.1 ?_⟩
  rw [← messages]
  exact perm.map ResponseError.message

end GraphQL.Execution
