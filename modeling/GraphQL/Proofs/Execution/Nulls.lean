import GraphQL.Proofs.Execution.Replying
import GraphQL.Proofs.Execution.Responses
import GraphQL.Proofs.Execution.Vouching
import GraphQL.Proofs.Schema.Built

/-! Where the nulls of a response come from: whatever an execution completes vouches for its nulls,
and so do the rounds in which it is asked and the fields that are settled one after the other. -/
namespace GraphQL.Execution
open Ast (SelectionSet)

variable {τ σ : Type}

section Leaves
variable {executor : Executor τ σ} {site : Site} {path : Path} {name : String}
  {value : FieldValue τ}

/-- A value that is not completed as an object is an error of its position, or it is serialized. -/
def Leaf (schema : Schema) (path : Path) (name : String) (value : FieldValue τ) :
    Except Outcome ObjectType → Prop
  | .ok _ => True
  | .error (.error error) => error.path = some path
  | .error (.ok result) => ∃ plain type, value = .value plain ∧ schema.type? name = some type ∧
      type.serialized? plain = some result

theorem leaf_serialized {type : TypeDef} (known : executor.plan.schema.type? name = some type) :
    Leaf executor.plan.schema path name value (.error (executor.leaf site path type value)) := by
  unfold Executor.leaf
  cases value with
  | value plain =>
    cases type with
    | scalar scalar =>
      dsimp only
      cases serialized : scalar.serialize plain with
      | ok result =>
        refine ⟨plain, _, rfl, known, ?_⟩
        rw [TypeDef.serialized?, serialized]
        rfl
      | error message => exact (rfl : (site.error path message).path = some path)
    | enum enum =>
      dsimp only
      cases serialized : enum.serialize plain with
      | none => exact (rfl : (site.error path _).path = some path)
      | some result => exact ⟨plain, _, rfl, known, serialized⟩
    | _ => exact (rfl : (site.error path _).path = some path)
  | _ => exact (rfl : (site.error path _).path = some path)

theorem admitted_leaf (type : ObjectType) :
    Consults (fun _ => True) (executor.admitted site path type value)
      (Leaf executor.plan.schema path name value) := by
  rw [Executor.admitted]
  cases type.isTypeOf with
  | none => exact .pure trivial
  | some handle =>
    have asked : Consults (fun _ => True)
        (ask (executor.host.isTypeOf handle value ⟨executor.plan, site, path⟩)) fun _ => True :=
      ask_consults fun _ _ => ⟨trivial, trivial⟩
    refine asked.bind fun accepted _ => ?_
    cases accepted with
    | true => exact .pure trivial
    | false => exact .pure rfl

theorem objectType_leaf : Consults (fun _ => True) (executor.objectType site path name value)
    (Leaf executor.plan.schema path name value) := by
  have judges : Judges executor (fun _ => True) site :=
    ⟨fun _ _ _ _ _ => trivial, fun _ _ _ _ _ => trivial⟩
  rw [Executor.objectType]
  split
  · exact admitted_leaf _
  · rename_i type _ known
    split
    · exact .pure (leaf_serialized known)
    · split
      · rename_i abstract
        refine (runtimeType_consults judges path known abstract value).bind fun result fits => ?_
        cases result with
        | error error => exact .pure fits
        | ok object => exact admitted_leaf object
      · exact .pure rfl
  · exact .pure rfl

end Leaves

theorem demand_ensures {I : σ → Prop} (allowed : Step τ → Bool) (step : Step τ) :
    Ensures I (demand allowed step) fun _ errors => errors = [] ∧ allowed step = true := by
  rw [demand]
  split
  · rename_i here
    exact .pure ⟨rfl, here⟩
  · exact failure_ensures

/-- A way of completing values that vouches for their nulls, at all positions of a known type. -/
def AllVouch (executor : Executor τ σ) (allowed : Step τ → Bool)
    (complete : Executor.Complete τ σ) : Prop :=
  ∀ site type full path value, Declared (allowed · = true) path full →
    full.element? = type.element? → Ensures (fun _ => True) (complete site type path value)
      (Vouches executor.plan.schema (allowed · = true) path path)

section Within
variable {executor : Executor τ σ} {allowed : Step τ → Bool} {complete : Executor.Complete τ σ}

theorem fieldWithin_vouches (completes : AllVouch executor allowed complete) (site : Site)
    (path : Path) (segment : PathSegment) (source : FieldValue τ) :
    Ensures (fun _ => True)
      (executor.fieldWithin allowed complete site (path ++ [segment]) source)
      (Vouches executor.plan.schema (allowed · = true) path (path ++ [segment])) := by
  refine (demand_ensures allowed _).silent fun _ resolved => ?_
  have declared : Declared (allowed · = true) (path ++ [segment]) site.field.type := .field resolved
  rw [Executor.field, call_eq]
  refine (ask_ensures fun _ _ => trivial).silent fun result _ => ?_
  cases result with
  | ok value =>
    exact (completes site _ _ _ value declared rfl).bind fun completion errors vouches =>
      guardAt_vouches vouches declared
  | error message => exact guardAt_vouches (failed_vouches site message) declared

theorem objectWithin_vouches (completes : AllVouch executor allowed complete) (object : ObjectType)
    (path : Path) (source : FieldValue τ) (sets : List SelectionSet) :
    Ensures (fun _ => True) (executor.objectWithin allowed complete object path source sets)
      (Vouches executor.plan.schema (allowed · = true) path path) := by
  refine (mapM_ensures fun found _ => fieldWithin_vouches completes found.2 path (.key found.1)
    source).map fun completions errors answered => ?_
  obtain ⟨parts, sites, rfl, rfl, each⟩ := answered
  rw [← sites]
  exact join_vouches (fun found => .key found.1) (sites ▸ sites_addresses executor object sets) each

theorem itemsWithin_vouches {complete : FieldValue τ → Path → Exec σ (Completion τ)}
    {schema : Schema} {taken : Step τ → Prop} {path : Path} {full item : TypeRef}
    (declared : Declared taken path full) (element : full.element? = some item)
    (completes : ∀ value path, Declared taken path item →
      Ensures (fun _ => True) (complete value path) (Vouches schema taken path path))
    (values : List (FieldValue τ)) :
    Ensures (fun _ => True) (Completion.join .list <$> Executor.items complete item path 0 values)
      (Vouches schema taken path path) := by
  have inside (index : Nat) : Declared taken (path ++ [.index index]) item :=
    .item index declared element
  rw [items_eq]
  refine (mapM_ensures fun found _ => (completes found.1 _ (inside found.2)).bind
    fun completion errors vouches => guardAt_vouches vouches (inside found.2)).map
    fun completions errors answered => ?_
  obtain ⟨parts, indices, rfl, rfl, each⟩ := answered
  exact join_vouches (fun found => .index found.2) (indices ▸ items_addresses values) each

/-- A completion at any type vouches for its nulls. -/
theorem completeWithin_vouches (depth : Nat) :
    AllVouch executor allowed (executor.completeWithin allowed depth) := by
  induction depth with
  | zero => exact fun _ _ _ _ _ _ _ => failure_ensures
  | succ depth ih =>
    intro site type full path value declared same
    rw [Executor.completeWithin]
    refine (demand_ensures allowed _).silent fun _ handed => ?_
    have null (isNull : value.isNull = true) :
        Vouches executor.plan.schema (allowed · = true) path path (.settled (.ok .null)) [] :=
      .settled (accounted_of_handed handed isNull)
    split
    · exact .pure (.awaiting (fun _ => id) declared same)
    · rename_i inner _
      refine (ih site inner full path value declared same).bind
        fun completion errors vouches => .pure ?_
      rw [List.append_nil]
      exact require_vouches site vouches
    · rename_i item _
      split
      · rename_i isNull
        exact .pure (null isNull)
      · split
        · have joined := itemsWithin_vouches declared same
            (fun value path declared => ih site item item path value declared rfl)
          simp only [map_eq_pure_bind] at joined
          exact joined _
        · exact .pure (failed_vouches site _)
    · rename_i name _
      split
      · rename_i isNull
        exact .pure (null isNull)
      · refine objectType_leaf.ensures.silent fun answer leaf => ?_
        cases answer with
        | ok object => exact objectWithin_vouches ih object path value _
        | error outcome =>
          refine .pure (.settled ?_)
          cases outcome with
          | error error => exact rises_here leaf
          | ok result =>
            obtain ⟨plain, type, rfl, known, serialized⟩ := leaf
            exact fun rest null => .serialized handed known serialized null

/-- Branches of a joined completion, which vouch for their nulls. -/
def branchLedger (schema : Schema) (taken : Step τ → Prop) (path : Path) :
    Ledger (Branch τ) PathSegment τ where
  frame := Branch.segment
  completion := Branch.completion
  errors := Branch.errors
  good branch :=
    Vouches schema taken path (path ++ [branch.segment]) branch.completion branch.errors

/-- A round of asking: what is asked goes on vouching for its nulls. -/
theorem pollWithin_vouches (depth : Nat) {base path : Path} {completion : Completion τ}
    {errors : List ResponseError}
    (vouches : Vouches executor.plan.schema (allowed · = true) base path completion errors) :
    Ensures (fun _ => True) (executor.pollWithin allowed depth completion) fun after more =>
      Vouches executor.plan.schema (allowed · = true) base path after (errors ++ more) := by
  induction depth generalizing base path completion errors with
  | zero => exact failure_ensures
  | succ depth ih =>
    cases vouches with
    | settled vouched =>
      refine .pure ?_
      rw [List.append_nil]
      exact .settled vouched
    | @awaiting _ _ later site type full lifts declared same =>
      obtain ⟨polls, source⟩ := later
      cases polls with
      | succ polls => exact .pure (.awaiting lifts declared same)
      | zero =>
        refine (ask_ensures fun _ _ => trivial).silent fun result _ => ?_
        cases result with
        | error message => exact .pure ((failed_vouches site message).lift lifts)
        | ok value =>
          exact (completeWithin_vouches depth site type full path value declared same).bind
            fun completion errors vouches => ih (vouches.lift lifts)
    | @required _ _ site inner _ lifts vouches =>
      refine (ih vouches).bind fun after more vouches => .pure ?_
      rw [List.append_nil]
      exact (require_vouches site vouches).lift lifts
    | guarded vouches =>
      refine (ih vouches).bind fun after more vouches => ?_
      refine (guard_vouches base vouches).mono fun last later vouches => ?_
      rwa [← List.append_assoc]
    | @joined _ _ shape branches turns _ lifts addresses each same =>
      have asks : (branchLedger executor.plan.schema (allowed · = true) path).Asks (fun _ => True)
          (executor.pollWithin allowed depth) := fun branch vouches =>
        (ih vouches).mono fun completion more vouches =>
          ⟨⟨branch.segment, completion, branch.errors ++ more⟩, rfl, rfl, vouches, rfl⟩
      refine (askParts_moves asks shape turns each).mono fun answer more asked => ?_
      obtain ⟨after, later, rfl, moved⟩ := asked
      have segments : after.map Branch.segment = branches.map Branch.segment := moved.frame
      refine (gather_vouches later (segments ▸ addresses) moved.good ?_).lift lifts
      exact (same.append_right more).trans moved.errors.symm

theorem settleWithin_vouches (limits : Limits) {base path : Path} {completion : Completion τ}
    {errors : List ResponseError}
    (vouches : Vouches executor.plan.schema (allowed · = true) base path completion errors) :
    Ensures (fun _ => True) (executor.settleWithin allowed limits completion) fun outcome more =>
      Vouched executor.plan.schema (allowed · = true) base path outcome (errors ++ more) := by
  have kept := settleBy_keeps (R := Vouches executor.plan.schema (allowed · = true) base path)
    (fun completion errors vouches => pollWithin_vouches limits.depth vouches) limits.rounds vouches
  refine kept.mono fun outcome more vouches => ?_
  cases vouches with
  | settled vouched => exact vouched

/-- There are reasons for the nulls in the values of fields that are settled one after the other. -/
def FieldsVouched (schema : Schema) (taken : Step τ → Prop) :
    Except ResponseError (Entries Value) → List ResponseError → Prop
  | .ok entries, errors =>
      ∀ key value, (key, value) ∈ entries → NullsAccounted schema taken errors [.key key] value
  | .error error, _ => Rises taken [] error

theorem inTurnWithin_vouches (limits : Limits) (source : FieldValue τ)
    (sites : List (String × Site)) :
    Ensures (fun _ => True) (executor.inTurnWithin allowed limits source sites)
      (FieldsVouched executor.plan.schema (allowed · = true)) := by
  induction sites with
  | nil => exact .pure fun _ _ member => absurd member List.not_mem_nil
  | cons found rest ih =>
    obtain ⟨key, site⟩ := found
    rw [Executor.inTurnWithin]
    have completes : AllVouch executor allowed _ := completeWithin_vouches limits.depth
    have first := (fieldWithin_vouches completes site [] (.key key) source).bind
      fun completion errors vouches => settleWithin_vouches limits vouches
    refine first.bind fun outcome errors vouched => ?_
    cases outcome with
    | error error => exact .pure vouched
    | ok value =>
      refine ih.bind fun result more others => .pure ?_
      rw [List.append_nil]
      cases result with
      | error error => exact others
      | ok entries =>
        intro name other member
        rcases List.mem_cons.1 member with same | member
        · cases same
          exact vouched.mono fun error => List.mem_append_left more
        · exact (others name other member).mono fun error => List.mem_append_right errors

theorem operationWithin_vouches (limits : Limits) (root : ObjectType) :
    Ensures (fun _ => True) (executor.operationWithin allowed limits root)
      (Vouched executor.plan.schema (allowed · = true) [] []) := by
  have completes : AllVouch executor allowed _ := completeWithin_vouches limits.depth
  have together := (objectWithin_vouches completes root [] executor.plan.root
    [executor.plan.operation.selectionSet]).bind
    fun completion errors vouches => settleWithin_vouches limits vouches
  rw [Executor.operationWithin]
  cases executor.plan.operation.operation with
  | mutation =>
    refine (inTurnWithin_vouches limits _ _).bind fun result errors vouched => .pure ?_
    rw [List.append_nil]
    cases result with
    | error error => exact vouched
    | ok entries =>
      intro rest null
      obtain ⟨name, tail, value, rfl, member, null⟩ := null_of_object null
      exact vouched name value member tail null
  | query => exact together
  | subscription => exact together

end Within

section Requests
variable {limits : Limits} {schema : Schema} {host : Host τ σ} {request : Request τ σ}
  {state after : σ} {response : Response} {executor : Executor τ σ} {root : ObjectType}

theorem prepared_schema (prepared : prepare schema host request = .ok (executor, root)) :
    executor.plan.schema = schema := by
  rw [prepare] at prepared
  obtain ⟨operation, _, prepared⟩ := SchemaBuilder.except_bind_ok prepared
  obtain ⟨bindings, _, prepared⟩ := SchemaBuilder.except_bind_ok prepared
  obtain ⟨root, _, prepared⟩ := SchemaBuilder.except_bind_ok prepared
  cases prepared
  rfl

/-- Where an execution is answered within some steps, these are reasons enough. -/
theorem executeWithin_accounts {allowed : Step τ → Bool}
    (prepared : prepare schema host request = .ok (executor, root))
    (ran : executeWithin allowed limits schema host request state = some (response, after)) :
    ∃ data, response.data = some data ∧
      NullsAccounted schema (allowed · = true) response.errors [] data := by
  rw [executeWithin, prepared, Option.map_eq_some_iff] at ran
  obtain ⟨⟨outcome, trace⟩, run, same⟩ := ran
  cases same
  obtain ⟨-, errors, added, vouched⟩ :=
    operationWithin_vouches limits root _ outcome trace trivial run
  obtain rfl : errors = trace.errors := by rw [added, List.nil_append]
  rw [prepared_schema prepared] at vouched
  cases outcome with
  | ok data => exact ⟨data, rfl, vouched⟩
  | error error =>
    exact ⟨.null, rfl, accounted_of_rises vouched (List.mem_append_right _ List.mem_cons_self)⟩

end Requests

/-- Where the data of a response holds a null, the position has been handed a null, or a leaf has
been serialized to it, or an error is recorded that arose there or below, and no position from
strictly below the null down to the error may be null. -/
theorem nulls_accounted {limits : Limits} {schema : Schema} {host : Host τ σ}
    {request : Request τ σ} {state after : σ} {response : Response}
    (ran : execute limits schema host request state = some (response, after)) {data : Value}
    (started : response.data = some data) {path : Path} (null : data.at? path = some .null) :
    Accounted schema (Takes limits schema host request state) response.errors path := by
  classical
  obtain ⟨executor, root, prepared⟩ := prepared_of_data ran started
  obtain ⟨steps, takes, -, within⟩ := exists_steps ran
  have again := within (fun step => decide (step ∈ steps)) fun step => decide_eq_true
  obtain ⟨found, same, accounted⟩ := executeWithin_accounts prepared again
  rw [started] at same
  cases same
  exact (accounted path null).mono (fun step here => (takes step).2 (of_decide_eq_true here))
    fun _ => id

/-- The object that a leaf must stand in is null for the error of the leaf. -/
theorem nulls_accounted_lacking : ∃ response,
    execute ⟨4, 4⟩ lackingSchema plainHost lackingRequest () = some (response, ()) ∧
      response.data = some (.object [("a", .null), ("b", .null)]) ∧
      Accounted lackingSchema (Takes ⟨4, 4⟩ lackingSchema plainHost lackingRequest ())
        response.errors [.key "a"] := by
  have ran : (execute ⟨4, 4⟩ lackingSchema plainHost lackingRequest ()).map
      (fun answer => answer.1.data) = some (some (.object [("a", .null), ("b", .null)])) := by cbv
  obtain ⟨⟨response, after⟩, executed, data⟩ := Option.map_eq_some_iff.1 ran
  exact ⟨response, executed, data, nulls_accounted executed data (by cbv)⟩

end GraphQL.Execution
