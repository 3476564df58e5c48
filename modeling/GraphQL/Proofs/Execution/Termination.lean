import GraphQL.Proofs.Execution.Descent
import GraphQL.Proofs.Execution.Grounded
import GraphQL.Proofs.Execution.Required

/-! Executions that terminate. The host always answers, and values that are still to come do come;
then an execution comes to an end at every document in which no fragment comes back to itself
through the sub-selection of a field. -/
namespace GraphQL.Execution
open Ast (SelectionSet)
open Validation.Overlap (mem_of_named? weight)

variable {τ σ : Type}

/-- A value arrives: it is there, or the host computes one that arrives, and so do all items of a
list. -/
inductive Arrives (host : Host τ σ) (I : σ → Prop) : FieldValue τ → Prop
  | known {value : FieldValue τ} : value.later? = none →
      (∀ items, value = .list items → ∀ item ∈ items, Arrives host I item) → Arrives host I value
  | deferred {later : Later τ} :
      (∀ state value, I state → ((host.compute later.source).run state).1 = .ok value →
        Arrives host I value) → Arrives host I (.deferred later)

/-- The host answers an execution: it keeps an invariant of its state, and the values of resolved
fields arrive. -/
structure Prompt (executor : Executor τ σ) (root : ObjectType) (I : σ → Prop) : Prop
    extends Keeps executor root I where
  arrives : ∀ site, executor.plan.Resolves root site →
    ∀ path source arguments state value, I state →
      ((executor.resolve site path source arguments).run state).1 = .ok value →
        Arrives executor.host I value

section Grounding
variable {executor : Executor τ σ} {root : ObjectType} {I : σ → Prop} {height : String → Nat}

theorem Arrives.items {host : Host τ σ} {value item : FieldValue τ} {values : List (FieldValue τ)}
    (arrives : Arrives host I value) (same : Executor.items? value = some values)
    (member : item ∈ values) : Arrives host I item := by
  cases arrives with
  | deferred => cases same
  | known _ each =>
    cases value with
    | list inner =>
      cases same
      exact each _ rfl item member
    | value plain =>
      cases plain with
      | list items =>
        cases same
        obtain ⟨inner, _, rfl⟩ := List.mem_map.1 member
        exact .known rfl fun items same => by cases same
      | _ => cases same
    | _ => cases same

theorem call_returns (prompt : Prompt executor root I) {site : Site}
    (resolves : executor.plan.Resolves root site) (path : Path) (source : FieldValue τ) :
    Returns I I (fun _ => executor.call site path source) fun result =>
      ∀ value, result = .ok value → Arrives executor.host I value := by
  simp only [Executor.call]
  split
  · refine (ask_returns (prompt.resolve site resolves path source _)).mono fun result answered => ?_
    obtain ⟨state, holds, rfl⟩ := answered
    exact fun value same => prompt.arrives site resolves path source _ state value holds same
  · exact .pure fun value same => by cases same

/-- Among the sets that an object is completed from there is one that all sub-selections of its
fields are lighter than. -/
theorem Plan.Lightens.heaviest {plan : Plan τ} (lightens : plan.Lightens height)
    {object : ObjectType} {sets : List SelectionSet} {key : String} {nodes : List Ast.Field}
    (group : (key, nodes) ∈ plan.collect object sets) :
    ∃ set ∈ sets, ∀ inner ∈ setsOf nodes, weight height inner < weight height set := by
  classical
  have some_set : sets.toFinset.Nonempty := by
    cases sets with
    | nil =>
      rw [Plan.collect, List.flatMap_nil, expand] at group
      cases group
    | cons first rest => exact ⟨first, List.mem_toFinset.2 List.mem_cons_self⟩
  obtain ⟨set, member, most⟩ := Finset.exists_max_image sets.toFinset (weight height) some_set
  refine ⟨set, List.mem_toFinset.1 member, fun inner inside => ?_⟩
  obtain ⟨other, known, less⟩ := lightens object sets key nodes group inner inside
  exact lt_of_lt_of_le less (most other (List.mem_toFinset.2 known))

/-- Values that arrive are completed to the end: level by level the selections become lighter, and
within a level the types and then the values become smaller. -/
theorem grounded_of_lightens (prompt : Prompt executor root I)
    (lightens : executor.plan.Lightens height) (bound : Nat ×ₗ Nat) (site : Site)
    (light : ∀ set ∈ setsOf site.nodes, weight height set < bound) (type : TypeRef)
    (places : executor.plan.Places root site type) (path : Path) (value : FieldValue τ)
    (arrives : Arrives executor.host I value) : Grounded executor I site type path value := by
  induction bound using WellFoundedLT.induction generalizing site type path value with
  | ind bound lower =>
    induction type generalizing path value with
    | named name =>
      induction arrives with
      | deferred _ ih =>
        exact .deferred (fun state => prompt.compute _ state) fun state value holds came =>
          ih state value holds came
      | @known value here _ _ =>
        obtain ⟨resolves, innermost⟩ := places
        have decides := (objectType_consults (prompt.judges resolves) path name value).returns
        have reached (object : ObjectType)
            (answered : Answered I (executor.objectType site path name value) (.ok object)) :
            executor.plan.Reaches root object (setsOf site.nodes) := by
          refine reaches_of_resolves resolves ?_
          rw [← innermost]
          exact answered.holds decides
        refine .named here (decides.mono fun _ _ => trivial)
          (fun object answered key inner member => ?_)
          fun object answered key inner member other came => ?_
        · exact (call_returns prompt (resolves_of_mem (reached object answered) member) _ _).mono
            fun _ _ => trivial
        · have inside := resolves_of_mem (reached object answered) member
          obtain ⟨set, known, lighter⟩ := lightens.heaviest (mem_sites.1 member).2.1
          exact lower _ (light set known) inner lighter inner.field.type ⟨inside, rfl⟩ _ other
            (came.holds (call_returns prompt inside _ _) other rfl)
    | list item ih =>
      have places : executor.plan.Places root site item := places
      induction arrives with
      | deferred _ ih =>
        exact .deferred (fun state => prompt.compute _ state) fun state value holds came =>
          ih state value holds came
      | @known value here each _ =>
        cases same : Executor.items? value with
        | none => exact .unlisted here same
        | some values =>
          refine .list same fun index other found => ih places _ other ?_
          exact (Arrives.known here each).items same (List.mem_of_getElem? found)
    | nonNull inner ih =>
      have places : executor.plan.Places root site inner := places
      induction arrives with
      | deferred _ ih =>
        exact .deferred (fun state => prompt.compute _ state) fun state value holds came =>
          ih state value holds came
      | @known value here each _ => exact .nonNull here (ih places path value (.known here each))

theorem begins_of_descends (prompt : Prompt executor root I) (descends : executor.plan.Descends) :
    Begins executor root fun _ => I := by
  obtain ⟨height, lightens⟩ := descends.lightens
  intro before key site member
  have resolves := resolves_of_mem .root member
  refine (call_returns prompt resolves _ _).mono fun result arrives value same => ?_
  obtain ⟨set, _, lighter⟩ := lightens.heaviest (mem_sites.1 member).2.1
  exact grounded_of_lightens prompt lightens _ site lighter _ ⟨resolves, rfl⟩ _ value
    (arrives value same)

end Grounding

/-- The host keeps an invariant of its state, and all values that it has arrive. -/
structure Delivers (host : Host τ σ) (I : σ → Prop) : Prop where
  resolve : ∀ handle source arguments info state, I state →
    I ((host.resolve handle source arguments info).run state).2 ∧
      ∀ value, ((host.resolve handle source arguments info).run state).1 = .ok value →
        Arrives host I value
  field : ∀ object name state, I state → I ((host.field object name).run state).2 ∧
    ∀ value, ((host.field object name).run state).1 = some value → Arrives host I value
  compute : ∀ source state, I state → I ((host.compute source).run state).2 ∧
    ∀ value, ((host.compute source).run state).1 = .ok value → Arrives host I value
  isTypeOf : ∀ handle value info state, I state → I ((host.isTypeOf handle value info).run state).2
  resolveType : ∀ handle value info state, I state →
    I ((host.resolveType handle value info).run state).2

section Delivering
variable {executor : Executor τ σ} {host : Host τ σ} {I : σ → Prop}

theorem Present.arrives {value : FieldValue τ} (present : Present value) :
    Arrives host I value := by
  induction present with
  | intro here _ ih => exact .known here ih

theorem readField_delivers (delivers : Delivers host I) (source : FieldValue τ) (name : String)
    (state : σ) (holds : I state) : I ((host.readField source name).run state).2 ∧
      ∀ value, ((host.readField source name).run state).1 = .ok value → Arrives host I value := by
  have still {other : Value} : I state ∧ ∀ value,
      (Except.ok (.value other) : FieldResult τ) = .ok value → Arrives host I value :=
    ⟨holds, fun value same => by cases same; exact (present_value other).arrives⟩
  cases source with
  | value plain => exact still
  | object object =>
    obtain ⟨kept, arrives⟩ := delivers.field object name state holds
    rw [Host.readField, StateT.run_bind]
    generalize (host.field object name).run state = found at kept arrives
    obtain ⟨found, after⟩ := found
    dsimp only [Bind.bind] at kept arrives ⊢
    split
    · exact delivers.compute _ after kept
    · exact ⟨kept, fun value same => by cases same; exact arrives _ rfl⟩
    · exact ⟨kept, fun value same => by cases same; exact (present_value .null).arrives⟩
  | _ => exact still

/-- Without middleware an execution is answered if the host delivers. -/
theorem Delivers.prompt (delivers : Delivers executor.host I) (root : ObjectType)
    (alone : executor.middleware = []) : Prompt executor root I := by
  have resolved (site : Site) (path : Path) (source : FieldValue τ) (arguments : Entries Value)
      (state : σ) (holds : I state) :
      I ((executor.resolve site path source arguments).run state).2 ∧ ∀ value,
        ((executor.resolve site path source arguments).run state).1 = .ok value →
          Arrives executor.host I value := by
    rw [Executor.resolve, alone, List.foldr_nil, Executor.resolver]
    cases site.field.resolver with
    | none => exact readField_delivers delivers source _ state holds
    | some resolver =>
      cases resolver with
      | host handle => exact delivers.resolve handle source arguments _ state holds
      | introspection =>
        exact ⟨holds, fun value same => (introspection_told source arguments _ value same).arrives⟩
  exact {
    resolve := fun site _ path source arguments state holds =>
      (resolved site path source arguments state holds).1
    isTypeOf := fun site _ handle value path => delivers.isTypeOf handle value _
    resolveType := fun site _ handle value path => delivers.resolveType handle value _
    compute := fun source state holds => (delivers.compute source state holds).1
    arrives := fun site _ path source arguments state value holds =>
      (resolved site path source arguments state holds).2 value }

end Delivering

section Pets

/-- Has one object, a dog that is its own friend. -/
def selfishHost : Host Unit Unit where
  typeName _ := some "Dog"
  field _ _ := return some (.object ())
  compute _ := return .ok (.object ())
  resolve _ _ _ _ := return .ok (.object ())
  isTypeOf _ _ _ := return true
  resolveType _ _ _ := return some "Dog"

theorem selfishHost_delivers : Delivers selfishHost fun _ => True := by
  have there : Arrives selfishHost (fun _ => True) (.object ()) :=
    .known rfl fun _ same => by cases same
  refine ⟨fun _ _ _ _ _ _ => ⟨trivial, fun value same => ?_⟩,
    fun _ _ _ _ => ⟨trivial, fun value same => ?_⟩, fun _ _ _ => ⟨trivial, fun value same => ?_⟩,
    fun _ _ _ _ _ => trivial, fun _ _ _ _ _ => trivial⟩
  all_goals
    cases same
    exact there

def friendsSpread : Ast.Selection := .spread ⟨⟨"Friends", none⟩, [], none⟩

/-- The friends of friends are asked for by the fragment itself. -/
def endlessFriends : Ast.Field :=
  ⟨none, ⟨"friend", none⟩, [], [], some ⟨[friendsSpread], none⟩, none⟩

def friendsOperation : Ast.OperationDefinition :=
  ⟨.query, none, [], [], ⟨[friendsSpread], none⟩, none⟩

def friendsFragment (fields : List Ast.Selection) : Ast.FragmentDefinition :=
  ⟨⟨"Friends", none⟩, ⟨⟨"Dog", none⟩, none⟩, [], ⟨fields, none⟩, none⟩

def friendsRequest (fields : List Ast.Selection) : Request Unit Unit :=
  { document := ⟨[.operation friendsOperation, .fragment (friendsFragment fields)], none⟩
    root := .object () }

def endlessSite : Site := ⟨loudDogType, plainFriendField, [endlessFriends]⟩

def friendsExecutor (fields : List Ast.Selection) : Executor Unit Unit :=
  ⟨⟨loudSchema, [friendsFragment fields], .object (), friendsOperation, []⟩, selfishHost, []⟩

theorem friendsRequest_prepared (fields : List Ast.Selection) :
    prepare loudSchema selfishHost (friendsRequest fields) =
      .ok (friendsExecutor fields, loudDogType) := rfl

theorem endless_sites : (friendsExecutor [.field endlessFriends]).sites loudDogType
    ((friendsExecutor [.field endlessFriends]).plan.collect loudDogType (setsOf [endlessFriends])) =
      [("friend", endlessSite)] := by
  have collected : (friendsExecutor [.field endlessFriends]).plan.collect loudDogType
      (setsOf [endlessFriends]) = [("friend", [endlessFriends])] := by cbv
  rw [collected]
  rfl

/-- The executor for endless friends. -/
def endless : Executor Unit Unit := friendsExecutor [.field endlessFriends]

/-- Where the value of a friend cannot be completed, nor can a dog. -/
theorem endless_object {complete : Executor.Complete Unit Unit}
    (fails : ∀ path trace, (complete endlessSite (.named "Pet") path (.object ())).run trace = none)
    (path : Path) (trace : Trace Unit) :
    (endless.object complete loudDogType path (.object ())
      (endless.plan.collect loudDogType (setsOf [endlessFriends]))).run trace = none := by
  have called : (endless.call endlessSite (path ++ [.key "friend"]) (.object ())).run trace =
      some (.ok (.object ()), trace) := rfl
  have field : (endless.field complete endlessSite (path ++ [.key "friend"])
      (.object ())).run trace = none := by
    rw [Executor.field, StateT.run_bind, called]
    show (complete endlessSite (.named "Pet") _ _ >>= _).run trace = none
    rw [StateT.run_bind, fails]
    rfl
  rw [object_eq, endless, endless_sites, map_eq_pure_bind, List.mapM_cons, bind_assoc,
    StateT.run_bind, ← endless, field]
  rfl

theorem endless_complete (depth : Nat) (path : Path) (trace : Trace Unit) :
    (endless.complete depth endlessSite (.named "Pet") path (.object ())).run trace = none := by
  induction depth generalizing path trace with
  | zero => rfl
  | succ depth ih =>
    have chosen : (endless.objectType endlessSite path "Pet" (.object ())).run trace =
        some (.ok loudDogType, trace) := rfl
    rw [complete_named _ _ _ _ rfl, if_neg (by decide), asNamed_eq, StateT.run_bind, chosen]
    exact endless_object ih path trace

theorem endless_operation (limits : Limits) :
    (endless.operation limits loudDogType).run ⟨(), []⟩ = none := by
  have root : endless.plan.collect loudDogType [friendsOperation.selectionSet] =
      endless.plan.collect loudDogType (setsOf [endlessFriends]) := by cbv
  show (endless.object _ loudDogType [] (.object ())
    (endless.plan.collect loudDogType [friendsOperation.selectionSet]) >>= _).run _ = none
  rw [root, StateT.run_bind, endless_object (endless_complete limits.depth)]
  rfl

/-- A fragment may spread itself beside its fields. -/
theorem besides_descends : (friendsExecutor [.field petName, friendsSpread]).plan.Descends := by
  have nowhere (outer inner : String) :
      ¬ (friendsExecutor [.field petName, friendsSpread]).plan.Deepens outer inner := by
    rintro ⟨beside, _, fragment, node, set, found, stands, selects, _⟩
    have known : fragment = friendsFragment [.field petName, friendsSpread] := by
      simpa [friendsExecutor] using mem_of_named? found
    subst known
    cases stands with
    | field member =>
      obtain rfl : node = petName := by simpa [friendsFragment, friendsSpread] using member
      cases selects
    | inline member => simp [friendsFragment, friendsSpread] at member
  intro name around
  cases around with
  | single step => exact nowhere _ _ step
  | tail _ step => exact nowhere _ _ step

end Pets

/-- A request is answered, at all limits that are high enough in the same way, unless a fragment of
its document comes back to itself through the sub-selection of a field. -/
theorem execute_terminates {schema : Schema} {host : Host τ σ} {request : Request τ σ} {state : σ}
    {I : σ → Prop} (holds : I state)
    (prompt : ∀ executor root, prepare schema host request = .ok (executor, root) →
      Prompt executor root I)
    (descends : ∀ executor root, prepare schema host request = .ok (executor, root) →
      executor.plan.Descends) :
    ∃ bound response after, ∀ limits : Limits, limits.Allow bound →
      execute limits schema host request state = some (response, after) :=
  execute_returns (fun executor root prepared => Begins.allStart
    (begins_of_descends (prompt executor root prepared) (descends executor root prepared))) holds

/-- A fragment that spreads itself beside its fields is opened once. -/
theorem execute_terminates_beside : ∃ bound response after, ∀ limits : Limits, limits.Allow bound →
    execute limits loudSchema selfishHost (friendsRequest [.field petName, friendsSpread]) () =
      some (response, after) := by
  refine @execute_terminates _ _ _ _ _ _ (fun _ => True) trivial (fun executor root prepared => ?_)
    fun executor root prepared => ?_
  all_goals
    rw [friendsRequest_prepared] at prepared
    cases prepared
  · exact selfishHost_delivers.prompt _ rfl
  · exact besides_descends

/-- The host delivers all values, and still there are no limits at which a request is answered whose
fragment spreads itself in the sub-selection of a field. -/
theorem execute_endless : loudSchema.Built ∧ Delivers selfishHost (fun _ => True) ∧
    ∀ limits, execute limits loudSchema selfishHost (friendsRequest [.field endlessFriends]) () =
      none := by
  refine ⟨loudSchema_built, selfishHost_delivers, fun limits => ?_⟩
  rw [execute, friendsRequest_prepared]
  show ((endless.operation limits loudDogType).run ⟨(), []⟩).map _ = none
  rw [endless_operation]
  rfl

end GraphQL.Execution
