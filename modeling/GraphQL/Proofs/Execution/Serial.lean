import Mathlib
import GraphQL.Proofs.Execution.Watching

/-! Mutations. The fields of the root take turns: all that happens at a field or below it happens
before the next one is resolved, and an error that a field cannot settle ends the execution. -/
namespace GraphQL.Execution

variable {τ σ α : Type}

/-- A completion that is settled without an error, or will be. -/
inductive Completion.Safe : Completion τ → Prop
  | value (value : Value) : Safe (.settled (.ok value))
  | guarded (inner : Completion τ) : Safe (.guarded inner)

section Safety
variable {executor : Executor τ σ} {completion : Completion τ}

theorem guard_safe (completion : Completion τ) :
    Extends (σ := σ) Completion.Safe completion.guard completion.guard := by
  cases completion with
  | settled outcome =>
    cases outcome with
    | ok value => exact .pure (.value value)
    | error error => exact (Extends.refl (record error)).bind fun _ _ => .pure (.value .null)
  | _ => exact .pure (.guarded _)

theorem poll_safe (depth : Nat) (safe : completion.Safe) :
    Extends Completion.Safe (executor.poll depth completion) (executor.poll depth completion) := by
  cases depth with
  | zero => exact .failure
  | succ depth =>
    cases safe with
    | value value => exact .pure (.value value)
    | guarded inner => exact (Extends.refl (executor.poll depth inner)).bind fun after _ => guard_safe after

theorem settleBy_safe (depth left : Nat) (safe : completion.Safe) :
    Extends (fun outcome => ∃ value, outcome = .ok value)
      (settleBy (executor.poll depth) left completion)
      (settleBy (executor.poll depth) left completion) := by
  induction left generalizing completion with
  | zero => exact .failure
  | succ left ih =>
    cases safe with
    | value value => exact .pure ⟨value, rfl⟩
    | guarded inner => exact (poll_safe depth (.guarded inner)).bind fun after => ih

/-- A field that may be null ends without an error. -/
theorem field_absorbs (executor : Executor τ σ) (limits : Limits) {site : Site}
    (nullable : site.field.type.isNonNull = false) (path : Path) (source : FieldValue τ) :
    Extends (fun outcome => ∃ value, outcome = .ok value)
      (executor.field (executor.complete limits.depth) site path source >>= executor.settle limits)
      (executor.field (executor.complete limits.depth) site path source >>= executor.settle limits) := by
  have guarded (completion : Completion τ) :
      Extends (σ := σ) Completion.Safe (completion.guardAt site.field.type)
        (completion.guardAt site.field.type) := by
    rw [Completion.guardAt, nullable]
    exact guard_safe completion
  have safe : Extends Completion.Safe
      (executor.field (executor.complete limits.depth) site path source)
      (executor.field (executor.complete limits.depth) site path source) := by
    refine (Extends.refl _).bind fun result _ => ?_
    cases result with
    | ok value => exact (Extends.refl _).bind fun completion _ => guarded completion
    | error message => exact guarded _
  rw [settle_eq]
  exact safe.bind fun completion => settleBy_safe limits.depth limits.rounds

end Safety

/-- What happens at the field of the root under a key, and below it. -/
def Event.Of (key : String) (event : Event) : Prop := [.key key] <+: event.path

/-- A field of the root, and what happens until it is settled. -/
structure Turn (σ : Type) where
  key : String
  site : Site
  start : Trace σ
  events : List Event
  /-- The outcome, unless the execution is given up before. -/
  ends : Option (Outcome × Trace σ)

/-- The field is resolved and settled as it is by an execution. Its resolver is called first and once,
unless its arguments are refused, and all else happens at it or below it. It does not end in an error
if it may be null. -/
structure Turn.Taken (executor : Executor τ σ) (limits : Limits) (turn : Turn σ) : Prop where
  runs : (executor.field (executor.complete limits.depth) turn.site [.key turn.key]
    executor.plan.root >>= executor.settle limits).run turn.start = turn.ends
  watched : (executor.turnWatched limits turn.key turn.site executor.plan.root).run turn.start =
    (turn.events, turn.ends)
  events : ∃ later, turn.events = executor.calls turn.site [.key turn.key] ++ later ∧
    ∀ event ∈ later, event.Inside [.key turn.key]
  absorbs : turn.site.field.type.isNonNull = false →
    ∀ error next, turn.ends ≠ some (.error error, next)

/-- Fields take their turns in order, each from where the one before it has ended. -/
inductive OneByOne (executor : Executor τ σ) (limits : Limits) :
    List (String × Site) → Trace σ → List (Turn σ) → Prop
  | done {trace : Trace σ} : OneByOne executor limits [] trace []
  /-- After an error no other field has a turn. -/
  | stops {turn : Turn σ} {rest : List (String × Site)} : turn.Taken executor limits →
      (∀ value next, turn.ends ≠ some (.ok value, next)) →
      OneByOne executor limits ((turn.key, turn.site) :: rest) turn.start [turn]
  /-- After a value the next field has its turn. -/
  | goesOn {turn : Turn σ} {rest : List (String × Site)} {turns : List (Turn σ)} {value : Value}
      {next : Trace σ} : turn.Taken executor limits → turn.ends = some (.ok value, next) →
      OneByOne executor limits rest next turns →
      OneByOne executor limits ((turn.key, turn.site) :: rest) turn.start (turn :: turns)

section Turns
variable {executor : Executor τ σ} {limits : Limits} {sites : List (String × Site)}
  {trace : Trace σ} {turns : List (Turn σ)} {turn : Turn σ}

theorem Turn.Taken.of (taken : turn.Taken executor limits) : ∀ event ∈ turn.events, event.Of turn.key := by
  obtain ⟨later, same, inside⟩ := taken.events
  intro event member
  rw [same, List.mem_append] at member
  rcases member with called | member
  · rw [calls_path _ _ event called]
    exact List.prefix_refl _
  · exact (inside event member).1

/-- The fields that have turns are the first ones. -/
theorem OneByOne.fields (oneByOne : OneByOne executor limits sites trace turns) :
    (turns.map fun turn => (turn.key, turn.site)) <+: sites := by
  induction oneByOne with
  | done => exact List.nil_prefix
  | stops => exact List.cons_prefix_cons.2 ⟨rfl, List.nil_prefix⟩
  | goesOn _ _ _ ih => exact List.cons_prefix_cons.2 ⟨rfl, ih⟩

theorem OneByOne.taken (oneByOne : OneByOne executor limits sites trace turns) :
    ∀ turn ∈ turns, turn.Taken executor limits := by
  induction oneByOne with
  | done => exact fun _ member => absurd member List.not_mem_nil
  | stops taken => exact List.forall_mem_singleton.2 taken
  | goesOn taken _ _ ih => exact List.forall_mem_cons.2 ⟨taken, ih⟩

/-- Whatever happens, happens at one of the fields. -/
theorem OneByOne.among (oneByOne : OneByOne executor limits sites trace turns) :
    ∀ event ∈ turns.flatMap Turn.events, ∃ found ∈ sites, event.Of found.1 := by
  intro event member
  obtain ⟨turn, here, member⟩ := List.mem_flatMap.1 member
  exact ⟨_, oneByOne.fields.subset (List.mem_map_of_mem here), (oneByOne.taken turn here).of event member⟩

/-- All that happens at some of the first fields happens before all that happens at the others. -/
theorem OneByOne.apart (oneByOne : OneByOne executor limits sites trace turns)
    {earlier later : List (String × Site)} (split : sites = earlier ++ later) :
    ∃ before after, turns.flatMap Turn.events = before ++ after ∧
      (∀ event ∈ before, ∃ found ∈ earlier, event.Of found.1) ∧
        ∀ event ∈ after, ∃ found ∈ later, event.Of found.1 := by
  cases earlier with
  | nil =>
    subst split
    exact ⟨[], _, rfl, fun _ member => absurd member List.not_mem_nil, oneByOne.among⟩
  | cons found earlier =>
    induction oneByOne generalizing found earlier with
    | done => cases split
    | @stops turn rest taken ends =>
      cases split
      refine ⟨turn.events, [], List.flatMap_cons, fun event member => ?_,
        fun _ member => absurd member List.not_mem_nil⟩
      exact ⟨_, List.mem_cons_self, taken.of event member⟩
    | @goesOn turn rest turns value next taken ends others ih =>
      cases split
      have first (event : Event) (member : event ∈ turn.events) :
          ∃ found ∈ (turn.key, turn.site) :: earlier, event.Of found.1 :=
        ⟨_, List.mem_cons_self, taken.of event member⟩
      cases earlier with
      | nil => exact ⟨turn.events, _, List.flatMap_cons, first, others.among⟩
      | cons second earlier =>
        obtain ⟨before, after, same, these, those⟩ := ih second earlier rfl
        refine ⟨turn.events ++ before, after, ?_, List.forall_mem_append.2 ⟨first, fun event member => ?_⟩,
          those⟩
        · rw [List.flatMap_cons, same, List.append_assoc]
        · obtain ⟨found, among, here⟩ := these event member
          exact ⟨found, List.mem_cons_of_mem _ among, here⟩

theorem settled_watches (executor : Executor τ σ) (limits : Limits) (key : String) (site : Site)
    (source : FieldValue τ) :
    Watches (Event.Inside [.key key]) (fun _ => True)
      (executor.finishWatched (executor.completeWatched limits.depth) site [.key key] source >>=
        executor.settleWatched limits)
      (executor.field (executor.complete limits.depth) site [.key key] source >>=
        executor.settle limits) :=
  (finishWatched_watches (completeWatched_watches executor limits.depth) site [.key key] source).bind
    fun _ awaits => settleWatched_watches limits awaits

theorem turn_taken (executor : Executor τ σ) (limits : Limits) (key : String) (site : Site)
    (start : Trace σ) {events : List Event} {ends : Option (Outcome × Trace σ)}
    (watched : (executor.turnWatched limits key site executor.plan.root).run start =
      (events, ends)) : Turn.Taken executor limits ⟨key, site, start, events, ends⟩ := by
  obtain ⟨same, inside, -⟩ := settled_watches executor limits key site executor.plan.root start
  have once := watched
  rw [Executor.turnWatched, Executor.fieldWatched, bind_assoc] at once
  obtain ⟨rfl, rfl⟩ := Prod.mk.inj once
  refine ⟨same.symm, watched, ⟨_, rfl, inside⟩, fun nullable error next ends => ?_⟩
  obtain ⟨-, value, absorbed⟩ := field_absorbs executor limits nullable [.key key]
    executor.plan.root start (.error error, next) (same.symm.trans ends)
  cases absorbed

theorem settleInTurn_watches (executor : Executor τ σ) (limits : Limits) (source : FieldValue τ)
    (sites : List (String × Site)) :
    Watches (fun _ => True) (fun _ => True) (executor.inTurnWatched limits source sites)
      (executor.settleInTurn limits source sites) := by
  induction sites with
  | nil => exact .pure trivial
  | cons found rest ih =>
    obtain ⟨key, site⟩ := found
    have all := completeWatched_watches executor limits.depth
    have turn : Watches (fun _ => True) (fun _ => True) (executor.turnWatched limits key site source)
        (executor.field (executor.complete limits.depth) site [.key key] source >>=
          executor.settle limits) := by
      refine ((fieldWatched_watches executor all site [.key key] source).mono fun _ _ => trivial).bind
        fun completion awaits => ?_
      exact (settleWatched_watches limits awaits).mono fun _ _ => trivial
    refine turn.bind fun outcome _ => ?_
    cases outcome with
    | error error => exact .pure trivial
    | ok value => exact ih.bind fun _ _ => .pure trivial

theorem inTurnWatched_oneByOne (executor : Executor τ σ) (limits : Limits)
    (sites : List (String × Site)) (trace : Trace σ) :
    ∃ turns, OneByOne executor limits sites trace turns ∧
      ((executor.inTurnWatched limits executor.plan.root sites).run trace).1 =
        turns.flatMap Turn.events := by
  induction sites generalizing trace with
  | nil => exact ⟨[], .done, rfl⟩
  | cons found rest ih =>
    obtain ⟨key, site⟩ := found
    rw [Executor.inTurnWatched, Watched.run_bind]
    rcases watched : (executor.turnWatched limits key site executor.plan.root).run trace with
      ⟨events, _ | ⟨error | value, next⟩⟩
    · refine ⟨_, .stops (turn_taken executor limits key site trace watched) ?_, ?_⟩
      · rintro _ _ ⟨⟩
      · exact (List.append_nil events).symm
    · refine ⟨_, .stops (turn_taken executor limits key site trace watched) ?_, ?_⟩
      · rintro _ _ ⟨⟩
      · rfl
    · obtain ⟨turns, oneByOne, happens⟩ := ih next
      refine ⟨_, .goesOn (turn_taken executor limits key site trace watched) rfl oneByOne, ?_⟩
      rw [List.flatMap_cons, ← happens]
      exact congrArg (events ++ ·) (Watched.bind_pure_events _ _ _)

theorem operationWatched_watches (executor : Executor τ σ) (limits : Limits) (root : ObjectType) :
    Watches (fun _ => True) (fun _ => True) (executor.operationWatched limits root)
      (executor.operation limits root) := by
  have together : Watches (fun _ => True) (fun _ => True)
      (executor.objectWatched (executor.completeWatched limits.depth) root [] executor.plan.root
        [executor.plan.operation.selectionSet] >>= executor.settleWatched limits)
      (executor.object (executor.complete limits.depth) root [] executor.plan.root
        (executor.plan.collect root [executor.plan.operation.selectionSet]) >>=
          executor.settle limits) := by
    have object := objectWatched_watches executor (completeWatched_watches executor limits.depth)
      root [] executor.plan.root [executor.plan.operation.selectionSet]
    refine (object.mono fun _ _ => trivial).bind fun completion awaits => ?_
    exact (settleWatched_watches limits awaits).mono fun _ _ => trivial
  rw [Executor.operationWatched, Executor.operation]
  cases executor.plan.operation.operation with
  | mutation =>
    simp only [inTurn_eq]
    exact (settleInTurn_watches executor limits _ _).bind fun _ _ => .pure trivial
  | query => exact together
  | subscription => exact together

end Turns

section Requests
variable {schema : Schema} {host : Host τ σ} {request : Request τ σ} {executor : Executor τ σ}
  {root : ObjectType}

/-- A request is answered as ever while it is watched. -/
theorem executeWatched_answers (limits : Limits) (schema : Schema) (host : Host τ σ)
    (request : Request τ σ) (state : σ) : (executeWatched limits schema host request state).2 =
      execute limits schema host request state := by
  rw [executeWatched, execute]
  rcases prepare schema host request with errors | ⟨executor, root⟩
  · rfl
  · have same := (operationWatched_watches executor limits root ⟨state, []⟩).1
    simp only [same]

/-- The fields that selection sets select from an object, in order. -/
def Plan.gathered (plan : Plan τ) (object : ObjectType) (sets : List Ast.SelectionSet) :
    List Ast.Field :=
  expand plan object plan.fragments.reverse (sets.flatMap (selected plan object))

/-- The fields of a type are answered in the order in which their keys are met first. -/
theorem sites_ordered (executor : Executor τ σ) (object : ObjectType)
    (sets : List Ast.SelectionSet) :
    ((executor.sites object (executor.plan.collect object sets)).map Prod.fst).Pairwise
      fun first second =>
        ((executor.plan.gathered object sets).map Ast.Field.responseKey).idxOf first <
          ((executor.plan.gathered object sets).map Ast.Field.responseKey).idxOf second := by
  rw [keys_sites, Plan.answered]
  exact (Groups.keys_ofList_ordered Ast.Field.responseKey (executor.plan.gathered object sets)).sublist
    (List.filter_sublist.map Prod.fst)

theorem executeWatched_oneByOne (prepared : prepare schema host request = .ok (executor, root))
    (mutation : executor.plan.operation.operation = .mutation) (limits : Limits) (state : σ) :
    ∃ turns, OneByOne executor limits (executor.sites root
        (executor.plan.collect root [executor.plan.operation.selectionSet])) ⟨state, []⟩ turns ∧
      (executeWatched limits schema host request state).1 = turns.flatMap Turn.events := by
  obtain ⟨turns, oneByOne, happens⟩ := inTurnWatched_oneByOne executor limits (executor.sites root
    (executor.plan.collect root [executor.plan.operation.selectionSet])) ⟨state, []⟩
  refine ⟨turns, oneByOne, ?_⟩
  rw [← happens, executeWatched, prepared]
  simp only [Executor.operationWatched, mutation]
  exact Watched.bind_pure_events _ _ _

end Requests

section Deeds

/-- What the host of the deeds still has to compute. -/
inductive Deed where
  | pay

def payField : Field := { name := "pay", type := .named "N", resolver := some (.host 0) }

def shipField : Field := { name := "ship", type := .nonNull (.named "N"), resolver := some (.host 1) }

def thankField : Field := { name := "thank", type := .named "N", resolver := some (.host 2) }

def deedType : ObjectType := { name := "M", fields := ⟨[payField, shipField, thankField], []⟩ }

def deedSchema : Schema :=
  { query := deedType, mutation := some deedType, subscription := none
    types := [.object deedType, .scalar { name := "N" }], directives := [] }

def deedNode (name : String) : Ast.Selection := .field ⟨none, ⟨name, none⟩, [], [], none, none⟩

def deedOperation : Ast.OperationDefinition :=
  ⟨.mutation, none, [], [], ⟨[deedNode "pay", deedNode "ship", deedNode "thank"], none⟩, none⟩

/-- Fails to pay, which it finds out late, and to ship, which it knows at once. -/
def deedHost : Host Deed Unit where
  typeName _ := none
  field _ _ := return none
  compute _ := return .error "no money"
  resolve
    | 0, _, _, _ => return .ok (.deferred ⟨2, .pay⟩)
    | 1, _, _, _ => return .error "no ship"
    | _, _, _, _ => return .ok .null
  isTypeOf _ _ _ := return true
  resolveType _ _ _ := return none

def deedRequest : Request Deed Unit := { document := ⟨[.operation deedOperation], none⟩ }

def deedExecutor : Executor Deed Unit := ⟨⟨deedSchema, [], .null, deedOperation, []⟩, deedHost, []⟩

theorem deedRequest_prepared :
    prepare deedSchema deedHost deedRequest = .ok (deedExecutor, deedType) := rfl

end Deeds

/-- The fields of the root of a mutation are resolved and settled one after the other, in the order in
which their keys are met first. What happens at some of the first fields, or below them, all happens
before anything happens at the others, and nothing happens there after an error that a field has not
settled. -/
theorem mutation_serial {schema : Schema} {host : Host τ σ} {request : Request τ σ}
    {executor : Executor τ σ} {root : ObjectType}
    (prepared : prepare schema host request = .ok (executor, root))
    (mutation : executor.plan.operation.operation = .mutation) (limits : Limits) (state : σ) :
    let sets := [executor.plan.operation.selectionSet]
    let sites := executor.sites root (executor.plan.collect root sets)
    let keys := (executor.plan.gathered root sets).map Ast.Field.responseKey
    let (events, answer) := executeWatched limits schema host request state
    answer = execute limits schema host request state ∧
      ((sites.map Prod.fst).Pairwise fun first second => keys.idxOf first < keys.idxOf second) ∧
      ∃ turns, OneByOne executor limits sites ⟨state, []⟩ turns ∧
        events = turns.flatMap Turn.events ∧
        ∀ earlier later, sites = earlier ++ later → ∃ before after, events = before ++ after ∧
          (∀ event ∈ before, ∃ found ∈ earlier, event.Of found.1) ∧
            ∀ event ∈ after, ∃ found ∈ later, event.Of found.1 := by
  obtain ⟨turns, oneByOne, happens⟩ := executeWatched_oneByOne prepared mutation limits state
  refine ⟨executeWatched_answers limits schema host request state, sites_ordered executor root _,
    turns, oneByOne, happens, fun earlier later split => ?_⟩
  obtain ⟨before, after, parts, first, others⟩ := oneByOne.apart split
  exact ⟨before, after, happens.trans parts, first, others⟩

/-- A payment that fails late is waited for, and settled. Nobody is thanked after shipping has
failed. -/
theorem mutation_serial_deeds : ∃ turns,
    OneByOne deedExecutor ⟨4, 4⟩ (deedExecutor.sites deedType
      (deedExecutor.plan.collect deedType [deedOperation.selectionSet])) ⟨(), []⟩ turns ∧
      turns.flatMap Turn.events = [.called [.key "pay"], .came [.key "pay"], .called [.key "ship"]] := by
  have happens : (executeWatched ⟨4, 4⟩ deedSchema deedHost deedRequest ()).1 =
      [.called [.key "pay"], .came [.key "pay"], .called [.key "ship"]] := by cbv
  obtain ⟨-, -, turns, oneByOne, same, -⟩ := mutation_serial deedRequest_prepared rfl ⟨4, 4⟩ ()
  exact ⟨turns, oneByOne, same.symm.trans happens⟩

end GraphQL.Execution
