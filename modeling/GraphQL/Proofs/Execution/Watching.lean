import GraphQL.Execution.Request
import GraphQL.Proofs.Execution.Loosening

/-! Executions that are watched: when resolvers are called and when values come that were still to
come, at which positions. An execution answers as ever while it is watched, and all events of a
position lie below it. -/
namespace GraphQL.Execution
open Ast (SelectionSet)

variable {τ σ α β γ : Type}

inductive Event where
  /-- The resolver of the field at a position is called. -/
  | called (path : Path)
  /-- A value that was still to come at a position has come, or has failed. -/
  | came (path : Path)
deriving DecidableEq, Repr

namespace Event

def path : Event → Path
  | called path => path
  | came path => path

/-- An event at a position or deeper, but not the call of the field there. -/
def Inside (path : Path) (event : Event) : Prop := path <+: event.path ∧ event ≠ .called path

theorem Inside.outer {path front : Path} {event : Event} (inside : event.Inside path)
    (leads : front <+: path) : event.Inside front := by
  refine ⟨leads.trans inside.1, ?_⟩
  rintro rfl
  have same : front = path := leads.eq_of_length_le inside.1.length_le
  exact inside.2 (by rw [same])

/-- What happens at a position below another one is inside of it. -/
theorem inside_of_below {path : Path} {segment : PathSegment} {event : Event}
    (below : path ++ [segment] <+: event.path) : event.Inside path := by
  refine ⟨(List.prefix_append path [segment]).trans below, ?_⟩
  rintro rfl
  have short := below.length_le
  rw [List.length_append, List.length_singleton] at short
  exact Nat.not_succ_le_self _ short

end Event

/-- An execution that is watched. The events before it is given up are kept, too. -/
structure Watched (σ α : Type) where
  run : Trace σ → List Event × Option (α × Trace σ)

namespace Watched

/-- Goes on with what an execution has come to. -/
def andThen (next : α → Watched σ β) : List Event × Option (α × Trace σ) →
    List Event × Option (β × Trace σ)
  | (events, none) => (events, none)
  | (events, some (a, trace)) =>
      (events ++ ((next a).run trace).1, ((next a).run trace).2)

instance : Monad (Watched σ) where
  pure a := ⟨fun trace => ([], some (a, trace))⟩
  bind action next := ⟨fun trace => andThen next (action.run trace)⟩

theorem run_bind (action : Watched σ α) (next : α → Watched σ β) (trace : Trace σ) :
    (action >>= next).run trace = andThen next (action.run trace) := rfl

theorem andThen_pure (came : List Event × Option (α × Trace σ)) : andThen pure came = came := by
  obtain ⟨events, _ | ⟨a, trace⟩⟩ := came
  · rfl
  · exact Prod.ext (List.append_nil events) rfl

theorem andThen_andThen (next : α → Watched σ β) (last : β → Watched σ γ)
    (came : List Event × Option (α × Trace σ)) :
    andThen last (andThen next came) = andThen (fun a => next a >>= last) came := by
  obtain ⟨events, _ | ⟨a, trace⟩⟩ := came
  · rfl
  · simp only [andThen, run_bind]
    obtain ⟨more, _ | ⟨b, further⟩⟩ := (next a).run trace
    · rfl
    · exact Prod.ext (List.append_assoc _ _ _) rfl

instance : LawfulMonad (Watched σ) :=
  .mk' _ (fun action => congrArg mk (funext fun trace => andThen_pure (action.run trace)))
    (fun _ _ => rfl)
    fun action next last =>
      congrArg mk (funext fun trace => andThen_andThen next last (action.run trace))

/-- What is made of an answer does not happen. -/
theorem bind_pure_events (action : Watched σ α) (f : α → β) (trace : Trace σ) :
    ((action >>= fun a => pure (f a)).run trace).1 = (action.run trace).1 := by
  rw [run_bind]
  obtain ⟨events, _ | ⟨a, next⟩⟩ := action.run trace
  · rfl
  · exact List.append_nil events

/-- The execution is given up. -/
def givenUp : Watched σ α := ⟨fun _ => ([], none)⟩

/-- Nothing happens that is watched. -/
def silently (action : Exec σ α) : Watched σ α := ⟨fun trace => ([], action.run trace)⟩

def note (events : List Event) : Watched σ Unit := ⟨fun trace => (events, some ((), trace))⟩

end Watched

namespace Executor

variable (executor : Executor τ σ)

/-- A way of completing values that is watched. -/
abbrev CompleteWatched (τ σ : Type) :=
  Site → TypeRef → Path → FieldValue τ → Watched σ (Completion τ)

/-- The call of a resolver. It is not called if its arguments are refused. -/
def calls (site : Site) (path : Path) : List Event :=
  let given := (site.nodes.head?.map Ast.Field.arguments).getD []
  match argumentValues executor.plan.schema executor.plan.bindings given site.field.arguments.items with
  | .ok _ => [.called path]
  | .error _ => []

/-- What comes after a resolver has been called. -/
def finishWatched (complete : CompleteWatched τ σ) (site : Site) (path : Path)
    (source : FieldValue τ) : Watched σ (Completion τ) := do
  let completion ←
    match ← Watched.silently (executor.call site path source) with
    | .ok value => complete site site.field.type path value
    | .error message => pure (.failed site path message)
  Watched.silently (completion.guardAt site.field.type)

def fieldWatched (complete : CompleteWatched τ σ) (site : Site) (path : Path)
    (source : FieldValue τ) : Watched σ (Completion τ) := do
  Watched.note (executor.calls site path)
  executor.finishWatched complete site path source

def objectWatched (complete : CompleteWatched τ σ) (object : ObjectType) (path : Path)
    (source : FieldValue τ) (sets : List SelectionSet) : Watched σ (Completion τ) :=
  let sites := executor.sites object (executor.plan.collect object sets)
  Completion.join (.object (sites.map Prod.fst)) <$> sites.mapM fun found =>
    executor.fieldWatched complete found.2 (path ++ [.key found.1]) source

def namedWatched (complete : CompleteWatched τ σ) (site : Site) (path : Path) (name : String)
    (value : FieldValue τ) : Watched σ (Completion τ) := do
  match ← Watched.silently (executor.objectType site path name value) with
  | .ok object => executor.objectWatched complete object path value (setsOf site.nodes)
  | .error outcome => return .settled outcome

def itemsWatched (complete : CompleteWatched τ σ) (site : Site) (item : TypeRef) (path : Path)
    (values : List (FieldValue τ)) : Watched σ (List (Completion τ)) :=
  values.zipIdx.mapM fun found => do
    let completion ← complete site item (path ++ [.index found.2]) found.1
    Watched.silently (completion.guardAt item)

def completeWatched : Nat → CompleteWatched τ σ
  | 0 => fun _ _ _ _ => .givenUp
  | depth + 1 => fun site type path value =>
      match value, type with
      | .deferred later, _ => return .awaiting later site type path
      | value, .nonNull inner => do
          let completion ← completeWatched depth site inner path value
          return completion.require site path
      | value, .list item =>
          if value.isNull then return .settled (.ok .null)
          else
            match items? value with
            | some values => do
                let parts ← itemsWatched (completeWatched depth) site item path values
                return .join .list parts
            | none =>
                return .failed site path
                  ("User Error: expected iterable, but did not find one for field "
                    ++ site.coordinate ++ ".")
      | value, .named name =>
          if value.isNull then return .settled (.ok .null)
          else executor.namedWatched (completeWatched depth) site path name value

def takeTurnsWatched (ask : Completion τ → Watched σ (Completion τ)) (patience : Nat)
    (parts : List (Completion τ)) (next : List Nat) :
    Watched σ (List (Completion τ) × List Nat) :=
  match patience, next with
  | patience + 1, position :: rest =>
      match parts[position]? with
      | none => takeTurnsWatched ask patience parts rest
      | some part => do
          let part ← ask part
          let parts := parts.set position part
          if part.isSettled then takeTurnsWatched ask (min 2 rest.length) parts rest
          else takeTurnsWatched ask patience parts (rest ++ [position])
  | _, next => return (parts, next)
termination_by (next.length, patience)

def askPartsWatched (ask : Completion τ → Watched σ (Completion τ)) (shape : Shape)
    (parts : List (Completion τ)) : Turns → Watched σ (Completion τ)
  | .all => return .gather shape (← parts.mapM ask) .all
  | .inTurn next => do
      let (parts, next) ← takeTurnsWatched ask (min 2 next.length) parts next
      return .gather shape parts (.inTurn next)

def pollWatched : Nat → Completion τ → Watched σ (Completion τ)
  | 0, _ => .givenUp
  | depth + 1, completion =>
      match completion with
      | .settled outcome => return .settled outcome
      | .awaiting ⟨polls + 1, source⟩ site type path =>
          return .awaiting ⟨polls, source⟩ site type path
      | .awaiting ⟨0, source⟩ site type path => do
          Watched.note [.came path]
          match ← Watched.silently (ask (executor.host.compute source)) with
          | .ok value => pollWatched depth (← executor.completeWatched depth site type path value)
          | .error message => return .failed site path message
      | .required site path inner => return (← pollWatched depth inner).require site path
      | .guarded inner => do Watched.silently (← pollWatched depth inner).guard
      | .joined shape parts turns => askPartsWatched (pollWatched depth) shape parts turns

def settleByWatched (poll : Completion τ → Watched σ (Completion τ)) :
    Nat → Completion τ → Watched σ Outcome
  | 0, _ => .givenUp
  | left + 1, completion =>
      match completion with
      | .settled outcome => return outcome
      | completion => do settleByWatched poll left (← poll completion)

def settleWatched (limits : Limits) : Completion τ → Watched σ Outcome :=
  settleByWatched (executor.pollWatched limits.depth) limits.rounds

/-- A field of the root is resolved and settled. -/
def turnWatched (limits : Limits) (key : String) (site : Site) (source : FieldValue τ) :
    Watched σ Outcome :=
  executor.fieldWatched (executor.completeWatched limits.depth) site [.key key] source >>=
    executor.settleWatched limits

def inTurnWatched (limits : Limits) (source : FieldValue τ) :
    List (String × Site) → Watched σ (Except ResponseError (Entries Value))
  | [] => return .ok []
  | (key, site) :: rest => do
      match ← executor.turnWatched limits key site source with
      | .error error => return .error error
      | .ok value => return (← inTurnWatched limits source rest).map ((key, value) :: ·)

def operationWatched (limits : Limits) (root : ObjectType) : Watched σ Outcome := do
  let plan := executor.plan
  let sets := [plan.operation.selectionSet]
  match plan.operation.operation with
  | .mutation =>
      let sites := executor.sites root (plan.collect root sets)
      return (← executor.inTurnWatched limits plan.root sites).map Value.object
  | _ =>
      let complete := executor.completeWatched limits.depth
      executor.objectWatched complete root [] plan.root sets >>= executor.settleWatched limits

end Executor

/-- Executes a request. Answers with what has happened, and with the response and the state of the
host if the execution is not given up. -/
def executeWatched (limits : Limits) (schema : Schema) (host : Host τ σ) (request : Request τ σ)
    (state : σ) : List Event × Option (Response × σ) :=
  match prepare schema host request with
  | .error errors => ([], some (.refusal errors, state))
  | .ok (executor, root) =>
      let (events, answer) := (executor.operationWatched limits root).run ⟨state, []⟩
      (events, answer.map fun (outcome, trace) => (respond trace outcome, trace.host))

/-- A watched execution answers as another one does that is not watched. What happens is of a kind,
and the answers are known. -/
def Watches (kind : Event → Prop) (answers : α → Prop) (watched : Watched σ α) (action : Exec σ α) :
    Prop :=
  ∀ trace, (watched.run trace).2 = action.run trace ∧
    (∀ event ∈ (watched.run trace).1, kind event) ∧
      ∀ found ∈ (watched.run trace).2, answers found.1

section Watches
variable {kind : Event → Prop} {answers : α → Prop} {results : β → Prop} {watched : Watched σ α}
  {action : Exec σ α} {f : α → Watched σ β} {g : α → Exec σ β}

theorem Watches.bind (first : Watches kind answers watched action)
    (next : ∀ a, answers a → Watches kind results (f a) (g a)) :
    Watches kind results (watched >>= f) (action >>= g) := by
  intro trace
  obtain ⟨same, kinds, known⟩ := first trace
  rw [Watched.run_bind, StateT.run_bind, ← same]
  generalize watched.run trace = came at kinds known
  obtain ⟨events, _ | ⟨a, middle⟩⟩ := came
  · exact ⟨rfl, kinds, fun _ absent => by cases absent⟩
  · obtain ⟨again, others, knownLast⟩ := next a (known _ rfl) middle
    exact ⟨again, List.forall_mem_append.2 ⟨kinds, others⟩, knownLast⟩

theorem Watches.pure {a : α} (holds : answers a) :
    Watches (σ := σ) kind answers (Pure.pure a) (Pure.pure a) := by
  refine fun trace => ⟨rfl, fun _ member => absurd member List.not_mem_nil, ?_⟩
  rintro _ ⟨⟩
  exact holds

theorem Watches.givenUp : Watches (σ := σ) kind answers .givenUp failure :=
  fun _ => ⟨rfl, fun _ member => absurd member List.not_mem_nil, fun _ absent => by cases absent⟩

theorem Watches.silently (extends' : Extends answers action action) :
    Watches kind answers (.silently action) action :=
  fun trace => ⟨rfl, fun _ member => absurd member List.not_mem_nil,
    fun found ran => (extends' trace found ran).2⟩

theorem Watches.noting {events : List Event} (watches : Watches kind answers watched action)
    (kinds : ∀ event ∈ events, kind event) :
    Watches kind answers (Watched.note events >>= fun _ => watched) action := by
  intro trace
  obtain ⟨same, others, known⟩ := watches trace
  exact ⟨same, List.forall_mem_append.2 ⟨kinds, others⟩, known⟩

theorem Watches.mono {other : Event → Prop} (watches : Watches kind answers watched action)
    (weaker : ∀ event, kind event → other event) : Watches other answers watched action :=
  fun trace => have ⟨same, kinds, known⟩ := watches trace
    ⟨same, fun event member => weaker event (kinds event member), known⟩

theorem Watches.knowing {other : α → Prop} (watches : Watches kind answers watched action)
    (weaker : ∀ a, answers a → other a) : Watches kind other watched action :=
  fun trace => have ⟨same, kinds, known⟩ := watches trace
    ⟨same, kinds, fun found ran => weaker _ (known found ran)⟩

theorem Watches.mapM {items : List α} {each : α → Watched σ β} {every : α → Exec σ β}
    (step : ∀ item ∈ items, Watches kind results (each item) (every item)) :
    Watches kind (fun found => ∀ result ∈ found, results result) (items.mapM each)
      (items.mapM every) := by
  induction items with
  | nil => exact .pure fun _ member => absurd member List.not_mem_nil
  | cons item rest ih =>
    simp only [List.mapM_cons]
    refine (step item List.mem_cons_self).bind fun first known => ?_
    refine (ih fun other member => step other (List.mem_cons_of_mem _ member)).bind
      fun others all => .pure ?_
    exact List.forall_mem_cons.2 ⟨known, all⟩

end Watches

section Asking
variable {kind : Event → Prop} {place : Path → Prop} {watched : Completion τ → Watched σ (Completion τ)}
  {ask : Completion τ → Exec σ (Completion τ)}

theorem takeTurnsWatched_watches
    (asks : ∀ part, part.Awaits place → Watches kind (Completion.Awaits place) (watched part) (ask part))
    (patience : Nat) (parts : List (Completion τ)) (next : List Nat)
    (each : ∀ part ∈ parts, part.Awaits place) :
    Watches kind (fun found => ∀ part ∈ found.1, part.Awaits place)
      (Executor.takeTurnsWatched watched patience parts next)
      (Executor.takeTurns ask patience parts next) := by
  induction patience, parts, next using Executor.takeTurns.induct with
  | case1 parts patience position rest missing ih =>
    simp only [Executor.takeTurns, Executor.takeTurnsWatched, missing]
    exact ih each
  | case2 parts patience position rest part found settled waits =>
    simp only [Executor.takeTurns, Executor.takeTurnsWatched, found]
    refine (asks part (each part (List.mem_of_getElem? found))).bind fun after awaits => ?_
    have replaced (other : Completion τ) (member : other ∈ parts.set position after) :
        other.Awaits place := by
      rcases List.mem_or_eq_of_mem_set member with member | rfl
      · exact each other member
      · exact awaits
    split
    · exact settled after replaced
    · exact waits after replaced
  | case3 patience parts next done =>
    have stays : Executor.takeTurns ask patience parts next = pure (parts, next) := by
      rw [Executor.takeTurns.eq_def]
      split
      · exact absurd rfl (done _ _ _ rfl)
      · rfl
    have staysToo : Executor.takeTurnsWatched watched patience parts next = pure (parts, next) := by
      rw [Executor.takeTurnsWatched.eq_def]
      split
      · exact absurd rfl (done _ _ _ rfl)
      · rfl
    rw [stays, staysToo]
    exact .pure each

theorem askPartsWatched_watches
    (asks : ∀ part, part.Awaits place → Watches kind (Completion.Awaits place) (watched part) (ask part))
    (shape : Shape) {parts : List (Completion τ)} (turns : Turns)
    (each : ∀ part ∈ parts, part.Awaits place) :
    Watches kind (Completion.Awaits place) (Executor.askPartsWatched watched shape parts turns)
      (Executor.askParts ask shape parts turns) := by
  cases turns with
  | all =>
    exact (Watches.mapM fun part member => asks part (each part member)).bind
      fun parts each => .pure (gather_awaits shape _ each)
  | inTurn next =>
    exact (takeTurnsWatched_watches asks _ parts next each).bind
      fun found each => .pure (gather_awaits shape _ each)

theorem settleByWatched_watches
    (polls : ∀ completion, completion.Awaits place →
      Watches kind (Completion.Awaits place) (watched completion) (ask completion))
    (left : Nat) {completion : Completion τ} (awaits : completion.Awaits place) :
    Watches kind (fun _ => True) (Executor.settleByWatched watched left completion)
      (settleBy ask left completion) := by
  induction left generalizing completion with
  | zero => exact .givenUp
  | succ left ih =>
    have asked := (polls completion awaits).bind fun after awaits => ih awaits
    cases completion with
    | settled outcome => exact .pure trivial
    | _ => exact asked

end Asking

section Executing
variable (executor : Executor τ σ)

/-- What happens inside of a position. -/
abbrev WatchesInside (path : Path) (watched : Watched σ (Completion τ))
    (action : Exec σ (Completion τ)) : Prop :=
  Watches (Event.Inside path) (Completion.Awaits (path <+: ·)) watched action

/-- A way of completing values that is watched, and answers as one that is not. -/
def AllWatched (watched : Executor.CompleteWatched τ σ) (complete : Executor.Complete τ σ) : Prop :=
  ∀ site type path value,
    WatchesInside path (watched site type path value) (complete site type path value)

theorem Completion.Awaits.mono {place other : Path → Prop} {completion : Completion τ}
    (awaits : completion.Awaits place) (weaker : ∀ path, place path → other path) :
    completion.Awaits other := by
  induction awaits with
  | settled outcome => exact .settled outcome
  | awaiting here => exact .awaiting (weaker _ here)
  | required _ ih => exact .required ih
  | guarded _ ih => exact .guarded ih
  | joined _ ih => exact .joined ih

section Equations
variable (depth : Nat) (site : Site) (path : Path) {value : FieldValue τ}

theorem completeWatched_nonNull (here : value.later? = none) (inner : TypeRef) :
    executor.completeWatched (depth + 1) site (.nonNull inner) path value = (do
      let completion ← executor.completeWatched depth site inner path value
      return completion.require site path) := by
  cases value <;> first | rfl | cases here

theorem completeWatched_list {values : List (FieldValue τ)}
    (same : Executor.items? value = some values) (item : TypeRef) :
    executor.completeWatched (depth + 1) site (.list item) path value = Completion.join .list <$>
      Executor.itemsWatched (executor.completeWatched depth) site item path values := by
  rw [map_eq_pure_bind]
  cases value with
  | list items =>
    cases same
    rfl
  | value plain =>
    cases plain with
    | list items =>
      cases same
      rfl
    | _ => cases same
  | _ => cases same

theorem completeWatched_unlisted (here : value.later? = none)
    (none : Executor.items? value = none) (item : TypeRef) :
    executor.completeWatched (depth + 1) site (.list item) path value =
      return if value.isNull then .settled (.ok .null) else .failed site path
        ("User Error: expected iterable, but did not find one for field "
          ++ site.coordinate ++ ".") := by
  cases value with
  | value plain => cases plain <;> first | rfl | cases none
  | list items => cases none
  | deferred later => cases here
  | _ => rfl

theorem completeWatched_named (here : value.later? = none) (name : String) :
    executor.completeWatched (depth + 1) site (.named name) path value =
      if value.isNull then return .settled (.ok .null)
      else executor.namedWatched (executor.completeWatched depth) site path name value := by
  cases value <;> first | rfl | cases here

end Equations

variable {executor} {watched : Executor.CompleteWatched τ σ} {complete : Executor.Complete τ σ}

theorem finishWatched_watches (all : AllWatched watched complete) (site : Site) (path : Path)
    (source : FieldValue τ) :
    WatchesInside path (executor.finishWatched watched site path source)
      (executor.field complete site path source) := by
  refine (Watches.silently (.refl _)).bind fun result _ => ?_
  have guarded (completion : Completion τ) (awaits : completion.Awaits (path <+: ·)) :
      WatchesInside path (.silently (completion.guardAt site.field.type))
        (completion.guardAt site.field.type : Exec σ (Completion τ)) :=
    .silently (guardAt_extends site.field.type awaits)
  cases result with
  | ok value => exact (all site site.field.type path value).bind guarded
  | error message => exact guarded _ (.settled _)

theorem calls_path (site : Site) (path : Path) : ∀ event ∈ executor.calls site path,
    event = .called path := by
  intro event member
  simp only [Executor.calls] at member
  split at member
  · exact List.mem_singleton.1 member
  · cases member

theorem fieldWatched_watches (executor : Executor τ σ) (all : AllWatched watched complete)
    (site : Site) (path : Path) (source : FieldValue τ) :
    Watches (path <+: ·.path) (Completion.Awaits (path <+: ·))
      (executor.fieldWatched watched site path source) (executor.field complete site path source) := by
  refine ((finishWatched_watches all site path source).mono fun _ inside => inside.1).noting ?_
  intro event member
  rw [calls_path site path event member]
  exact List.prefix_refl path

theorem objectWatched_watches (executor : Executor τ σ) (all : AllWatched watched complete)
    (object : ObjectType) (path : Path) (source : FieldValue τ) (sets : List SelectionSet) :
    WatchesInside path (executor.objectWatched watched object path source sets)
      (executor.object complete object path source (executor.plan.collect object sets)) := by
  rw [object_eq, Executor.objectWatched]
  simp only [map_eq_pure_bind]
  refine Watches.bind (Watches.mapM fun found _ => ?_) fun parts each =>
    .pure (gather_awaits _ _ each)
  have field := fieldWatched_watches executor all found.2 (path ++ [.key found.1]) source
  refine (field.mono fun event => Event.inside_of_below).knowing fun completion awaits => ?_
  exact awaits.mono fun _ => (List.prefix_append path _).trans

theorem itemsWatched_watches (all : AllWatched watched complete) (site : Site) (item : TypeRef)
    (path : Path) (values : List (FieldValue τ)) :
    Watches (Event.Inside path) (fun found => ∀ part ∈ found, part.Awaits (path <+: ·))
      (Executor.itemsWatched watched site item path values)
      (Executor.items (fun value path => complete site item path value) item path 0 values) := by
  rw [items_eq]
  refine Watches.mapM fun found _ => ?_
  have leads := List.prefix_append path [PathSegment.index found.2]
  have inside := (all site item (path ++ [.index found.2]) found.1).mono
    fun event inside => inside.outer leads
  refine (inside.knowing fun completion awaits => awaits.mono fun _ => leads.trans).bind
    fun completion awaits => .silently (guardAt_extends item awaits)

theorem namedWatched_watches (all : AllWatched watched complete) (site : Site) (path : Path)
    (name : String) (value : FieldValue τ) :
    WatchesInside path (executor.namedWatched watched site path name value)
      (executor.asNamed complete site path name value) := by
  rw [asNamed_eq]
  refine (Watches.silently (.refl _)).bind fun answer _ => ?_
  cases answer with
  | ok object => exact objectWatched_watches executor all object path value _
  | error outcome => exact .pure (.settled outcome)

theorem completeWatched_watches (executor : Executor τ σ) (depth : Nat) :
    AllWatched (executor.completeWatched depth) (executor.complete depth) := by
  induction depth with
  | zero => exact fun _ _ _ _ => .givenUp
  | succ depth ih =>
    intro site type path value
    cases here : value.later? with
    | some later =>
      cases value <;> cases here
      exact .pure (.awaiting (List.prefix_refl path))
    | none =>
      cases type with
      | nonNull inner =>
        rw [completeWatched_nonNull _ _ _ _ here, complete_nonNull _ _ _ _ here]
        exact (ih site inner path value).bind fun completion awaits =>
          .pure (require_awaits site path awaits)
      | list item =>
        cases items : Executor.items? value with
        | none =>
          rw [completeWatched_unlisted _ _ _ _ here items, complete_unlisted _ _ _ _ here items]
          split <;> exact .pure (.settled _)
        | some values =>
          rw [completeWatched_list _ _ _ _ items, complete_list _ _ _ _ items, map_eq_pure_bind,
            map_eq_pure_bind]
          exact (itemsWatched_watches ih site item path values).bind fun parts each =>
            .pure (gather_awaits _ _ each)
      | named name =>
        rw [completeWatched_named _ _ _ _ here, complete_named _ _ _ _ here]
        split
        · exact .pure (.settled _)
        · exact namedWatched_watches ih site path name value

theorem pollWatched_watches (depth : Nat) {path : Path} {completion : Completion τ}
    (awaits : completion.Awaits (path <+: ·)) :
    WatchesInside path (executor.pollWatched depth completion) (executor.poll depth completion) := by
  induction depth generalizing completion with
  | zero => exact .givenUp
  | succ depth ih =>
    cases awaits with
    | settled outcome => exact .pure (.settled outcome)
    | @awaiting later site type position here =>
      obtain ⟨polls, source⟩ := later
      cases polls with
      | zero =>
        have came : Event.Inside path (.came position) := ⟨here, Event.noConfusion⟩
        refine Watches.noting ?_ (List.forall_mem_singleton.2 came)
        refine (Watches.silently (.refl _)).bind fun result _ => ?_
        cases result with
        | ok value =>
          have completes := completeWatched_watches executor depth site type position value
          refine ((completes.mono fun event inside => inside.outer here).knowing
            fun completion awaits => awaits.mono fun _ => here.trans).bind fun completion => ih
        | error message => exact .pure (.settled _)
      | succ polls => exact .pure (.awaiting here)
    | required inner =>
      exact (ih inner).bind fun completion awaits => .pure (require_awaits _ _ awaits)
    | guarded inner =>
      exact (ih inner).bind fun completion awaits => .silently (guard_extends awaits)
    | joined each => exact askPartsWatched_watches (fun part => ih) _ _ each

theorem settleWatched_watches (limits : Limits) {path : Path} {completion : Completion τ}
    (awaits : completion.Awaits (path <+: ·)) :
    Watches (Event.Inside path) (fun _ => True) (executor.settleWatched limits completion)
      (executor.settle limits completion) := by
  rw [settle_eq]
  exact settleByWatched_watches (fun completion => pollWatched_watches limits.depth) _ awaits

end Executing

end GraphQL.Execution
