import GraphQL.Execution.Request
import GraphQL.Proofs.Execution.Positions
import GraphQL.Proofs.Execution.Rounds

/-! The steps that an execution takes: which fields it resolves, and which values it hands to
completion, at which positions. A step is taken if the execution cannot do without it: it does not
come to an end when it is given up at that step. -/
namespace GraphQL.Execution
open Ast (SelectionSet)

variable {τ σ α β : Type}

inductive Step (τ : Type) where
  /-- A field is resolved at a position. -/
  | resolved (site : Site) (path : Path)
  /-- A value is handed to completion at a position. -/
  | handed (site : Site) (type : TypeRef) (path : Path) (value : FieldValue τ)

/-- Gives an execution up at a step that is not allowed. -/
def demand (allowed : Step τ → Bool) (step : Step τ) : Exec σ Unit :=
  if allowed step then return () else failure

namespace Executor

variable (executor : Executor τ σ) (allowed : Step τ → Bool)

def fieldWithin (complete : Complete τ σ) (site : Site) (path : Path) (source : FieldValue τ) :
    Exec σ (Completion τ) := do
  demand allowed (.resolved site path)
  executor.field complete site path source

def objectWithin (complete : Complete τ σ) (object : ObjectType) (path : Path)
    (source : FieldValue τ) (sets : List SelectionSet) : Exec σ (Completion τ) :=
  let sites := executor.sites object (executor.plan.collect object sets)
  Completion.join (.object (sites.map Prod.fst)) <$> sites.mapM fun found =>
    executor.fieldWithin allowed complete found.2 (path ++ [.key found.1]) source

def namedWithin (complete : Complete τ σ) (site : Site) (path : Path) (name : String)
    (value : FieldValue τ) : Exec σ (Completion τ) := do
  match ← executor.objectType site path name value with
  | .ok object => executor.objectWithin allowed complete object path value (setsOf site.nodes)
  | .error outcome => return .settled outcome

/-- Completes a value within the steps that are allowed. -/
def completeWithin : Nat → Complete τ σ
  | 0 => fun _ _ _ _ => failure
  | depth + 1 => fun site type path value => do
      demand allowed (.handed site type path value)
      match value, type with
      | .deferred later, _ => return .awaiting later site type path
      | value, .nonNull inner => do
          let completion ← completeWithin depth site inner path value
          return completion.require site path
      | value, .list item =>
          if value.isNull then return .settled (.ok .null)
          else
            match items? value with
            | some values => do
                let parts ← items (fun value path => completeWithin depth site item path value) item
                  path 0 values
                return .join .list parts
            | none =>
                return .failed site path
                  ("User Error: expected iterable, but did not find one for field "
                    ++ site.coordinate ++ ".")
      | value, .named name =>
          if value.isNull then return .settled (.ok .null)
          else executor.namedWithin allowed (completeWithin depth) site path name value

def pollWithin : Nat → Completion τ → Exec σ (Completion τ)
  | 0, _ => failure
  | depth + 1, completion =>
      match completion with
      | .settled outcome => return .settled outcome
      | .awaiting ⟨polls + 1, source⟩ site type path =>
          return .awaiting ⟨polls, source⟩ site type path
      | .awaiting ⟨0, source⟩ site type path => do
          match ← ask (executor.host.compute source) with
          | .ok value =>
              pollWithin depth (← executor.completeWithin allowed depth site type path value)
          | .error message => return .failed site path message
      | .required site path inner => return (← pollWithin depth inner).require site path
      | .guarded inner => do (← pollWithin depth inner).guard
      | .joined shape parts turns => askParts (pollWithin depth) shape parts turns

def settleWithin (limits : Limits) (completion : Completion τ) : Exec σ Outcome :=
  settleBy (executor.pollWithin allowed limits.depth) limits.rounds completion

def inTurnWithin (limits : Limits) (source : FieldValue τ) :
    List (String × Site) → Exec σ (Except ResponseError (Entries Value))
  | [] => return .ok []
  | (key, site) :: rest => do
      let complete := executor.completeWithin allowed limits.depth
      match ← executor.fieldWithin allowed complete site [.key key] source >>=
          executor.settleWithin allowed limits with
      | .error error => return .error error
      | .ok value => return (← inTurnWithin limits source rest).map ((key, value) :: ·)

/-- Executes the operation within the steps that are allowed. -/
def operationWithin (limits : Limits) (root : ObjectType) : Exec σ Outcome := do
  let plan := executor.plan
  let sets := [plan.operation.selectionSet]
  match plan.operation.operation with
  | .mutation =>
      let sites := executor.sites root (plan.collect root sets)
      return (← executor.inTurnWithin allowed limits plan.root sites).map Value.object
  | _ =>
      let complete := executor.completeWithin allowed limits.depth
      executor.objectWithin allowed complete root [] plan.root sets >>=
        executor.settleWithin allowed limits

end Executor

/-- Executes a request within the steps that are allowed. It is answered as it is without limits to
its steps, or not at all. -/
def executeWithin (allowed : Step τ → Bool) (limits : Limits) (schema : Schema) (host : Host τ σ)
    (request : Request τ σ) (state : σ) : Option (Response × σ) :=
  match prepare schema host request with
  | .error errors => some (.refusal errors, state)
  | .ok (executor, root) =>
      ((executor.operationWithin allowed limits root).run ⟨state, []⟩).map fun (outcome, trace) =>
        (respond trace outcome, trace.host)

/-- A step that a request takes: it is not answered where the step is not allowed. -/
def Takes (limits : Limits) (schema : Schema) (host : Host τ σ) (request : Request τ σ) (state : σ)
    (step : Step τ) : Prop :=
  ∀ allowed, (executeWithin allowed limits schema host request state).isSome = true →
    allowed step = true

section Unlimited
variable (executor : Executor τ σ)

theorem demand_all (step : Step τ) : (demand (fun _ => true) step : Exec σ Unit) = pure () := rfl

theorem objectWithin_all (complete : Executor.Complete τ σ) (object : ObjectType) (path : Path)
    (source : FieldValue τ) (sets : List SelectionSet) :
    executor.objectWithin (fun _ => true) complete object path source sets =
      executor.object complete object path source (executor.plan.collect object sets) := by
  rw [object_eq, Executor.objectWithin]
  rfl

theorem namedWithin_all (complete : Executor.Complete τ σ) (site : Site) (path : Path)
    (name : String) (value : FieldValue τ) :
    executor.namedWithin (fun _ => true) complete site path name value =
      executor.asNamed complete site path name value := by
  rw [asNamed_eq, Executor.namedWithin]
  congr
  funext answer
  cases answer with
  | ok object => exact objectWithin_all executor complete object path value (setsOf site.nodes)
  | error outcome => rfl

/-- Where all steps are allowed, values are completed as ever. -/
theorem completeWithin_all (depth : Nat) :
    executor.completeWithin (fun _ => true) depth = executor.complete depth := by
  induction depth with
  | zero => rfl
  | succ depth ih =>
    funext site type path value
    rw [Executor.completeWithin]
    simp only [demand_all, pure_bind, ih, namedWithin_all]
    cases value <;> cases type <;> rfl

theorem pollWithin_all (depth : Nat) :
    executor.pollWithin (fun _ => true) depth = executor.poll depth := by
  induction depth with
  | zero => rfl
  | succ depth ih =>
    funext completion
    rw [Executor.pollWithin.eq_def]
    simp only [ih, completeWithin_all]
    split <;> rfl

theorem settleWithin_all (limits : Limits) :
    executor.settleWithin (fun _ => true) limits = executor.settle limits := by
  funext completion
  rw [Executor.settleWithin, pollWithin_all, settle_eq]

theorem inTurnWithin_all (limits : Limits) (source : FieldValue τ) (sites : List (String × Site)) :
    executor.inTurnWithin (fun _ => true) limits source sites =
      executor.settleInTurn limits source sites := by
  induction sites with
  | nil => rfl
  | cons found rest ih =>
    rw [Executor.inTurnWithin, Executor.fieldWithin, demand_all, pure_bind, completeWithin_all,
      settleWithin_all, ih]
    rfl

theorem operationWithin_all (limits : Limits) (root : ObjectType) :
    executor.operationWithin (fun _ => true) limits root = executor.operation limits root := by
  rw [Executor.operationWithin, Executor.operation]
  cases executor.plan.operation.operation <;>
    simp only [inTurnWithin_all, inTurn_eq, settleWithin_all, completeWithin_all, objectWithin_all]

end Unlimited

/-- A step at a position of the response. -/
def Step.Placed (plan : Plan τ) (root : ObjectType) : Step τ → Prop
  | .resolved site path => plan.Position root site site.field.type path
  | .handed site type path _ => plan.Hands root site type path

/-- A run takes some steps of a kind, whichever are allowed. It is given up if one of them is not, and
answers as ever if all of them are, in a way that is known. -/
def Outlined (kind : Step τ → Prop) (answers : α → Prop) (run : (Step τ → Bool) → Option α) : Prop :=
  ∃ (steps : List (Step τ)) (answer : Option α), (∀ step ∈ steps, kind step) ∧
    (∀ found ∈ answer, answers found) ∧
      ∀ allowed, run allowed = if steps.all allowed then answer else none

/-- An action runs so in every state. -/
def Charted (kind : Step τ → Prop) (answers : α → Prop) (action : (Step τ → Bool) → Exec σ α) :
    Prop :=
  ∀ trace, Outlined kind (fun found => answers found.1) fun allowed => (action allowed).run trace

section Charts
variable {kind : Step τ → Prop} {answers : α → Prop} {results : β → Prop}

theorem Outlined.silent {run : Option α} (known : ∀ found ∈ run, answers found) :
    Outlined kind answers fun _ => run :=
  ⟨[], run, fun _ member => absurd member List.not_mem_nil, known, fun _ => rfl⟩

theorem Outlined.bind {run : (Step τ → Bool) → Option α} {f : (Step τ → Bool) → α → Option β}
    (first : Outlined kind answers run)
    (next : ∀ a, answers a → Outlined kind results fun allowed => f allowed a) :
    Outlined kind results fun allowed => run allowed >>= f allowed := by
  obtain ⟨steps, answer, kinds, known, runs⟩ := first
  cases answer with
  | none =>
    refine ⟨steps, none, kinds, fun _ none => (by cases none), fun allowed => ?_⟩
    dsimp only
    rw [runs]
    split <;> rfl
  | some found =>
    obtain ⟨more, last, others, knownLast, later⟩ := next found (known found rfl)
    refine ⟨steps ++ more, last, List.forall_mem_append.2 ⟨kinds, others⟩, knownLast,
      fun allowed => ?_⟩
    dsimp only
    rw [runs, List.all_append]
    cases steps.all allowed with
    | false => rfl
    | true => exact later allowed

theorem Outlined.map {run : (Step τ → Bool) → Option α} (outlined : Outlined kind answers run)
    (g : α → β) : Outlined kind (fun _ => True) fun allowed => (run allowed).map g := by
  simp only [Option.map_eq_bind]
  exact outlined.bind fun a _ => .silent fun _ _ => trivial

theorem Outlined.mono {other : Step τ → Prop} {run : (Step τ → Bool) → Option α}
    (outlined : Outlined kind answers run) (weaker : ∀ step, kind step → other step) :
    Outlined other answers run := by
  obtain ⟨steps, answer, kinds, known, runs⟩ := outlined
  exact ⟨steps, answer, fun step member => weaker step (kinds step member), known, runs⟩

variable {action : (Step τ → Bool) → Exec σ α} {f : (Step τ → Bool) → α → Exec σ β}

/-- An action that takes no steps. -/
theorem Charted.silent {action : Exec σ α} {P : α → List ResponseError → Prop}
    (ensures : Ensures (fun _ => True) action P) (known : ∀ a errors, P a errors → answers a) :
    Charted kind answers fun _ => action := by
  refine fun trace => .silent fun found ran => ?_
  obtain ⟨-, errors, -, property⟩ := ensures trace found.1 found.2 trivial ran
  exact known found.1 errors property

theorem Charted.always (action : Exec σ α) : Charted kind (fun _ => True) fun _ => action :=
  fun _ => .silent fun _ _ => trivial

theorem Charted.pure {a : α} (holds : answers a) :
    Charted (σ := σ) kind answers fun _ => Pure.pure a :=
  .silent (P := fun a _ => answers a) (.pure holds) fun _ _ => id

theorem Charted.failure : Charted (σ := σ) kind answers fun _ => Alternative.failure :=
  .silent (P := fun a _ => answers a) failure_ensures fun _ _ => id

theorem Charted.demand {step : Step τ} (here : kind step) :
    Charted (σ := σ) kind (fun _ => True) fun allowed => Execution.demand allowed step := by
  refine fun trace => ⟨[step], some ((), trace), by simpa using here, fun _ _ => trivial,
    fun allowed => ?_⟩
  rw [List.all_cons, List.all_nil, Bool.and_true]
  unfold Execution.demand
  cases here : allowed step <;> simp only [here] <;> rfl

theorem Charted.bind (first : Charted kind answers action)
    (next : ∀ a, answers a → Charted kind results fun allowed => f allowed a) :
    Charted kind results fun allowed => action allowed >>= f allowed :=
  fun trace => (first trace).bind fun found known => next found.1 known found.2

theorem Charted.mapM {items : List α} {each : (Step τ → Bool) → α → Exec σ β}
    (step : ∀ item ∈ items, Charted kind results fun allowed => each allowed item) :
    Charted kind (fun found => ∀ result ∈ found, results result)
      fun allowed => items.mapM (each allowed) := by
  induction items with
  | nil => exact .pure fun _ member => absurd member List.not_mem_nil
  | cons item rest ih =>
    simp only [List.mapM_cons]
    refine (step item List.mem_cons_self).bind fun first known => ?_
    refine (ih fun other member => step other (List.mem_cons_of_mem _ member)).bind
      fun others all => .pure ?_
    exact List.forall_mem_cons.2 ⟨known, all⟩

end Charts

section Asking
variable {kind : Step τ → Prop} {plan : Plan τ} {root : ObjectType}
  {ask : (Step τ → Bool) → Completion τ → Exec σ (Completion τ)}

theorem takeTurns_charted
    (asks : ∀ part, part.Placed plan root →
      Charted kind (Completion.Placed plan root) fun allowed => ask allowed part)
    (patience : Nat) (parts : List (Completion τ)) (next : List Nat)
    (each : ∀ part ∈ parts, part.Placed plan root) :
    Charted kind (fun found => ∀ part ∈ found.1, part.Placed plan root)
      fun allowed => Executor.takeTurns (ask allowed) patience parts next := by
  induction patience, parts, next using Executor.takeTurns.induct with
  | case1 parts patience position rest missing ih =>
    simp only [Executor.takeTurns, missing]
    exact ih each
  | case2 parts patience position rest part found settled waits =>
    simp only [Executor.takeTurns, found]
    refine (asks part (each part (List.mem_of_getElem? found))).bind fun after placed => ?_
    have replaced (other : Completion τ) (member : other ∈ parts.set position after) :
        other.Placed plan root := by
      rcases List.mem_or_eq_of_mem_set member with member | rfl
      · exact each other member
      · exact placed
    split
    · exact settled after replaced
    · exact waits after replaced
  | case3 patience parts next done =>
    have stays (allowed : Step τ → Bool) :
        Executor.takeTurns (ask allowed) patience parts next = pure (parts, next) := by
      rw [Executor.takeTurns.eq_def]
      split
      · exact absurd rfl (done _ _ _ rfl)
      · rfl
    simp only [stays]
    exact .pure each

theorem askParts_charted
    (asks : ∀ part, part.Placed plan root →
      Charted kind (Completion.Placed plan root) fun allowed => ask allowed part)
    (shape : Shape) {parts : List (Completion τ)} (turns : Turns)
    (each : ∀ part ∈ parts, part.Placed plan root) :
    Charted kind (Completion.Placed plan root)
      fun allowed => Executor.askParts (ask allowed) shape parts turns := by
  cases turns with
  | all =>
    exact (Charted.mapM fun part member => asks part (each part member)).bind
      fun parts each => .pure (gather_placed shape _ each)
  | inTurn next =>
    exact (takeTurns_charted asks _ parts next each).bind
      fun found each => .pure (gather_placed shape _ each)

end Asking

section Executing
variable (executor : Executor τ σ) (root : ObjectType)

/-- An action of an execution that takes steps at positions only. -/
abbrev Charts (answers : α → Prop) (action : (Step τ → Bool) → Exec σ α) : Prop :=
  Charted (Step.Placed executor.plan root) answers action

/-- A way of completing values, of which the same is known at all positions. -/
def AllCharted (complete : (Step τ → Bool) → Executor.Complete τ σ) : Prop :=
  ∀ site type path value, executor.plan.Hands root site type path →
    Charts executor root (Completion.Placed executor.plan root)
      fun allowed => complete allowed site type path value

variable {executor root} {complete : (Step τ → Bool) → Executor.Complete τ σ}

theorem fieldWithin_charted (completes : AllCharted executor root complete) {site : Site}
    {path : Path} (here : executor.plan.Position root site site.field.type path)
    (source : FieldValue τ) :
    Charts executor root (Completion.Placed executor.plan root)
      fun allowed => executor.fieldWithin allowed (complete allowed) site path source := by
  refine (Charted.demand here).bind fun _ _ => (Charted.always _).bind fun result _ => ?_
  have guarded (completion : Completion τ) (placed : completion.Placed executor.plan root) :
      Charts executor root (Completion.Placed executor.plan root)
        fun _ => (completion.guardAt site.field.type : Exec σ (Completion τ)) :=
    .silent (guardAt_placed site.field.type placed) fun _ _ => id
  cases result with
  | ok value => exact (completes site _ path value here.hands).bind guarded
  | error message => exact guarded _ (.settled _)

theorem objectWithin_charted (completes : AllCharted executor root complete) {object : ObjectType}
    {sets : List SelectionSet} {path : Path}
    (below : ∀ key site, executor.plan.Selects object sets key site →
      executor.plan.Position root site site.field.type (path ++ [.key key]))
    (source : FieldValue τ) :
    Charts executor root (Completion.Placed executor.plan root) fun allowed =>
      executor.objectWithin allowed (complete allowed) object path source sets := by
  simp only [Executor.objectWithin, map_eq_pure_bind]
  refine Charted.bind (Charted.mapM fun found member => ?_)
    fun parts each => .pure (gather_placed _ _ each)
  exact fieldWithin_charted completes (below found.1 found.2 (mem_sites_selects.1 member)) source

theorem completeWithin_charted (depth : Nat) :
    AllCharted executor root fun allowed => executor.completeWithin allowed depth := by
  induction depth with
  | zero => exact fun _ _ _ _ _ => .failure
  | succ depth ih =>
    intro site type path value hands
    simp only [Executor.completeWithin]
    have demanded : Step.Placed executor.plan root (.handed site type path value) := hands
    refine (Charted.demand demanded).bind fun _ _ => ?_
    split
    · exact .pure (.awaiting hands)
    · exact (ih site _ path value hands.inner).bind fun completion placed =>
        .pure (require_placed site path placed)
    · split
      · exact .pure (.settled _)
      · split
        · simp only [items_eq]
          refine Charted.bind (Charted.mapM fun found _ => ?_)
            fun parts each => .pure (gather_placed _ _ each)
          exact (ih site _ _ found.1 (hands.item found.2)).bind fun completion placed =>
            .silent (guardAt_placed _ placed) fun _ _ => id
        · exact .pure (.settled _)
    · rename_i name _
      split
      · exact .pure (.settled _)
      · have judges : Judges executor (fun _ => True) site :=
          ⟨fun _ _ _ _ _ => trivial, fun _ _ _ _ _ => trivial⟩
        refine Charted.bind (Charted.silent (objectType_consults judges path name value).ensures
          fun _ _ => And.right) fun answer decided => ?_
        cases answer with
        | ok object =>
          exact objectWithin_charted ih (fun key inner selects => hands.field decided selects) value
        | error outcome => exact .pure (.settled _)

theorem pollWithin_charted (depth : Nat) {completion : Completion τ}
    (placed : completion.Placed executor.plan root) :
    Charts executor root (Completion.Placed executor.plan root)
      fun allowed => executor.pollWithin allowed depth completion := by
  induction depth generalizing completion with
  | zero => exact .failure
  | succ depth ih =>
    cases placed with
    | settled outcome => exact .pure (.settled outcome)
    | @awaiting later site type path hands =>
      obtain ⟨polls, source⟩ := later
      cases polls with
      | zero =>
        refine (Charted.always _).bind fun result _ => ?_
        cases result with
        | ok value =>
          exact (completeWithin_charted depth site type path value hands).bind fun completion => ih
        | error message => exact .pure (.settled _)
      | succ polls => exact .pure (.awaiting hands)
    | required inner =>
      exact (ih inner).bind fun completion placed => .pure (require_placed _ _ placed)
    | guarded inner =>
      exact (ih inner).bind fun completion placed => .silent (guard_placed placed) fun _ _ => id
    | joined each => exact askParts_charted (fun part => ih) _ _ each

theorem settleWithin_charted (limits : Limits) {completion : Completion τ}
    (placed : completion.Placed executor.plan root) :
    Charts executor root (fun _ => True)
      fun allowed => executor.settleWithin allowed limits completion := by
  unfold Executor.settleWithin
  generalize limits.rounds = left
  induction left generalizing completion with
  | zero => exact .failure
  | succ left ih =>
    have asked : Charts executor root (fun _ => True) fun allowed =>
        executor.pollWithin allowed limits.depth completion >>=
          settleBy (executor.pollWithin allowed limits.depth) left :=
      (pollWithin_charted limits.depth placed).bind fun completion => ih
    cases completion with
    | settled outcome => exact .pure trivial
    | _ => exact asked

theorem inTurnWithin_charted (limits : Limits) (source : FieldValue τ)
    {sites : List (String × Site)} (here : ∀ found ∈ sites,
      executor.plan.Position root found.2 found.2.field.type [.key found.1]) :
    Charts executor root (fun _ => True)
      fun allowed => executor.inTurnWithin allowed limits source sites := by
  induction sites with
  | nil => exact .pure trivial
  | cons found rest ih =>
    simp only [Executor.inTurnWithin]
    have settled := (fieldWithin_charted (completeWithin_charted limits.depth)
      (here found List.mem_cons_self) source).bind
      fun completion => settleWithin_charted limits
    refine settled.bind fun outcome _ => ?_
    cases outcome with
    | error error => exact .pure trivial
    | ok value =>
      exact (ih fun other member => here other (List.mem_cons_of_mem _ member)).bind
        fun result _ => .pure trivial

theorem operationWithin_charted (limits : Limits) : Charts executor root (fun _ => True)
    fun allowed => executor.operationWithin allowed limits root := by
  have together : Charts executor root (fun _ => True) fun allowed => executor.objectWithin allowed
      (executor.completeWithin allowed limits.depth) root [] executor.plan.root
        [executor.plan.operation.selectionSet] >>= executor.settleWithin allowed limits :=
    (objectWithin_charted (completeWithin_charted limits.depth)
      (fun key site selects => .root selects) _).bind
      fun completion => settleWithin_charted limits
  simp only [Executor.operationWithin]
  cases executor.plan.operation.operation with
  | mutation =>
    exact (inTurnWithin_charted limits _ fun found member =>
      .root (mem_sites_selects.1 member)).bind fun result _ => .pure trivial
  | query => exact together
  | subscription => exact together

end Executing

section Taking
variable {kind : Step τ → Prop} {answers : α → Prop} {run : (Step τ → Bool) → Option α}

/-- A step that a run takes: it does not answer where the step is not allowed. -/
def Needs (run : (Step τ → Bool) → Option α) (step : Step τ) : Prop :=
  ∀ allowed, (run allowed).isSome = true → allowed step = true

/-- A run that answers takes some steps of its kind and no others. -/
theorem Outlined.exists_steps (outlined : Outlined kind answers run) {answer : α}
    (ran : run (fun _ => true) = some answer) : ∃ steps : List (Step τ),
      (∀ step, Needs run step ↔ step ∈ steps) ∧ (∀ step ∈ steps, kind step) ∧
        ∀ allowed, (∀ step ∈ steps, allowed step = true) → run allowed = some answer := by
  classical
  obtain ⟨steps, found, kinds, -, runs⟩ := outlined
  obtain rfl : found = some answer := by
    rw [← ran, runs, if_pos (by simp)]
  have answered (allowed : Step τ → Bool) (all : ∀ step ∈ steps, allowed step = true) :
      run allowed = some answer := by
    rw [runs, if_pos (List.all_eq_true.2 all)]
  refine ⟨steps, fun step => ⟨fun needs => ?_, fun member allowed ends => ?_⟩, kinds, answered⟩
  · have alone := answered (fun other => decide (other ∈ steps)) fun other => decide_eq_true
    exact of_decide_eq_true (needs _ (by rw [alone]; rfl))
  · rw [runs] at ends
    split at ends
    · rename_i all
      exact List.all_eq_true.1 all step member
    · cases ends

/-- A run that is given up where not all steps are allowed takes one that is not. -/
theorem Outlined.exists_needed (outlined : Outlined kind answers run) {allowed : Step τ → Bool}
    (ends : (run fun _ => true).isSome = true) (given : run allowed = none) :
    ∃ step, Needs run step ∧ allowed step = false := by
  obtain ⟨answer, ran⟩ := Option.isSome_iff_exists.1 ends
  obtain ⟨steps, needed, -, answered⟩ := outlined.exists_steps ran
  by_contra none
  push Not at none
  rw [answered allowed fun step member => by simpa using none step ((needed step).2 member)] at given
  cases given

variable (limits : Limits) (schema : Schema) (host : Host τ σ) (request : Request τ σ) (state : σ)

/-- A step at a position of the response to a request. -/
def StepOf (schema : Schema) (host : Host τ σ) (request : Request τ σ) (step : Step τ) : Prop :=
  ∃ executor root, prepare schema host request = .ok (executor, root) ∧
    step.Placed executor.plan root

theorem executeWithin_all : executeWithin (fun _ => true) limits schema host request state =
    execute limits schema host request state := by
  rw [executeWithin, execute]
  cases prepare schema host request with
  | error errors => rfl
  | ok found =>
    dsimp only
    rw [operationWithin_all]

/-- A request takes steps at positions of its response only. -/
theorem executeWithin_outlined : Outlined (StepOf schema host request) (fun _ => True)
    fun allowed => executeWithin allowed limits schema host request state := by
  simp only [executeWithin]
  cases prepared : prepare schema host request with
  | error errors => exact .silent fun _ _ => trivial
  | ok found =>
    obtain ⟨executor, root⟩ := found
    have charted : Charts executor root (fun _ => True) _ := operationWithin_charted limits
    have outlined : Outlined (StepOf schema host request) _ _ :=
      (charted ⟨state, []⟩).mono fun step placed => ⟨executor, root, prepared, placed⟩
    exact outlined.map _

variable {limits schema host request state}

/-- An execution that is answered takes these steps and no others. -/
theorem exists_steps {response : Response} {after : σ}
    (ran : execute limits schema host request state = some (response, after)) :
    ∃ steps : List (Step τ), (∀ step, Takes limits schema host request state step ↔ step ∈ steps) ∧
      (∀ step ∈ steps, StepOf schema host request step) ∧
      ∀ allowed, (∀ step ∈ steps, allowed step = true) →
        executeWithin allowed limits schema host request state = some (response, after) :=
  (executeWithin_outlined limits schema host request state).exists_steps
    (by rw [executeWithin_all, ran])

end Taking
end GraphQL.Execution
