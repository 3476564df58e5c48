import Mathlib.Data.List.Forall2
import GraphQL.Execution.Executor

/-! What actions of an execution may do: they leave the host in a state that has an invariant, and
add errors to those recorded. Facts about actions are composed along their steps. -/
namespace GraphQL.Execution

variable {σ α β : Type} {I : σ → Prop}

/-- Every answer of the action has the property, together with the errors that the action adds,
and the host keeps the invariant. -/
def Ensures (I : σ → Prop) (action : Exec σ α) (P : α → List ResponseError → Prop) : Prop :=
  ∀ (trace : Trace σ) (answer : α) (next : Trace σ), I trace.host →
    action.run trace = some (answer, next) →
      I next.host ∧ ∃ added, next.errors = trace.errors ++ added ∧ P answer added

/-- The same of an action that leads the host from states with one property to states with
another one. -/
def Leads (I J : σ → Prop) (action : Exec σ α) (P : α → List ResponseError → Prop) : Prop :=
  ∀ (trace : Trace σ) (answer : α) (next : Trace σ), I trace.host →
    action.run trace = some (answer, next) →
      J next.host ∧ ∃ added, next.errors = trace.errors ++ added ∧ P answer added

/-- The action answers in every state of the host that has a property, which the host keeps. It adds
no errors. -/
def Consults (I : σ → Prop) (action : Exec σ α) (R : α → Prop) : Prop :=
  ∀ trace : Trace σ, I trace.host → ∃ answer host,
    action.run trace = some (answer, { trace with host }) ∧ I host ∧ R answer

section Steps
variable {J K : σ → Prop} {action : Exec σ α} {f : α → Exec σ β}
  {P : α → List ResponseError → Prop} {Q : β → List ResponseError → Prop}

theorem Leads.bind (first : Leads I J action P)
    (next : ∀ a errors, P a errors → Leads J K (f a) fun b more => Q b (errors ++ more)) :
    Leads I K (action >>= f) Q := by
  intro trace answer last holds run
  rw [StateT.run_bind] at run
  obtain ⟨⟨a, middle⟩, one, two⟩ := Option.bind_eq_some_iff.1 run
  obtain ⟨holds, errors, added, property⟩ := first trace a middle holds one
  obtain ⟨holds, more, addedLater, property⟩ := next a errors property middle answer last holds two
  refine ⟨holds, errors ++ more, ?_, property⟩
  rw [addedLater, added, List.append_assoc]

theorem Leads.pure {a : α} (keeps : ∀ state, I state → J state) (property : P a []) :
    Leads I J (Pure.pure a : Exec σ α) P := by
  intro trace answer next holds run
  cases run
  exact ⟨keeps trace.host holds, [], (List.append_nil _).symm, property⟩

theorem Ensures.bind (first : Ensures I action P)
    (next : ∀ a errors, P a errors → Ensures I (f a) fun b more => Q b (errors ++ more)) :
    Ensures I (action >>= f) Q :=
  Leads.bind first next

theorem Ensures.pure {a : α} (property : P a []) : Ensures I (Pure.pure a : Exec σ α) P :=
  Leads.pure (fun _ holds => holds) property

theorem Ensures.mono {R : α → List ResponseError → Prop} (ensures : Ensures I action P)
    (weaker : ∀ a errors, P a errors → R a errors) : Ensures I action R := by
  intro trace answer next holds run
  obtain ⟨holds, added, same, property⟩ := ensures trace answer next holds run
  exact ⟨holds, added, same, weaker answer added property⟩

/-- A step that adds no errors, and whose answer is known to have a property. -/
theorem Ensures.silent {R : α → Prop} (first : Ensures I action fun a errors => errors = [] ∧ R a)
    (next : ∀ a, R a → Ensures I (f a) Q) : Ensures I (action >>= f) Q := by
  refine first.bind fun a errors property => ?_
  obtain ⟨rfl, property⟩ := property
  exact next a property

theorem Ensures.map {g : α → β} (ensures : Ensures I action P)
    (maps : ∀ a errors, P a errors → Q (g a) errors) : Ensures I (g <$> action) Q := by
  rw [← bind_pure_comp]
  refine ensures.bind fun a errors property => .pure ?_
  rw [List.append_nil]
  exact maps a errors property

theorem Consults.pure {R : α → Prop} {a : α} (property : R a) :
    Consults I (Pure.pure a : Exec σ α) R :=
  fun trace holds => ⟨a, trace.host, rfl, holds, property⟩

theorem Consults.bind {R : α → Prop} {S : β → Prop} (first : Consults I action R)
    (next : ∀ a, R a → Consults I (f a) S) : Consults I (action >>= f) S := by
  intro trace holds
  obtain ⟨a, middle, run, holds, property⟩ := first trace holds
  obtain ⟨b, last, later, holds, property⟩ := next a property { trace with host := middle } holds
  refine ⟨b, last, ?_, holds, property⟩
  rw [StateT.run_bind, run]
  exact later

theorem Consults.ensures {R : α → Prop} (consults : Consults I action R) :
    Ensures I action fun a errors => errors = [] ∧ R a := by
  intro trace answer next holds run
  obtain ⟨other, host, ran, kept, property⟩ := consults trace holds
  rw [ran] at run
  cases run
  exact ⟨kept, [], (List.append_nil _).symm, rfl, property⟩

theorem failure_ensures : Ensures I (failure : Exec σ α) P := by
  intro trace answer next holds run
  cases run

/-- The host acts, and its answer has a property. -/
theorem ask_leads {action : StateM σ α} {R : α → Prop}
    (answers : ∀ state, I state → J (action.run state).2 ∧ R (action.run state).1) :
    Leads I J (ask action) fun answer errors => errors = [] ∧ R answer := by
  intro trace answer next holds run
  cases run
  obtain ⟨kept, property⟩ := answers trace.host holds
  exact ⟨kept, [], (List.append_nil _).symm, rfl, property⟩

theorem ask_ensures {action : StateM σ α}
    (keeps : ∀ state, I state → I (action.run state).2) :
    Ensures I (ask action) fun _ errors => errors = [] ∧ True :=
  ask_leads fun state holds => ⟨keeps state holds, trivial⟩

theorem ask_consults {action : StateM σ α} {R : α → Prop}
    (answers : ∀ state, I state → I (action.run state).2 ∧ R (action.run state).1) :
    Consults I (ask action) R := by
  intro trace holds
  obtain ⟨kept, property⟩ := answers trace.host holds
  exact ⟨_, _, rfl, kept, property⟩

theorem record_ensures (error : ResponseError) :
    Ensures I (record error : Exec σ Unit) fun _ errors => errors = [error] := by
  intro trace answer next holds run
  cases run
  exact ⟨holds, [error], rfl, rfl⟩

/-- What holds of each step of a list of actions holds of all. -/
theorem mapM_ensures {items : List α} {each : α → Exec σ β}
    {P : α → β → List ResponseError → Prop}
    (step : ∀ item ∈ items, Ensures I (each item) (P item)) :
    Ensures I (items.mapM each) fun answers errors =>
      ∃ parts : List (α × β × List ResponseError), parts.map Prod.fst = items ∧
        (parts.map fun part => part.2.1) = answers ∧ errors = (parts.flatMap fun part => part.2.2) ∧
        ∀ part ∈ parts, P part.1 part.2.1 part.2.2 := by
  induction items with
  | nil =>
    rw [List.mapM_nil]
    exact .pure ⟨[], rfl, rfl, rfl, fun _ member => absurd member List.not_mem_nil⟩
  | cons item items ih =>
    rw [List.mapM_cons]
    refine (step item List.mem_cons_self).bind fun answer errors first => ?_
    refine (ih fun other member => step other (List.mem_cons_of_mem _ member)).bind
      fun answers more others => .pure ?_
    obtain ⟨parts, rfl, rfl, rfl, each⟩ := others
    refine ⟨(item, answer, errors) :: parts, rfl, rfl, by simp, fun part member => ?_⟩
    rcases List.mem_cons.1 member with rfl | member
    · exact first
    · exact each part member

end Steps

/-! Actions that return. An execution may be given up at its limits; it returns if it has one and
the same answer at all limits that are high enough. -/

/-- Limits that leave room for so many steps. -/
def Limits.Allow (limits : Limits) (bound : Nat) : Prop :=
  bound ≤ limits.depth ∧ bound ≤ limits.rounds

theorem Limits.Allow.mono {limits : Limits} {bound other : Nat} (allow : limits.Allow bound)
    (below : other ≤ bound) : limits.Allow other :=
  ⟨Nat.le_trans below allow.1, Nat.le_trans below allow.2⟩

/-- At all limits that are high enough the action has this answer, and leaves this trace. -/
def Yields (action : Limits → Exec σ α) (trace : Trace σ) (answer : α) (next : Trace σ) : Prop :=
  ∃ bound, ∀ limits : Limits, limits.Allow bound → (action limits).run trace = some (answer, next)

/-- From every state of the host that has the first property the action returns, with an answer
that is known to have a property, and leaves the host in a state that has the second one. -/
def Returns (I J : σ → Prop) (action : Limits → Exec σ α) (P : α → Prop) : Prop :=
  ∀ trace : Trace σ, I trace.host → ∃ answer next,
    Yields action trace answer next ∧ J next.host ∧ P answer

section Returning
variable {J K : σ → Prop} {P R : α → Prop} {Q : β → Prop}

theorem Yields.unique {action : Limits → Exec σ α} {trace next last : Trace σ} {answer other : α}
    (first : Yields action trace answer next) (second : Yields action trace other last) :
    answer = other ∧ next = last := by
  obtain ⟨bound, first⟩ := first
  obtain ⟨bound', second⟩ := second
  let limits : Limits := ⟨max bound bound', max bound bound'⟩
  have one := first limits ⟨Nat.le_max_left .., Nat.le_max_left ..⟩
  have two := second limits ⟨Nat.le_max_right .., Nat.le_max_right ..⟩
  rw [one] at two
  cases two
  exact ⟨rfl, rfl⟩

theorem Yields.bind {f : Limits → Exec σ α} {g : Limits → α → Exec σ β}
    {trace middle last : Trace σ} {a : α} {b : β} (first : Yields f trace a middle)
    (second : Yields (fun limits => g limits a) middle b last) :
    Yields (fun limits => f limits >>= g limits) trace b last := by
  obtain ⟨bound, first⟩ := first
  obtain ⟨bound', second⟩ := second
  refine ⟨max bound bound', fun limits allow => ?_⟩
  rw [StateT.run_bind, first limits (allow.mono (Nat.le_max_left ..))]
  exact second limits (allow.mono (Nat.le_max_right ..))

theorem Returns.bind {f : Limits → Exec σ α} {g : Limits → α → Exec σ β} (first : Returns I J f P)
    (next : ∀ a, P a → Returns J K (fun limits => g limits a) Q) :
    Returns I K (fun limits => f limits >>= g limits) Q := by
  intro trace holds
  obtain ⟨a, middle, one, holds, property⟩ := first trace holds
  obtain ⟨b, last, two, holds, property⟩ := next a property middle holds
  exact ⟨b, last, one.bind two, holds, property⟩

theorem Returns.pure {a : α} (property : P a) :
    Returns I I (fun _ => (Pure.pure a : Exec σ α)) P :=
  fun trace holds => ⟨a, trace, ⟨0, fun _ _ => rfl⟩, holds, property⟩

theorem Returns.mono {action : Limits → Exec σ α} (returns : Returns I J action P)
    (weaker : ∀ a, P a → R a) : Returns I J action R := by
  intro trace holds
  obtain ⟨answer, next, yields, holds, property⟩ := returns trace holds
  exact ⟨answer, next, yields, holds, weaker answer property⟩

theorem Returns.keeping {action : Limits → Exec σ α} (returns : Returns I J action P)
    (weaker : ∀ state, J state → K state) : Returns I K action P := by
  intro trace holds
  obtain ⟨answer, next, yields, holds, property⟩ := returns trace holds
  exact ⟨answer, next, yields, weaker next.host holds, property⟩

/-- An answer is that of a run at some limits. -/
theorem Returns.reached {action : Limits → Exec σ α} (returns : Returns I J action P) :
    Returns I J action fun a => P a ∧ ∃ limits trace next, I trace.host ∧
      (action limits).run trace = some (a, next) := by
  intro trace holds
  obtain ⟨answer, next, ⟨bound, runs⟩, kept, property⟩ := returns trace holds
  have run := runs ⟨bound, bound⟩ ⟨Nat.le_refl _, Nat.le_refl _⟩
  exact ⟨answer, next, ⟨bound, runs⟩, kept, property, _, trace, next, holds, run⟩

theorem Consults.returns {action : Exec σ α} (consults : Consults I action P) :
    Returns I I (fun _ => action) P := by
  intro trace holds
  obtain ⟨answer, host, ran, kept, property⟩ := consults trace holds
  exact ⟨answer, _, ⟨0, fun _ _ => ran⟩, kept, property⟩

/-- What an answer is turned into. -/
theorem Returns.map {action : Limits → Exec σ α} {g : α → β} (returns : Returns I J action P)
    (maps : ∀ a, P a → Q (g a)) : Returns I J (fun limits => g <$> action limits) Q := by
  simp only [map_eq_pure_bind]
  exact returns.bind fun a property => .pure (maps a property)

/-- An action that takes one level more than another one. -/
theorem Returns.deeper (f g : Nat → Exec σ α) (same : ∀ depth, g (depth + 1) = f depth)
    (returns : Returns I J (fun limits => f limits.depth) P) :
    Returns I J (fun limits => g limits.depth) P := by
  intro trace holds
  obtain ⟨answer, next, ⟨bound, runs⟩, holds, property⟩ := returns trace holds
  refine ⟨answer, next, ⟨bound + 1, fun limits allow => ?_⟩, holds, property⟩
  obtain ⟨depth, rounds⟩ := limits
  obtain ⟨deep, long⟩ := allow
  cases depth with
  | zero => exact absurd deep (Nat.not_succ_le_zero bound)
  | succ depth =>
    show (g (depth + 1)).run trace = _
    rw [same]
    exact runs ⟨depth, rounds⟩ ⟨Nat.le_of_succ_le_succ deep, Nat.le_of_succ_le long⟩

theorem ask_returns {action : StateM σ α} (keeps : ∀ state, I state → J (action.run state).2) :
    Returns I J (fun _ => ask action) fun answer =>
      ∃ state, I state ∧ (action.run state).1 = answer :=
  fun trace holds => ⟨(action.run trace.host).1, { trace with host := (action.run trace.host).2 },
    ⟨0, fun _ _ => rfl⟩, keeps trace.host holds, trace.host, holds, rfl⟩

theorem absorb_returns (outcome : Outcome) :
    Returns I I (fun _ => absorb outcome) fun _ => True := by
  cases outcome with
  | ok value => exact .pure trivial
  | error error =>
    exact fun trace holds => ⟨.ok .null, { trace with errors := trace.errors ++ [error] },
      ⟨0, fun _ _ => rfl⟩, holds, trivial⟩

/-- A list of actions that return. -/
theorem mapM_returns {items : List α} {each : Limits → α → Exec σ β} {P : α → β → Prop}
    (step : ∀ item ∈ items, Returns I I (fun limits => each limits item) (P item)) :
    Returns I I (fun limits => items.mapM (each limits)) (List.Forall₂ P items) := by
  induction items with
  | nil =>
    simp only [List.mapM_nil]
    exact .pure .nil
  | cons item items ih =>
    simp only [List.mapM_cons]
    refine (step item List.mem_cons_self).bind fun answer first => ?_
    refine (ih fun other member => step other (List.mem_cons_of_mem _ member)).bind
      fun answers others => .pure (.cons first others)

end Returning
end GraphQL.Execution
