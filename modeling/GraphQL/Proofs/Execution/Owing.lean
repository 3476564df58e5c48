import GraphQL.Proofs.Execution.Replying
import GraphQL.Proofs.Execution.Rounds

/-! Completions that owe a verdict: whenever what is pending in them comes, and in whichever order,
they are settled as the verdict says, with its errors recorded. -/
namespace GraphQL.Execution
open Ast (SelectionSet)

variable {τ σ α : Type}

/-- One part of a joined completion, with what its verdict has to satisfy and the errors recorded
below it. -/
structure Debt (τ : Type) where
  goal : Verdict → Prop
  completion : Completion τ
  errors : List ResponseError

/-- A completion owes a verdict that satisfies a goal; some of its errors have been recorded. -/
inductive Owes (executor : Executor τ σ) (root : ObjectType) (replies : Replies τ) (I : σ → Prop) :
    (Verdict → Prop) → Completion τ → List ResponseError → Prop
  | settled {goal : Verdict → Prop} {verdict : Verdict} {errors : List ResponseError} :
      goal verdict → errors.Perm verdict.errors →
      Owes executor root replies I goal (.settled verdict.outcome) errors
  | awaiting {goal : Verdict → Prop} {later : Later τ} {site : Site} {type : TypeRef} {path : Path}
      {reply : Reply τ} : executor.plan.Places root site type → path ≠ [] →
      Comes executor.host I type (.ok (.deferred later)) reply →
      (∀ verdict, Amounts executor.plan replies site type path reply verdict → goal verdict) →
      Owes executor root replies I goal (.awaiting later site type path) []
  | required {goal inner : Verdict → Prop} {site : Site} {path : Path} {completion : Completion τ}
      {errors : List ResponseError} :
      (∀ verdict, inner verdict → goal (verdict.require site path)) →
      Owes executor root replies I inner completion errors →
      Owes executor root replies I goal (.required site path completion) errors
  | guarded {goal inner : Verdict → Prop} {completion : Completion τ}
      {errors : List ResponseError} :
      (∀ verdict, inner verdict → goal verdict.guard) →
      Owes executor root replies I inner completion errors →
      Owes executor root replies I goal (.guarded completion) errors
  | joined {goal : Verdict → Prop} {shape : Shape} {turns : Turns} {debts : List (Debt τ)}
      {errors : List ResponseError} :
      (∀ verdicts, List.Forall₂ (fun debt verdict => debt.goal verdict) debts verdicts →
        goal (.join shape verdicts)) →
      (∀ debt ∈ debts, Owes executor root replies I debt.goal debt.completion debt.errors) →
      errors.Perm (debts.flatMap Debt.errors) →
      Owes executor root replies I goal (.joined shape (debts.map Debt.completion) turns) errors

section Owing
variable {executor : Executor τ σ} {root : ObjectType} {replies : Replies τ} {I J : σ → Prop}
  {goal inner : Verdict → Prop} {completion : Completion τ} {errors : List ResponseError}

theorem Owes.mono (owes : Owes executor root replies I inner completion errors)
    (weaker : ∀ verdict, inner verdict → goal verdict) :
    Owes executor root replies I goal completion errors := by
  cases owes with
  | settled holds same => exact .settled (weaker _ holds) same
  | awaiting places deep comes fits =>
    exact .awaiting places deep comes fun verdict amounts => weaker _ (fits verdict amounts)
  | required fits owes => exact .required (fun verdict holds => weaker _ (fits verdict holds)) owes
  | guarded fits owes => exact .guarded (fun verdict holds => weaker _ (fits verdict holds)) owes
  | joined fits each same =>
    exact .joined (fun verdicts holds => weaker _ (fits verdicts holds)) each same

/-- A completion that is settled has paid. -/
theorem Owes.paid {outcome : Outcome}
    (owes : Owes executor root replies I goal (.settled outcome) errors) :
    ∃ verdict, goal verdict ∧ outcome = verdict.outcome ∧ errors.Perm verdict.errors := by
  cases owes with
  | settled holds same => exact ⟨_, holds, rfl, same⟩

theorem owes_settled {outcome : Outcome} {inside : List ResponseError}
    (holds : goal ⟨outcome, inside⟩) (same : errors.Perm inside) :
    Owes executor root replies I goal (.settled outcome) errors := .settled holds same

theorem require_owes (site : Site) (path : Path)
    (owes : Owes executor root replies I inner completion errors)
    (fits : ∀ verdict, inner verdict → goal (verdict.require site path)) :
    Owes executor root replies I goal (completion.require site path) errors := by
  cases owes with
  | settled holds same => exact .settled (fits _ holds) same
  | awaiting places deep comes before => exact .required fits (.awaiting places deep comes before)
  | required before owes => exact .required fits (.required before owes)
  | guarded before owes => exact .required fits (.guarded before owes)
  | joined before each same => exact .required fits (.joined before each same)

theorem guard_owes (owes : Owes executor root replies I inner completion errors)
    (fits : ∀ verdict, inner verdict → goal verdict.guard) :
    Ensures I completion.guard fun after more =>
      Owes executor root replies I goal after (errors ++ more) := by
  have waits {wrapped : Completion τ}
      (guarded : Owes executor root replies I goal wrapped errors) :
      Ensures I (pure wrapped) fun after more =>
        Owes executor root replies I goal after (errors ++ more) := by
    refine .pure ?_
    rwa [List.append_nil]
  cases owes with
  | @settled _ verdict _ holds same =>
    obtain ⟨outcome, inside⟩ := verdict
    rw [Completion.guard]
    cases outcome with
    | ok value =>
      rw [absorb, pure_bind]
      exact waits (owes_settled (fits _ holds) same)
    | error error =>
      rw [absorb, bind_assoc]
      refine (record_ensures error).bind fun _ found recorded => ?_
      rw [pure_bind]
      refine .pure ?_
      rw [List.append_nil, recorded]
      exact owes_settled (fits _ holds) (same.append_right [error])
  | awaiting places deep comes before =>
    exact waits (.guarded fits (.awaiting places deep comes before))
  | required before owes => exact waits (.guarded fits (.required before owes))
  | guarded before owes => exact waits (.guarded fits (.guarded before owes))
  | joined before each same => exact waits (.guarded fits (.joined before each same))

theorem guardAt_owes {type : TypeRef}
    (owes : Owes executor root replies I inner completion errors) :
    Ensures I (completion.guardAt type) fun after more =>
      Owes executor root replies I
        (fun verdict => ∃ found, inner found ∧ verdict = found.guardAt type) after
          (errors ++ more) := by
  unfold Completion.guardAt Verdict.guardAt
  split
  · refine .pure ?_
    rw [List.append_nil]
    exact owes.mono fun verdict holds => ⟨verdict, holds, rfl⟩
  · exact guard_owes owes fun verdict holds => ⟨verdict, holds, rfl⟩

/-- Debts that are all paid. -/
theorem paid_debts {debts : List (Debt τ)} {outcomes : List Outcome}
    (each : ∀ debt ∈ debts, Owes executor root replies I debt.goal debt.completion debt.errors)
    (all : debts.map Debt.completion = outcomes.map Completion.settled) :
    ∃ verdicts, List.Forall₂ (fun debt verdict => debt.goal verdict) debts verdicts ∧
      verdicts.map Verdict.outcome = outcomes ∧
      (debts.flatMap Debt.errors).Perm (verdicts.flatMap Verdict.errors) := by
  induction debts generalizing outcomes with
  | nil =>
    obtain rfl := List.map_eq_nil_iff.1 all.symm
    exact ⟨[], .nil, rfl, .refl _⟩
  | cons debt rest ih =>
    obtain ⟨outcome, others, rfl, same, later⟩ := List.map_eq_cons_iff.1 all.symm
    have first := each debt List.mem_cons_self
    rw [← same] at first
    obtain ⟨verdict, holds, rfl, errors⟩ := first.paid
    obtain ⟨verdicts, meet, rfl, perm⟩ :=
      ih (fun debt member => each debt (List.mem_cons_of_mem _ member)) later.symm
    exact ⟨verdict :: verdicts, .cons holds meet, rfl, errors.append perm⟩

theorem gather_owes {shape : Shape} {debts : List (Debt τ)} (turns : Turns)
    (fits : ∀ verdicts, List.Forall₂ (fun debt verdict => debt.goal verdict) debts verdicts →
      goal (.join shape verdicts))
    (each : ∀ debt ∈ debts, Owes executor root replies I debt.goal debt.completion debt.errors)
    (same : errors.Perm (debts.flatMap Debt.errors)) :
    Owes executor root replies I goal (.gather shape (debts.map Debt.completion) turns) errors := by
  rw [Completion.gather]
  cases all : (debts.map Debt.completion).mapM Completion.outcome? with
  | none => exact .joined fits each same
  | some outcomes =>
    obtain ⟨verdicts, meet, rfl, perm⟩ := paid_debts each (mapM_outcome? all)
    exact .settled (fits verdicts meet) (same.trans perm)

/-- The completions of some positions, put together. -/
theorem join_owes {items : List α} {each : α → Exec σ (Completion τ)} {aim : α → Verdict → Prop}
    (shape : Shape)
    (step : ∀ item ∈ items, Ensures I (each item) (Owes executor root replies I (aim item)))
    (fits : ∀ verdicts, List.Forall₂ aim items verdicts → goal (.join shape verdicts)) :
    Ensures I (Completion.join shape <$> items.mapM each) (Owes executor root replies I goal) := by
  refine (mapM_ensures step).map fun completions errors answered => ?_
  obtain ⟨parts, rfl, rfl, rfl, owes⟩ := answered
  let debt (part : α × Completion τ × List ResponseError) : Debt τ :=
    ⟨aim part.1, part.2.1, part.2.2⟩
  have completions : (parts.map debt).map Debt.completion = parts.map fun part => part.2.1 := by
    rw [List.map_map]
    rfl
  rw [Completion.join, ← completions]
  refine gather_owes _ (fun verdicts meet => fits verdicts ?_) (fun other member => ?_) ?_
  · rw [List.forall₂_map_left_iff] at meet ⊢
    exact meet
  · obtain ⟨part, inside, rfl⟩ := List.mem_map.1 member
    exact owes part inside
  · rw [List.flatMap_map]

/-- The verdicts on positions whose errors have been guarded. -/
theorem guarded_of_forall₂ {items : List α} {type : α → TypeRef} {aim : α → Verdict → Prop}
    {verdicts : List Verdict}
    (each : List.Forall₂ (fun item verdict => ∃ found, aim item found ∧
      verdict = found.guardAt (type item)) items verdicts) :
    ∃ verdict : Nat → Verdict, (∀ (index : Nat) item, items[index]? = some item →
        aim item (verdict index)) ∧
      verdicts = items.mapIdx fun index item => (verdict index).guardAt (type item) := by
  induction each with
  | nil => exact ⟨fun _ => .null, fun _ _ here => (by cases here), rfl⟩
  | cons first _ ih =>
    obtain ⟨found, holds, rfl⟩ := first
    obtain ⟨verdict, others, rfl⟩ := ih
    refine ⟨fun index => index.casesOn found verdict, fun index item here => ?_, ?_⟩
    · cases index with
      | zero =>
        cases here
        exact holds
      | succ index => exact others index item here
    · rw [List.mapIdx_cons]
      rfl

end Owing

/-- A way of completing values that come to replies: the completions owe what the replies amount
to. -/
def Fulfils (executor : Executor τ σ) (root : ObjectType) (replies : Replies τ) (I : σ → Prop)
    (complete : Executor.Complete τ σ) : Prop :=
  ∀ site type path value reply, executor.plan.Places root site type → path ≠ [] →
    Comes executor.host I type (.ok value) reply →
    Ensures I (complete site type path value)
      (Owes executor root replies I (Amounts executor.plan replies site type path reply))

section Completing
variable {executor : Executor τ σ} {root : ObjectType} {replies : Replies τ} {I J : σ → Prop}
  {complete : Executor.Complete τ σ} {site : Site} {path : Path} {goal : Verdict → Prop}

/-- A field that is called owes what its reply amounts to, guarded if it can be. -/
theorem field_owes (fulfils : Fulfils executor root replies J complete)
    (resolves : executor.plan.Resolves root site) (deep : path ≠ []) {source : FieldValue τ}
    (supplies : Supplies executor I J replies site path source) :
    Leads I J (executor.field complete site path source) (Owes executor root replies J
      fun verdict => ∃ found, Amounts executor.plan replies site site.field.type path
        (replies.call executor.plan site path source) found ∧
        verdict = found.guardAt site.field.type) := by
  rw [Executor.field]
  refine supplies.leads.bind fun result errors called => ?_
  obtain ⟨rfl, comes⟩ := called
  generalize replies.call executor.plan site path source = reply at comes
  have guards {action : Exec σ (Completion τ)}
      (owes : Ensures J action (Owes executor root replies J
        (Amounts executor.plan replies site site.field.type path reply))) :
      Ensures J (action >>= Completion.guardAt site.field.type) (Owes executor root replies J
        fun verdict => ∃ found,
          Amounts executor.plan replies site site.field.type path reply found ∧
            verdict = found.guardAt site.field.type) :=
    owes.bind fun completion errors owes => guardAt_owes owes
  cases result with
  | ok value => exact guards (fulfils site _ path value reply ⟨resolves, rfl⟩ deep comes)
  | error message =>
    rw [comes.fails] at guards ⊢
    exact guards (.pure (owes_settled .failed (.refl [])))

/-- An object owes what the replies to its fields amount to. -/
theorem object_owes (fulfils : Fulfils executor root replies I complete) {object : ObjectType}
    {sets : List SelectionSet} {source : FieldValue τ}
    (reached : executor.plan.Reaches root object sets)
    (supplies : ∀ key inner, executor.plan.Resolves root inner →
      (key, inner) ∈ executor.sites object (executor.plan.collect object sets) →
      Supplies executor I I replies inner (path ++ [.key key]) source)
    (fits : ∀ verdict : Nat → Verdict, (∀ (index : Nat) key inner,
        (replies.sites executor.plan object sets)[index]? = some (key, inner) →
        Amounts executor.plan replies inner inner.field.type (path ++ [.key key])
          (replies.call executor.plan inner (path ++ [.key key]) source) (verdict index)) →
      goal (.object (replies.sites executor.plan object sets) verdict)) :
    Ensures I (executor.object complete object path source (executor.plan.collect object sets))
      (Owes executor root replies I goal) := by
  rw [object_eq]
  refine join_owes _ (fun found member => field_owes fulfils (resolves_of_mem reached member)
    (by simp) (supplies found.1 found.2 (resolves_of_mem reached member) member))
    fun verdicts each => ?_
  obtain ⟨verdict, amounts, rfl⟩ := guarded_of_forall₂ each
  exact fits verdict fun index key inner here => amounts index (key, inner) here

/-- A list owes what the replies for its items amount to. -/
theorem items_owes (fulfils : Fulfils executor root replies I complete) {item : TypeRef}
    (places : executor.plan.Places root site item) {values : List (FieldValue τ)}
    {found : List (Reply τ)} (same : values.length = found.length)
    (comes : ∀ (index : Nat) other reply, values[index]? = some other → found[index]? = some reply →
      Comes executor.host I item (.ok other) reply) :
    Ensures I (Completion.join .list <$> Executor.items
      (fun value path => complete site item path value) item path 0 values)
      (Owes executor root replies I
        (Amounts executor.plan replies site (.list item) path (.items found))) := by
  have known {index : Nat} (inside : index < found.length) : found[index]? = some found[index] :=
    List.getElem?_eq_getElem inside
  let aim (here : FieldValue τ × Nat) (inner : Verdict) : Prop :=
    ∀ reply, found[here.2]? = some reply →
      Amounts executor.plan replies site item (path ++ [.index here.2]) reply inner
  have step : ∀ here ∈ values.zipIdx, Ensures I
      (complete site item (path ++ [.index here.2]) here.1 >>= Completion.guardAt item)
      (Owes executor root replies I
        fun verdict => ∃ inner, aim here inner ∧ verdict = inner.guardAt item) := by
    intro here member
    have stands := List.mem_zipIdx_iff_getElem?.1 member
    have inside : here.2 < found.length := same ▸ (List.getElem?_eq_some_iff.1 stands).1
    refine (fulfils site item _ here.1 _ places (by simp)
      (comes here.2 here.1 _ stands (known inside))).bind fun completion errors owes => ?_
    refine guardAt_owes (owes.mono fun verdict amounts reply same => ?_)
    rw [known inside] at same
    cases same
    exact amounts
  rw [items_eq]
  refine join_owes .list step fun verdicts each => ?_
  obtain ⟨verdict, amounts, rfl⟩ := guarded_of_forall₂ each
  have listed : (values.zipIdx.mapIdx fun index _ => (verdict index).guardAt item) =
      (List.range found.length).map fun index => (verdict index).guardAt item :=
    List.ext_getElem (by simp [same]) fun index _ _ => by simp
  rw [listed]
  refine .list fun index reply here => ?_
  have inside : index < values.length := same ▸ (List.getElem?_eq_some_iff.1 here).1
  exact amounts index (values[index], index) (by simp [inside]) reply here

/-- Completions of all values owe what their replies amount to. -/
theorem complete_owes (alike : Alike executor root replies I) (depth : Nat) :
    Fulfils executor root replies I (executor.complete depth) := by
  induction depth with
  | zero => exact fun _ _ _ _ _ _ _ _ => failure_ensures
  | succ depth ih =>
    intro site type path value reply places deep comes
    cases comes with
    | @deferred _ later _ keeps comes =>
      exact .pure (.awaiting places deep (.deferred keeps comes) fun _ amounts => amounts)
    | @nonNull inner _ _ here comes =>
      rw [complete_nonNull _ _ _ _ here]
      refine (ih site inner path value reply places deep comes).bind
        fun completion errors owes => .pure ?_
      rw [List.append_nil]
      exact require_owes site path owes fun verdict amounts => .nonNull (comes.stands here) amounts
    | @items item _ values found same lengths comes =>
      rw [complete_list _ _ _ _ same]
      have places : executor.plan.Places root site item := places
      exact items_owes ih places lengths comes
    | @unlisted item _ here none =>
      rw [complete_unlisted _ _ _ _ here none]
      have amounts := @Amounts.unlisted _ executor.plan replies site item path value
      refine .pure ?_
      split
      · rename_i null
        rw [if_pos null] at amounts
        exact owes_settled amounts (.refl [])
      · rename_i solid
        rw [if_neg solid] at amounts
        exact owes_settled amounts (.refl [])
    | @named name _ here =>
      rw [complete_named _ _ _ _ here]
      split
      · rename_i null
        exact .pure (owes_settled (.null null) (.refl []))
      · rename_i solid
        have solid : value.isNull = false := by simpa using solid
        rw [asNamed_eq]
        have chooses := objectType_mirrors (alike.decides site places.1) path name value
        refine (Consults.ensures chooses).silent fun answer chosen => ?_
        cases answer with
        | error outcome => exact .pure (owes_settled (.settled solid chosen) (.refl []))
        | ok object =>
          have runtime : RuntimeType executor.plan.schema name object :=
            Replies.Chooses.runtime chosen
          have innermost : name = site.field.type.innermost := places.2
          have reached := reaches_of_resolves places.1 (innermost ▸ runtime)
          exact object_owes ih reached
            (fun key inner resolves _ => alike.supplies inner resolves path key value deep)
            fun verdict amounts => .object solid chosen amounts

end Completing

section Rounds
variable {executor : Executor τ σ} {root : ObjectType} {replies : Replies τ} {I : σ → Prop}

/-- Parts of a joined completion, which owe verdicts. -/
def debtLedger (executor : Executor τ σ) (root : ObjectType) (replies : Replies τ) (I : σ → Prop) :
    Ledger (Debt τ) (Verdict → Prop) τ where
  frame := Debt.goal
  completion := Debt.completion
  errors := Debt.errors
  good debt := Owes executor root replies I debt.goal debt.completion debt.errors

/-- A value that was awaited and has come is completed, and asked further. -/
theorem arrived_owes (alike : Alike executor root replies I) (depth : Nat)
    (polls : ∀ goal completion errors, Owes executor root replies I goal completion errors →
      Ensures I (executor.poll depth completion) fun after more =>
        Owes executor root replies I goal after (errors ++ more))
    {goal : Verdict → Prop} {site : Site} {type : TypeRef} {path : Path} {source : τ}
    {reply : Reply τ} (places : executor.plan.Places root site type) (deep : path ≠ [])
    (comes : ∀ state, I state → I ((executor.host.compute source).run state).2 ∧
      Comes executor.host I type ((executor.host.compute source).run state).1 reply)
    (fits : ∀ verdict, Amounts executor.plan replies site type path reply verdict → goal verdict) :
    Ensures I (executor.poll (depth + 1) (.awaiting ⟨0, source⟩ site type path))
      (Owes executor root replies I goal) := by
  rw [Executor.poll]
  have asked : Ensures I (ask (executor.host.compute source)) fun result errors =>
      errors = [] ∧ Comes executor.host I type result reply := ask_leads comes
  refine asked.silent fun result comes => ?_
  cases result with
  | error message =>
    rw [comes.fails] at fits
    exact .pure (owes_settled (fits _ .failed) (.refl []))
  | ok value =>
    refine (complete_owes alike depth site type path value reply places deep comes).bind
      fun completion errors owes => ?_
    exact polls goal completion errors (owes.mono fits)

/-- A round of asking leaves what a completion owes as it is. -/
theorem poll_owes (alike : Alike executor root replies I) (depth : Nat)
    (goal : Verdict → Prop) (completion : Completion τ) (errors : List ResponseError)
    (owes : Owes executor root replies I goal completion errors) :
    Ensures I (executor.poll depth completion) fun after more =>
      Owes executor root replies I goal after (errors ++ more) := by
  induction depth generalizing goal completion errors with
  | zero => exact failure_ensures
  | succ depth ih =>
    cases owes with
    | settled holds same =>
      refine .pure ?_
      rw [List.append_nil]
      exact .settled holds same
    | @awaiting _ later site type path reply places deep comes fits =>
      obtain ⟨count, source⟩ := later
      cases count with
      | zero => exact arrived_owes alike depth ih places deep comes.computes fits
      | succ count =>
        have waits : Comes executor.host I type (.ok (.deferred ⟨count, source⟩)) reply :=
          .deferred (fun state holds => (comes.computes state holds).1)
            fun state holds => (comes.computes state holds).2
        exact .pure (.awaiting places deep waits fits)
    | required fits owes =>
      refine (ih _ _ _ owes).bind fun after more owes => .pure ?_
      rw [List.append_nil]
      exact require_owes _ _ owes fits
    | guarded fits owes =>
      refine (ih _ _ _ owes).bind fun after more owes => ?_
      refine (guard_owes owes fits).mono fun last later owes => ?_
      rwa [← List.append_assoc]
    | @joined _ shape turns debts _ fits each same =>
      have asks : (debtLedger executor root replies I).Asks I (executor.poll depth) :=
        fun debt owes => (ih _ _ _ owes).mono fun completion more owes =>
          ⟨{ debt with completion, errors := debt.errors ++ more }, rfl, rfl, owes, rfl⟩
      refine (askParts_moves asks shape turns each).mono fun answer more asked => ?_
      obtain ⟨after, later, rfl, moved⟩ := asked
      refine gather_owes later (fun verdicts meet => fits verdicts ?_) moved.good
        ((same.append_right more).trans moved.errors.symm)
      have goals : after.map Debt.goal = debts.map Debt.goal := moved.frame
      have meets (parts : List (Debt τ)) :
          List.Forall₂ (fun debt verdict => debt.goal verdict) parts verdicts ↔
            List.Forall₂ (fun goal verdict => goal verdict) (parts.map Debt.goal) verdicts := by
        rw [List.forall₂_map_left_iff]
      rw [meets] at meet ⊢
      rwa [← goals]

/-- A completion is settled as it owes. -/
theorem settle_owes (alike : Alike executor root replies I) (limits : Limits)
    {goal : Verdict → Prop} {completion : Completion τ} {errors : List ResponseError}
    (owes : Owes executor root replies I goal completion errors) :
    Ensures I (executor.settle limits completion) fun outcome more =>
      ∃ verdict, goal verdict ∧ outcome = verdict.outcome ∧
        (errors ++ more).Perm verdict.errors :=
  (settle_keeps (poll_owes alike limits.depth goal) owes).mono fun _ _ owes => owes.paid

end Rounds
end GraphQL.Execution
