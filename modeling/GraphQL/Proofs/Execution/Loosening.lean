import GraphQL.Proofs.Execution.Grounded
import GraphQL.Proofs.Execution.Rounds

/-! Looser limits. What an execution answers at some limits it answers at all higher ones, and so
does any other executor that differs from it at the root only. -/
namespace GraphQL.Execution
open Ast (SelectionSet)

variable {τ σ α β : Type}

/-- Whatever the first action answers, the second one answers too, and the answer has a property. -/
def Extends (P : α → Prop) (action further : Exec σ α) : Prop :=
  ∀ trace found, action.run trace = some found → further.run trace = some found ∧ P found.1

section Extending
variable {P : α → Prop} {Q : β → Prop} {action further : Exec σ α} {f g : α → Exec σ β}

theorem Extends.bind (first : Extends P action further)
    (next : ∀ a, P a → Extends Q (f a) (g a)) : Extends Q (action >>= f) (further >>= g) := by
  intro trace found run
  obtain ⟨⟨a, middle⟩, one, two⟩ := Option.bind_eq_some_iff.1 run
  obtain ⟨again, property⟩ := first trace _ one
  obtain ⟨last, property⟩ := next a property middle found two
  refine ⟨?_, property⟩
  rw [StateT.run_bind, again]
  exact last

theorem Extends.pure {a : α} (property : P a) :
    Extends P (Pure.pure a : Exec σ α) (Pure.pure a) := by
  rintro trace _ ⟨⟩
  exact ⟨rfl, property⟩

theorem Extends.failure : Extends P (Alternative.failure : Exec σ α) further := by
  rintro trace _ ⟨⟩

theorem Extends.refl (action : Exec σ α) : Extends (fun _ => True) action action :=
  fun _ _ run => ⟨run, trivial⟩

theorem Extends.mapM {items : List α} {each every : α → Exec σ β}
    (step : ∀ item ∈ items, Extends Q (each item) (every item)) :
    Extends (fun found => ∀ result ∈ found, Q result) (items.mapM each) (items.mapM every) := by
  induction items with
  | nil => exact .pure fun _ member => absurd member List.not_mem_nil
  | cons item rest ih =>
    simp only [List.mapM_cons]
    refine (step item List.mem_cons_self).bind fun first known => ?_
    refine (ih fun other member => step other (List.mem_cons_of_mem _ member)).bind
      fun others all => .pure ?_
    exact List.forall_mem_cons.2 ⟨known, all⟩

end Extending

/-- A completion that waits for values at such positions only. -/
inductive Completion.Awaits (place : Path → Prop) : Completion τ → Prop
  | settled (outcome : Outcome) : Awaits place (.settled outcome)
  | awaiting {later : Later τ} {site : Site} {type : TypeRef} {path : Path} : place path →
      Awaits place (.awaiting later site type path)
  | required {site : Site} {path : Path} {inner : Completion τ} : Awaits place inner →
      Awaits place (.required site path inner)
  | guarded {inner : Completion τ} : Awaits place inner → Awaits place (.guarded inner)
  | joined {shape : Shape} {parts : List (Completion τ)} {turns : Turns} :
      (∀ part ∈ parts, Awaits place part) → Awaits place (.joined shape parts turns)

/-- A completion that waits for no value of the root. -/
abbrev Completion.Deep (completion : Completion τ) : Prop := completion.Awaits (· ≠ [])

section Awaiting
variable {place : Path → Prop} {completion : Completion τ}

theorem require_awaits (site : Site) (path : Path) (awaits : completion.Awaits place) :
    (completion.require site path).Awaits place := by
  cases awaits with
  | settled outcome => exact .settled _
  | awaiting here => exact .required (.awaiting here)
  | required inner => exact .required (.required inner)
  | guarded inner => exact .required (.guarded inner)
  | joined each => exact .required (.joined each)

theorem gather_awaits (shape : Shape) {parts : List (Completion τ)} (turns : Turns)
    (each : ∀ part ∈ parts, part.Awaits place) :
    (Completion.gather shape parts turns).Awaits place := by
  rw [Completion.gather]
  split
  · exact .settled _
  · exact .joined each

theorem guard_extends (awaits : completion.Awaits place) :
    Extends (σ := σ) (Completion.Awaits place) completion.guard completion.guard := by
  cases awaits with
  | settled outcome => exact (Extends.refl (absorb outcome)).bind fun after _ => .pure (.settled after)
  | awaiting here => exact .pure (.guarded (.awaiting here))
  | required inner => exact .pure (.guarded (.required inner))
  | guarded inner => exact .pure (.guarded (.guarded inner))
  | joined each => exact .pure (.guarded (.joined each))

theorem guardAt_extends (type : TypeRef) (awaits : completion.Awaits place) :
    Extends (σ := σ) (Completion.Awaits place) (completion.guardAt type) (completion.guardAt type) := by
  rw [Completion.guardAt]
  split
  · exact .pure awaits
  · exact guard_extends awaits

end Awaiting

/-- Executors that may resolve the fields of the root differently, and do all else alike. -/
structure Executor.AgreesBelow (executor other : Executor τ σ) : Prop where
  plan : executor.plan = other.plan
  typeName : executor.host.typeName = other.host.typeName
  compute : executor.host.compute = other.host.compute
  isTypeOf : executor.host.isTypeOf = other.host.isTypeOf
  resolveType : executor.host.resolveType = other.host.resolveType
  resolve : ∀ site path segment source arguments, path ≠ [] →
    executor.resolve site (path ++ [segment]) source arguments =
      other.resolve site (path ++ [segment]) source arguments

namespace Executor.AgreesBelow

theorem refl (executor : Executor τ σ) : executor.AgreesBelow executor :=
  ⟨rfl, rfl, rfl, rfl, rfl, fun _ _ _ _ _ _ => rfl⟩

variable {executor other : Executor τ σ}

theorem symm (agrees : executor.AgreesBelow other) : other.AgreesBelow executor :=
  ⟨agrees.plan.symm, agrees.typeName.symm, agrees.compute.symm, agrees.isTypeOf.symm,
    agrees.resolveType.symm, fun site path segment source arguments inside =>
      (agrees.resolve site path segment source arguments inside).symm⟩

theorem describe (agrees : executor.AgreesBelow other) :
    executor.host.describe = other.host.describe := by
  funext value
  cases value <;> simp only [Host.describe, agrees.typeName]

theorem accepting (agrees : executor.AgreesBelow other) (value : FieldValue τ) (info : Info τ)
    (types : List ObjectType) :
    executor.accepting value info types = other.accepting value info types := by
  induction types with
  | nil => rfl
  | cons object rest ih => simp only [Executor.accepting, agrees.isTypeOf, ih]

theorem runtimeType (agrees : executor.AgreesBelow other) :
    executor.runtimeType = other.runtimeType := by
  funext site path type value
  have reported : executor.host.reportedType value = other.host.reportedType value := by
    cases value <;> simp only [Host.reportedType, agrees.typeName]
  simp only [Executor.runtimeType, Executor.runtimeName, agrees.plan, agrees.resolveType,
    agrees.accepting, agrees.describe, reported]

theorem objectType (agrees : executor.AgreesBelow other) :
    executor.objectType = other.objectType := by
  funext site path name value
  have leaf (type : TypeDef) : executor.leaf site path type value = other.leaf site path type value := by
    simp only [Executor.leaf, agrees.describe]
  simp only [Executor.objectType, Executor.admitted, agrees.plan, agrees.isTypeOf, agrees.runtimeType,
    agrees.describe, leaf]

theorem sites (agrees : executor.AgreesBelow other) : executor.sites = other.sites := by
  funext object groups
  simp only [Executor.sites, Executor.site?, agrees.plan]

theorem call (agrees : executor.AgreesBelow other) {path : Path} (inside : path ≠ []) (site : Site)
    (segment : PathSegment) (source : FieldValue τ) :
    executor.call site (path ++ [segment]) source = other.call site (path ++ [segment]) source := by
  simp only [Executor.call, agrees.plan, agrees.resolve site path segment source _ inside]

end Executor.AgreesBelow

section Loosening
variable {executor other : Executor τ σ} {depth further : Nat}

/-- What the first way of completing values answers below the root, so does the second. -/
def AllExtend (complete every : Executor.Complete τ σ) : Prop :=
  ∀ site type path value, path ≠ [] →
    Extends Completion.Deep (complete site type path value) (every site type path value)

theorem AllExtend.field {complete every : Executor.Complete τ σ} (extends' : AllExtend complete every)
    {site : Site} {path : Path} (inside : path ≠ []) {source : FieldValue τ}
    (called : executor.call site path source = other.call site path source) :
    Extends Completion.Deep (executor.field complete site path source)
      (other.field every site path source) := by
  simp only [Executor.field, called]
  refine (Extends.refl _).bind fun result _ => ?_
  cases result with
  | ok value =>
    exact (extends' site _ path value inside).bind fun completion => guardAt_extends _
  | error message => exact guardAt_extends _ (.settled _)

/-- The fields of an object below the root. -/
theorem AllExtend.object {complete every : Executor.Complete τ σ}
    (extends' : AllExtend complete every) (agrees : executor.AgreesBelow other) {path : Path}
    (inside : path ≠ []) (object : ObjectType) (source : FieldValue τ) (groups : Groups Ast.Field) :
    Extends Completion.Deep (executor.object complete object path source groups)
      (other.object every object path source groups) := by
  rw [object_eq, object_eq, agrees.sites, map_eq_pure_bind, map_eq_pure_bind]
  refine (Extends.mapM fun found _ => ?_).bind fun parts each => .pure (gather_awaits _ _ each)
  exact extends'.field (by simp) (agrees.call inside found.2 _ source)

theorem complete_extends (agrees : executor.AgreesBelow other) (below : depth ≤ further) :
    AllExtend (executor.complete depth) (other.complete further) := by
  induction depth generalizing further with
  | zero => exact fun _ _ _ _ _ => .failure
  | succ depth ih =>
    obtain ⟨further, rfl⟩ := Nat.exists_eq_add_one.2 (Nat.lt_of_lt_of_le (Nat.succ_pos _) below)
    have ih := ih (Nat.le_of_succ_le_succ below)
    intro site type path value inside
    cases here : value.later? with
    | some later =>
      cases value <;> cases here
      exact .pure (.awaiting inside)
    | none =>
      cases type with
      | nonNull inner =>
        rw [complete_nonNull _ _ _ _ here, complete_nonNull _ _ _ _ here]
        exact (ih site inner path value inside).bind fun completion deep =>
          .pure (require_awaits site path deep)
      | list item =>
        cases items : Executor.items? value with
        | none =>
          rw [complete_unlisted _ _ _ _ here items, complete_unlisted _ _ _ _ here items]
          split <;> exact .pure (.settled _)
        | some values =>
          rw [complete_list _ _ _ _ items, complete_list _ _ _ _ items, items_eq, items_eq,
            map_eq_pure_bind, map_eq_pure_bind]
          refine (Extends.mapM fun found _ => ?_).bind fun parts each =>
            .pure (gather_awaits _ _ each)
          exact (ih site item _ found.1 (by simp)).bind fun completion => guardAt_extends item
      | named name =>
        rw [complete_named _ _ _ _ here, complete_named _ _ _ _ here]
        split
        · exact .pure (.settled _)
        · rw [asNamed_eq, asNamed_eq, agrees.objectType]
          refine (Extends.refl _).bind fun answer _ => ?_
          cases answer with
          | ok object =>
            simp only [Executor.asChosen, agrees.plan]
            exact ih.object agrees inside object value _
          | error outcome => exact .pure (.settled outcome)

theorem takeTurns_extends {ask every : Completion τ → Exec σ (Completion τ)}
    (asks : ∀ part, part.Deep → Extends Completion.Deep (ask part) (every part)) (patience : Nat)
    (parts : List (Completion τ)) (next : List Nat) (each : ∀ part ∈ parts, part.Deep) :
    Extends (fun found => ∀ part ∈ found.1, part.Deep)
      (Executor.takeTurns ask patience parts next) (Executor.takeTurns every patience parts next) := by
  induction patience, parts, next using Executor.takeTurns.induct with
  | case1 parts patience position rest missing ih =>
    simp only [Executor.takeTurns, missing]
    exact ih each
  | case2 parts patience position rest part found settled waits =>
    simp only [Executor.takeTurns, found]
    refine (asks part (each part (List.mem_of_getElem? found))).bind fun after deep => ?_
    have replaced (other : Completion τ) (member : other ∈ parts.set position after) :
        other.Deep := by
      rcases List.mem_or_eq_of_mem_set member with member | rfl
      · exact each other member
      · exact deep
    split
    · exact settled after replaced
    · exact waits after replaced
  | case3 patience parts next done =>
    have stays (ask : Completion τ → Exec σ (Completion τ)) :
        Executor.takeTurns ask patience parts next = pure (parts, next) := by
      rw [Executor.takeTurns.eq_def]
      split
      · exact absurd rfl (done _ _ _ rfl)
      · rfl
    rw [stays, stays]
    exact .pure each

theorem askParts_extends {ask every : Completion τ → Exec σ (Completion τ)}
    (asks : ∀ part, part.Deep → Extends Completion.Deep (ask part) (every part)) (shape : Shape)
    {parts : List (Completion τ)} (turns : Turns) (each : ∀ part ∈ parts, part.Deep) :
    Extends Completion.Deep (Executor.askParts ask shape parts turns)
      (Executor.askParts every shape parts turns) := by
  cases turns with
  | all =>
    exact (Extends.mapM fun part member => asks part (each part member)).bind
      fun parts each => .pure (gather_awaits shape _ each)
  | inTurn next =>
    exact (takeTurns_extends asks _ parts next each).bind
      fun found each => .pure (gather_awaits shape _ each)

theorem poll_extends (agrees : executor.AgreesBelow other) (below : depth ≤ further)
    {completion : Completion τ} (deep : completion.Deep) :
    Extends Completion.Deep (executor.poll depth completion) (other.poll further completion) := by
  induction depth generalizing further completion with
  | zero => exact .failure
  | succ depth ih =>
    obtain ⟨further, rfl⟩ := Nat.exists_eq_add_one.2 (Nat.lt_of_lt_of_le (Nat.succ_pos _) below)
    have below := Nat.le_of_succ_le_succ below
    have ih {completion : Completion τ} (deep : completion.Deep) := ih below deep
    cases deep with
    | settled outcome => exact .pure (.settled outcome)
    | @awaiting later site type path inside =>
      obtain ⟨polls, source⟩ := later
      cases polls with
      | zero =>
        simp only [Executor.poll, agrees.compute]
        refine (Extends.refl _).bind fun result _ => ?_
        cases result with
        | ok value =>
          exact (complete_extends agrees below site type path value inside).bind
            fun completion => ih
        | error message => exact .pure (.settled _)
      | succ polls => exact .pure (.awaiting inside)
    | required inner => exact (ih inner).bind fun completion deep => .pure (require_awaits _ _ deep)
    | guarded inner => exact (ih inner).bind fun completion => guard_extends
    | joined each => exact askParts_extends (fun part => ih) _ _ each

theorem settleBy_extends {poll every : Completion τ → Exec σ (Completion τ)} {left more : Nat}
    (polls : ∀ completion, completion.Deep →
      Extends Completion.Deep (poll completion) (every completion))
    (enough : left ≤ more) {completion : Completion τ} (deep : completion.Deep) :
    Extends (fun _ => True) (settleBy poll left completion) (settleBy every more completion) := by
  induction left generalizing more completion with
  | zero => exact .failure
  | succ left ih =>
    obtain ⟨more, rfl⟩ := Nat.exists_eq_add_one.2 (Nat.lt_of_lt_of_le (Nat.succ_pos _) enough)
    have asked : Extends (fun _ => True) (poll completion >>= settleBy poll left)
        (every completion >>= settleBy every more) :=
      (polls completion deep).bind fun after deep => ih (Nat.le_of_succ_le_succ enough) deep
    cases completion with
    | settled outcome => exact .pure trivial
    | _ => exact asked

theorem settle_extends (agrees : executor.AgreesBelow other) {limits looser : Limits}
    (depth : limits.depth ≤ looser.depth) (rounds : limits.rounds ≤ looser.rounds)
    {completion : Completion τ} (deep : completion.Deep) :
    Extends (fun _ => True) (executor.settle limits completion) (other.settle looser completion) := by
  rw [settle_eq, settle_eq]
  exact settleBy_extends (fun completion => poll_extends agrees depth) rounds deep

end Loosening
end GraphQL.Execution
