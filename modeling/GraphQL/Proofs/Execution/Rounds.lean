import Mathlib.Data.List.Perm.Basic
import GraphQL.Proofs.Execution.Effects

/-! Rounds of asking. What asking one completion keeps is kept for parts that are asked together,
all of them or in turn, and until a completion is settled. -/
namespace GraphQL.Execution

variable {τ σ π φ : Type}

/-- What is known of the parts of a joined completion: what stays the same while they are asked,
the errors recorded below them, and what has to hold of each. -/
structure Ledger (π φ τ : Type) where
  frame : π → φ
  completion : π → Completion τ
  errors : π → List ResponseError
  good : π → Prop

namespace Ledger

variable (ledger : Ledger π φ τ)

/-- Parts after some of them have been asked, with the errors that have been added. -/
structure Moved (before after : List π) (more : List ResponseError) : Prop where
  frame : after.map ledger.frame = before.map ledger.frame
  good : ∀ part ∈ after, ledger.good part
  errors : (after.flatMap ledger.errors).Perm (before.flatMap ledger.errors ++ more)

/-- Asking a part makes a part of it of which the same is known. -/
def Asks (I : σ → Prop) (ask : Completion τ → Exec σ (Completion τ)) : Prop :=
  ∀ part, ledger.good part → Ensures I (ask (ledger.completion part)) fun completion more =>
    ∃ after, ledger.completion after = completion ∧ ledger.frame after = ledger.frame part ∧
      ledger.good after ∧ ledger.errors after = ledger.errors part ++ more

end Ledger

section Parts
variable {ledger : Ledger π φ τ} {I : σ → Prop} {before middle after parts : List π}
  {more later : List ResponseError} {ask : Completion τ → Exec σ (Completion τ)}

theorem Ledger.Moved.refl (good : ∀ part ∈ before, ledger.good part) :
    ledger.Moved before before [] := ⟨rfl, good, by rw [List.append_nil]⟩

theorem Ledger.Moved.trans (first : ledger.Moved before middle more)
    (second : ledger.Moved middle after later) : ledger.Moved before after (more ++ later) := by
  refine ⟨second.frame.trans first.frame, second.good, second.errors.trans ?_⟩
  rw [← List.append_assoc]
  exact first.errors.append_right later

theorem flatMap_set {α β : Type} (f : α → List β) {items : List α} {position : Nat} {item other : α}
    (here : items[position]? = some item) {extra : List β} (more : f other = f item ++ extra) :
    ((items.set position other).flatMap f).Perm (items.flatMap f ++ extra) := by
  induction items generalizing position with
  | nil => cases here
  | cons first rest ih =>
    cases position with
    | zero =>
      cases here
      rw [List.set_cons_zero, List.flatMap_cons, List.flatMap_cons, more, List.append_assoc,
        List.append_assoc]
      exact List.perm_append_comm.append_left _
    | succ position =>
      rw [List.set_cons_succ, List.flatMap_cons, List.flatMap_cons, List.append_assoc]
      exact (ih here).append_left _

/-- One part has been asked. -/
theorem moved_set (good : ∀ part ∈ parts, ledger.good part) {position : Nat} {part other : π}
    (here : parts[position]? = some part) (frame : ledger.frame other = ledger.frame part)
    (stays : ledger.good other) (errors : ledger.errors other = ledger.errors part ++ more) :
    ledger.Moved parts (parts.set position other) more := by
  refine ⟨?_, fun found member => ?_, flatMap_set ledger.errors here errors⟩
  · have known : (parts.map ledger.frame)[position]? = some (ledger.frame other) := by
      rw [List.getElem?_map, here, frame]
      rfl
    obtain ⟨inside, same⟩ := List.getElem?_eq_some_iff.1 known
    rw [List.map_set, ← same, List.set_getElem_self]
  · rcases List.mem_or_eq_of_mem_set member with member | rfl
    · exact good found member
    · exact stays

theorem takeTurns_moves (asks : ledger.Asks I ask) (patience : Nat) (parts : List π)
    (next : List Nat) (good : ∀ part ∈ parts, ledger.good part) :
    Ensures I (Executor.takeTurns ask patience (parts.map ledger.completion) next)
      fun answer more => ∃ after, answer.1 = after.map ledger.completion ∧
        ledger.Moved parts after more := by
  generalize same : parts.map ledger.completion = completions
  induction patience, completions, next using Executor.takeTurns.induct generalizing parts with
  | case1 completions patience position rest missing ih =>
    rw [Executor.takeTurns, missing]
    exact ih parts good same
  | case2 completions patience position rest completion found settled waits =>
    subst same
    rw [List.getElem?_map, Option.map_eq_some_iff] at found
    obtain ⟨part, here, rfl⟩ := found
    rw [Executor.takeTurns, List.getElem?_map, here]
    refine (asks part (good part (List.mem_of_getElem? here))).bind fun completion more asked => ?_
    obtain ⟨other, rfl, frame, stays, errors⟩ := asked
    have moved : ledger.Moved parts (parts.set position other) more :=
      moved_set good here frame stays errors
    have completions : (parts.map ledger.completion).set position (ledger.completion other) =
        (parts.set position other).map ledger.completion := by rw [List.map_set]
    split
    · refine (settled _ _ moved.good completions.symm).mono fun answer later continues => ?_
      obtain ⟨after, same, continues⟩ := continues
      exact ⟨after, same, moved.trans continues⟩
    · refine (waits _ _ moved.good completions.symm).mono fun answer later continues => ?_
      obtain ⟨after, same, continues⟩ := continues
      exact ⟨after, same, moved.trans continues⟩
  | case3 patience completions next done =>
    subst same
    rw [Executor.takeTurns.eq_def]
    split
    · exact absurd rfl (done _ _ _ rfl)
    · exact .pure ⟨parts, rfl, .refl good⟩

theorem askAll_moves (asks : ledger.Asks I ask) (parts : List π)
    (good : ∀ part ∈ parts, ledger.good part) :
    Ensures I ((parts.map ledger.completion).mapM ask) fun answer more =>
      ∃ after, answer = after.map ledger.completion ∧ ledger.Moved parts after more := by
  induction parts with
  | nil => exact .pure ⟨[], rfl, .refl good⟩
  | cons part rest ih =>
    rw [List.map_cons, List.mapM_cons]
    refine (asks part (good part List.mem_cons_self)).bind fun completion more asked => ?_
    obtain ⟨other, rfl, frame, stays, errors⟩ := asked
    refine (ih fun found member => good found (List.mem_cons_of_mem _ member)).bind
      fun answer later others => .pure ?_
    obtain ⟨after, rfl, moved⟩ := others
    refine ⟨other :: after, rfl, ?_, List.forall_mem_cons.2 ⟨stays, moved.good⟩, ?_⟩
    · rw [List.map_cons, List.map_cons, frame, moved.frame]
    · rw [List.flatMap_cons, List.flatMap_cons, errors, List.append_nil, List.append_assoc,
        List.append_assoc]
      refine .append_left _ (.trans (.append_left more moved.errors) ?_)
      rw [← List.append_assoc, ← List.append_assoc]
      exact .append_right later List.perm_append_comm

/-- The parts of a joined completion are asked, all or in turn, and put together again. -/
theorem askParts_moves (asks : ledger.Asks I ask) (shape : Shape) (turns : Turns)
    (good : ∀ part ∈ parts, ledger.good part) :
    Ensures I (Executor.askParts ask shape (parts.map ledger.completion) turns) fun answer more =>
      ∃ after later, answer = .gather shape (after.map ledger.completion) later ∧
        ledger.Moved parts after more := by
  cases turns with
  | all =>
    refine (askAll_moves asks parts good).bind fun answer more asked => .pure ?_
    obtain ⟨after, rfl, moved⟩ := asked
    rw [List.append_nil]
    exact ⟨after, .all, rfl, moved⟩
  | inTurn next =>
    refine (takeTurns_moves asks _ parts next good).bind fun answer more asked => .pure ?_
    obtain ⟨completions, later⟩ := answer
    obtain ⟨after, rfl, moved⟩ := asked
    rw [List.append_nil]
    exact ⟨after, .inTurn later, rfl, moved⟩

end Parts

/-- Asks a completion in so many rounds at most, until it is settled. -/
def settleBy (poll : Completion τ → Exec σ (Completion τ)) : Nat → Completion τ → Exec σ Outcome
  | 0, _ => failure
  | left + 1, completion =>
      match completion with
      | .settled outcome => return outcome
      | completion => do settleBy poll left (← poll completion)

theorem settle_eq (executor : Executor τ σ) (limits : Limits) :
    executor.settle limits = settleBy (executor.poll limits.depth) limits.rounds := by
  have rounds (left : Nat) : Executor.settle.rounds executor limits left =
      settleBy (executor.poll limits.depth) left := by
    induction left with
    | zero => rfl
    | succ left ih =>
      funext completion
      cases completion with
      | settled outcome => rfl
      | _ => exact congrArg (executor.poll limits.depth _ >>= ·) ih
  funext completion
  rw [Executor.settle, rounds]

section Settling
variable {I : σ → Prop} {R : Completion τ → List ResponseError → Prop} {completion : Completion τ}
  {errors : List ResponseError}

/-- What every round keeps holds of the outcome that a completion is settled to. -/
theorem settleBy_keeps {poll : Completion τ → Exec σ (Completion τ)}
    (polls : ∀ completion errors, R completion errors →
      Ensures I (poll completion) fun after more => R after (errors ++ more)) (left : Nat)
    (holds : R completion errors) :
    Ensures I (settleBy poll left completion) fun outcome more =>
      R (.settled outcome) (errors ++ more) := by
  induction left generalizing completion errors with
  | zero => exact failure_ensures
  | succ left ih =>
    have asked : Ensures I (poll completion >>= settleBy poll left)
        fun outcome more => R (.settled outcome) (errors ++ more) := by
      refine (polls _ _ holds).bind fun after more holds => ?_
      refine (ih holds).mono fun outcome later last => ?_
      rwa [← List.append_assoc]
    cases completion with
    | settled outcome =>
      refine .pure ?_
      rwa [List.append_nil]
    | _ => exact asked

theorem settle_keeps {executor : Executor τ σ} {limits : Limits}
    (polls : ∀ completion errors, R completion errors →
      Ensures I (executor.poll limits.depth completion) fun after more => R after (errors ++ more))
    (holds : R completion errors) :
    Ensures I (executor.settle limits completion) fun outcome more =>
      R (.settled outcome) (errors ++ more) := by
  rw [settle_eq]
  exact settleBy_keeps polls limits.rounds holds

end Settling

end GraphQL.Execution
