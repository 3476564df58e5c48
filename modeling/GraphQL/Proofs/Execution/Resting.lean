import Mathlib.Logic.Relation
import GraphQL.Proofs.Execution.Completing
import GraphQL.Proofs.Execution.Effects

/-! Completions that come to rest: after so many rounds as it takes they are settled, whatever
states the host passes through. In each round a part that waits is asked and lowered, so parts
that come to rest do so together. -/
namespace GraphQL.Execution

variable {τ σ : Type}

/-- Items after one of them has been lowered. -/
inductive Lowered {α : Type} (below : α → α → Prop) : List α → List α → Prop
  | head {after before : α} {rest : List α} : below after before →
      Lowered below (after :: rest) (before :: rest)
  | tail {item : α} {after before : List α} : Lowered below after before →
      Lowered below (item :: after) (item :: before)

section Lowered
variable {α : Type} {below : α → α → Prop}

/-- If no item can be lowered forever, the items together cannot. -/
theorem acc_lowered {items : List α} (each : ∀ item ∈ items, Acc below item) :
    Acc (Lowered below) items := by
  induction items with
  | nil => exact ⟨_, fun after lowered => by cases lowered⟩
  | cons first rest ih =>
    have ends := ih fun item member => each item (List.mem_cons_of_mem _ member)
    have first := each first List.mem_cons_self
    clear ih each
    induction first generalizing rest with
    | intro first _ lower =>
      induction ends with
      | intro rest ended fewer =>
        refine ⟨_, fun after lowered => ?_⟩
        cases lowered with
        | head step => exact lower _ step rest ⟨_, ended⟩
        | tail step => exact fewer _ step

theorem lowered_set {items : List α} {position : Nat} {item other : α}
    (here : items[position]? = some item) (step : below other item) :
    Lowered below (items.set position other) items := by
  induction items generalizing position with
  | nil => cases here
  | cons first rest ih =>
    cases position with
    | zero =>
      cases here
      exact .head step
    | succ position => exact .tail (ih here)

end Lowered

/-- A completion comes to rest: asking it returns, and what it becomes comes to rest. -/
inductive Rests (executor : Executor τ σ) (I : σ → Prop) : Completion τ → Prop
  | settled (outcome : Outcome) : Rests executor I (.settled outcome)
  | asked {completion : Completion τ} (after : Trace σ → Completion τ) :
      (∀ trace, I trace.host → ∃ next,
        Yields (fun limits => executor.poll limits.depth completion) trace (after trace) next ∧
          I next.host) →
      (∀ trace, I trace.host → Rests executor I (after trace)) → Rests executor I completion

/-- What a completion that waits becomes in a round. -/
def Asked (executor : Executor τ σ) (I : σ → Prop) (after before : Completion τ) : Prop :=
  before.isSettled = false ∧ ∃ trace next, I trace.host ∧
    Yields (fun limits => executor.poll limits.depth before) trace after next

section Resting
variable {executor : Executor τ σ} {I : σ → Prop} {completion : Completion τ}

theorem rests_of_returns (returns : Returns I I
    (fun limits => executor.poll limits.depth completion) (Rests executor I)) :
    Rests executor I completion := by
  have inhabited : Nonempty (Completion τ) := ⟨.settled (.ok .null)⟩
  choose! after next yields holds rests using returns
  exact .asked after (fun trace here => ⟨next trace, yields trace here, holds trace here⟩) rests

theorem Rests.acc (rests : Rests executor I completion) : Acc (Asked executor I) completion := by
  induction rests with
  | settled outcome => exact ⟨_, fun after asked => by cases asked.1⟩
  | asked after returns _ ends =>
    refine ⟨_, fun other asked => ?_⟩
    obtain ⟨_, trace, last, holds, yields⟩ := asked
    obtain ⟨next, same, _⟩ := returns trace holds
    rw [(yields.unique same).1]
    exact ends trace holds

/-- A round lowers a completion that waits, and leaves one that is settled as it is. -/
structure Advanced (executor : Executor τ σ) (I : σ → Prop) (before after : Completion τ) :
    Prop where
  rests : Rests executor I after
  same : before.isSettled = true → after = before
  asked : before.isSettled = false → Asked executor I after before

theorem Rests.advances (rests : Rests executor I completion) : Returns I I
    (fun limits => executor.poll limits.depth completion) (Advanced executor I completion) := by
  cases completion with
  | settled outcome =>
    refine Returns.deeper (fun _ => pure (.settled outcome)) (executor.poll · (.settled outcome))
      (fun _ => rfl) (.pure ?_)
    exact ⟨.settled outcome, fun _ => rfl, fun waits => by cases waits⟩
  | _ =>
    cases rests with
    | asked after returns rests =>
      intro trace holds
      obtain ⟨next, yields, kept⟩ := returns trace holds
      exact ⟨after trace, next, yields, kept, rests trace holds, fun settled => (by cases settled),
        fun _ => ⟨rfl, trace, next, holds, yields⟩⟩

theorem Rests.polled (rests : Rests executor I completion) : Returns I I
    (fun limits => executor.poll limits.depth completion) (Rests executor I) :=
  rests.advances.mono fun _ advanced => advanced.rests

/-- Completions that are wrapped while they wait: what asks the inner one in every round, and
finishes it when it is settled, brings the whole to rest. -/
theorem Rests.finished (wrap : Completion τ → Completion τ)
    (finish : Completion τ → Exec σ (Completion τ))
    (settled : ∀ outcome, Returns I I (fun _ => finish (.settled outcome)) (Rests executor I))
    (waits : ∀ inner, inner.isSettled = false → finish inner = pure (wrap inner))
    (same : ∀ inner depth,
      executor.poll (depth + 1) (wrap inner) = executor.poll depth inner >>= finish)
    (rests : Rests executor I completion) :
    Returns I I (fun _ => finish completion) (Rests executor I) := by
  induction rests with
  | settled outcome => exact settled outcome
  | @asked completion after returns _ finishes =>
    cases waiting : completion.isSettled with
    | true =>
      cases completion with
      | settled outcome => exact settled outcome
      | _ => cases waiting
    | false =>
      rw [waits completion waiting]
      refine .pure (rests_of_returns ?_)
      refine Returns.deeper (fun depth => executor.poll depth completion >>= finish)
        (executor.poll · (wrap completion)) (same completion) fun trace holds => ?_
      obtain ⟨middle, yields, kept⟩ := returns trace holds
      obtain ⟨last, next, finishes, kept, rests⟩ := finishes trace holds middle kept
      exact ⟨last, next, yields.bind finishes, kept, rests⟩

theorem guard_returns (rests : Rests executor I completion) :
    Returns I I (fun _ => completion.guard) (Rests executor I) :=
  rests.finished .guarded Completion.guard
    (fun outcome => (absorb_returns outcome).bind fun after _ => .pure (.settled after))
    (fun inner waits => by cases inner <;> first | rfl | cases waits) fun _ _ => rfl

theorem guardAt_returns (type : TypeRef) (rests : Rests executor I completion) :
    Returns I I (fun _ => completion.guardAt type) (Rests executor I) := by
  simp only [Completion.guardAt]
  split
  · exact .pure rests
  · exact guard_returns rests

theorem require_returns (site : Site) (path : Path) (rests : Rests executor I completion) :
    Returns I I (fun _ => (pure (completion.require site path) : Exec σ (Completion τ)))
      (Rests executor I) :=
  rests.finished (.required site path) (fun inner => pure (inner.require site path))
    (fun _ => .pure (.settled _))
    (fun inner waits => by cases inner <;> first | rfl | cases waits) fun _ _ => rfl

/-- The rounds that are left are counted apart from the limits. -/
theorem rounds_eq (depth rounds other left : Nat) (completion : Completion τ) :
    Executor.settle.rounds executor ⟨depth, rounds⟩ left completion =
      Executor.settle.rounds executor ⟨depth, other⟩ left completion := by
  induction left generalizing completion with
  | zero => rfl
  | succ left ih => cases completion <;> simp only [Executor.settle.rounds, ih]

theorem settle_succ (depth rounds : Nat) (waits : completion.isSettled = false) :
    executor.settle ⟨depth, rounds + 1⟩ completion =
      executor.poll depth completion >>= executor.settle ⟨depth, rounds⟩ := by
  have later : executor.settle ⟨depth, rounds⟩ =
      Executor.settle.rounds executor ⟨depth, rounds + 1⟩ rounds := funext fun after =>
    rounds_eq depth rounds (rounds + 1) rounds after
  rw [later]
  cases completion with
  | settled _ => cases waits
  | _ => rfl

/-- Rounds go on until a completion has come to rest. -/
theorem settle_returns (rests : Rests executor I completion) :
    Returns I I (fun limits => executor.settle limits completion) fun _ => True := by
  have settled (outcome : Outcome) : Returns I I
      (fun limits => executor.settle limits (.settled outcome)) fun _ => True := by
    refine fun trace holds => ⟨outcome, trace, ⟨1, fun limits allow => ?_⟩, holds, trivial⟩
    obtain ⟨depth, rounds⟩ := limits
    cases rounds with
    | zero => exact absurd allow.2 (Nat.not_succ_le_zero 0)
    | succ rounds => rfl
  induction rests with
  | settled outcome => exact settled outcome
  | @asked completion after returns _ settles =>
    intro trace holds
    obtain ⟨middle, ⟨bound, runs⟩, kept⟩ := returns trace holds
    obtain ⟨outcome, last, ⟨bound', ends⟩, kept, _⟩ := settles trace holds middle kept
    have asked (limits : Limits) (allow : limits.Allow (max bound bound' + 1))
        (waits : completion.isSettled = false) :
        (executor.settle limits completion).run trace = some (outcome, last) := by
      obtain ⟨depth, rounds⟩ := limits
      have deep : max bound bound' + 1 ≤ depth := allow.1
      have long : max bound bound' + 1 ≤ rounds := allow.2
      cases rounds with
      | zero => exact absurd long (Nat.not_succ_le_zero _)
      | succ rounds =>
        have now : Limits.Allow ⟨depth, rounds + 1⟩ bound :=
          ⟨show bound ≤ depth by omega, show bound ≤ rounds + 1 by omega⟩
        have later : Limits.Allow ⟨depth, rounds⟩ bound' :=
          ⟨show bound' ≤ depth by omega, show bound' ≤ rounds by omega⟩
        rw [settle_succ depth rounds waits, StateT.run_bind, runs _ now]
        exact ends _ later
    cases waits : completion.isSettled with
    | false =>
      exact ⟨outcome, last, ⟨_, fun limits allow => asked limits allow waits⟩, kept, trivial⟩
    | true =>
      cases completion with
      | settled outcome => exact settled outcome trace holds
      | _ => cases waits

/-- A value that is awaited comes to rest if whatever it turns out to be does. -/
theorem awaiting_rests {source : τ} {site : Site} {type : TypeRef} {path : Path}
    (keeps : ∀ state, I state → I ((executor.host.compute source).run state).2)
    (comes : ∀ state value, I state → ((executor.host.compute source).run state).1 = .ok value →
      Returns I I (fun limits => executor.complete limits.depth site type path value)
        (Rests executor I)) (polls : Nat) :
    Rests executor I (.awaiting ⟨polls, source⟩ site type path) := by
  induction polls with
  | zero =>
    refine rests_of_returns (Returns.deeper _ (executor.poll · _)
      (fun _ => by rw [Executor.poll]) ?_)
    refine (ask_returns keeps).bind fun result answered => ?_
    obtain ⟨state, holds, answered⟩ := answered
    cases result with
    | error message => exact .pure (.settled _)
    | ok value => exact (comes state value holds answered).bind fun completion rests => rests.polled
  | succ polls rests =>
    exact rests_of_returns (Returns.deeper
      (fun _ => pure (.awaiting ⟨polls, source⟩ site type path)) (executor.poll · _)
      (fun _ => rfl) (.pure rests))

end Resting

section Joining
variable {executor : Executor τ σ} {I : σ → Prop} {parts : List (Completion τ)}

/-- Parts of one completion come to rest each. -/
def AllRest (executor : Executor τ σ) (I : σ → Prop) (parts : List (Completion τ)) : Prop :=
  ∀ part ∈ parts, Rests executor I part

theorem allRest_of_forall₂ {α : Type} {items : List α}
    (each : List.Forall₂ (fun _ => Rests executor I) items parts) : AllRest executor I parts := by
  induction each with
  | nil => exact fun _ member => absurd member List.not_mem_nil
  | cons first _ ih =>
    intro part member
    rcases List.mem_cons.1 member with rfl | member
    · exact first
    · exact ih part member

/-- Parts after some of those that waited have become less. -/
def LessRest (executor : Executor τ σ) (I : σ → Prop) :
    List (Completion τ) → List (Completion τ) → Prop :=
  Relation.TransGen (Lowered (Asked executor I))

/-- Those whose turn it is are the parts that wait, each once. -/
structure Awaits (parts : List (Completion τ)) (next : List Nat) : Prop where
  nodup : next.Nodup
  waits : ∀ position, position ∈ next ↔
    ∃ part, parts[position]? = some part ∧ part.isSettled = false

theorem gather_settled (shape : Shape) (turns : Turns)
    (all : ∀ part ∈ parts, part.isSettled = true) :
    ∃ outcome, Completion.gather shape parts turns = .settled outcome := by
  have outcomes : ∃ outcomes, parts.mapM Completion.outcome? = some outcomes := by
    induction parts with
    | nil => exact ⟨[], rfl⟩
    | cons first rest ih =>
      obtain ⟨others, same⟩ := ih fun part member => all part (List.mem_cons_of_mem _ member)
      obtain ⟨outcome, here⟩ := Option.isSome_iff_exists.1 (all first List.mem_cons_self)
      exact ⟨outcome :: others, by rw [List.mapM_cons, here, same]; rfl⟩
  obtain ⟨outcomes, same⟩ := outcomes
  rw [Completion.gather, same]
  exact ⟨_, rfl⟩

theorem gather_cases (shape : Shape) (parts : List (Completion τ)) (turns : Turns) :
    (∃ outcome, Completion.gather shape parts turns = .settled outcome) ∨
      Completion.gather shape parts turns = .joined shape parts turns := by
  rw [Completion.gather]
  split
  · exact .inl ⟨_, rfl⟩
  · exact .inr rfl

theorem firstTurns_awaits (parts : List (Completion τ)) :
    Completion.firstTurns parts = .all ∨
      ∃ next, Completion.firstTurns parts = .inTurn next ∧ Awaits parts next := by
  rw [Completion.firstTurns]
  split
  · exact .inl rfl
  · refine .inr ⟨_, rfl, ?_, fun position => ?_⟩
    · have distinct : (parts.zipIdx.map Prod.snd).Nodup := by
        rw [List.zipIdx_map_snd]
        exact List.nodup_range'
      exact (List.filter_sublist.map _).nodup distinct
    · simp [List.mem_zipIdx_iff_getElem?]

/-- In a round all parts become less, unless all of them are settled. -/
theorem AllRest.advanced {after : List (Completion τ)}
    (advanced : List.Forall₂ (Advanced executor I) parts after) : AllRest executor I after ∧
      ((∀ part ∈ parts, part.isSettled = true) ∧ after = parts ∨
        LessRest executor I after parts) := by
  induction advanced with
  | nil => exact ⟨fun _ member => absurd member List.not_mem_nil,
      .inl ⟨fun _ member => absurd member List.not_mem_nil, rfl⟩⟩
  | @cons part later parts after first _ ih =>
    obtain ⟨rest, fewer⟩ := ih
    refine ⟨fun other member => ?_, ?_⟩
    · rcases List.mem_cons.1 member with rfl | member
      · exact first.rests
      · exact rest other member
    · have below {item : Completion τ} (less : LessRest executor I after parts) :
          LessRest executor I (item :: after) (item :: parts) :=
        Relation.TransGen.lift (item :: ·) (fun _ _ => Lowered.tail) _ _ less
      cases waits : part.isSettled with
      | true =>
        obtain rfl := first.same waits
        refine fewer.imp (fun ⟨settled, same⟩ => ⟨fun other member => ?_, by rw [same]⟩) below
        rcases List.mem_cons.1 member with rfl | member
        · exact waits
        · exact settled other member
      | false =>
        have head : LessRest executor I (later :: parts) (part :: parts) :=
          .single (.head (first.asked waits))
        rcases fewer with ⟨_, same⟩ | less
        · exact .inr (same ▸ head)
        · exact .inr ((below less).trans head)

/-- A part that has been asked is put back, or to the end if it still waits. -/
theorem Awaits.asked {position : Nat} {rest : List Nat} (awaits : Awaits parts (position :: rest))
    (part : Completion τ) : Awaits (parts.set position part)
      (if part.isSettled then rest else rest ++ [position]) := by
  obtain ⟨here, old, waits⟩ := (awaits.waits position).1 List.mem_cons_self
  obtain ⟨fresh, distinct⟩ := List.nodup_cons.1 awaits.nodup
  have inside := (List.getElem?_eq_some_iff.1 old).1
  have others (other : Nat) (apart : other ≠ position) : other ∈ rest ↔
      ∃ found, (parts.set position part)[other]? = some found ∧ found.isSettled = false := by
    rw [List.getElem?_set_ne apart.symm, ← awaits.waits other, List.mem_cons, or_iff_right apart]
  have at_position : (parts.set position part)[position]? = some part :=
    List.getElem?_set_self inside
  split
  · rename_i settled
    refine ⟨distinct, fun other => ?_⟩
    by_cases same : other = position
    · subst same
      simp [fresh, at_position, settled]
    · exact others other same
  · rename_i unsettled
    refine ⟨?_, fun other => ?_⟩
    · rw [← List.concat_eq_append]
      exact distinct.concat fresh
    · by_cases same : other = position
      · subst same
        simpa [at_position] using unsettled
      · rw [← others other same, List.mem_append, List.mem_singleton, or_iff_left same]

/-- Taking turns returns, and lowers the parts if any of them waits. -/
theorem turns_return (patience : Nat) (next : List Nat) (rest : AllRest executor I parts)
    (awaits : Awaits parts next) :
    Returns I I (fun limits => Executor.takeTurns (executor.poll limits.depth) patience parts next)
      fun answer => AllRest executor I answer.1 ∧ Awaits answer.1 answer.2 ∧
        ((patience = 0 ∨ next = []) ∧ answer.1 = parts ∨ LessRest executor I answer.1 parts) := by
  induction patience, parts, next using Executor.takeTurns.induct with
  | case1 parts patience position others missing ih =>
    obtain ⟨part, here, _⟩ := (awaits.waits position).1 List.mem_cons_self
    rw [missing] at here
    cases here
  | case2 parts patience position others part found settled waits =>
    obtain ⟨_, here, unsettled⟩ := (awaits.waits position).1 List.mem_cons_self
    rw [found] at here
    cases here
    simp only [Executor.takeTurns, found]
    refine (rest part (List.mem_of_getElem? found)).advances.bind fun after advanced => ?_
    have lowered : Lowered (Asked executor I) (parts.set position after) parts :=
      lowered_set found (advanced.asked unsettled)
    have rests : AllRest executor I (parts.set position after) := fun other member =>
      (List.mem_or_eq_of_mem_set member).elim (rest other) (· ▸ advanced.rests)
    have awaits := awaits.asked after
    have less {nothing : Prop} {answer : List (Completion τ)}
        (fewer : nothing ∧ answer = parts.set position after ∨
          LessRest executor I answer (parts.set position after)) :
        LessRest executor I answer parts :=
      fewer.elim (fun same => same.2 ▸ .single lowered) (·.tail lowered)
    split
    · rename_i done
      rw [if_pos done] at awaits
      exact (settled after rests awaits).mono fun answer ⟨rest, awaits, fewer⟩ =>
        ⟨rest, awaits, .inr (less fewer)⟩
    · rename_i unready
      rw [if_neg unready] at awaits
      exact (waits after rests awaits).mono fun answer ⟨rest, awaits, fewer⟩ =>
        ⟨rest, awaits, .inr (less fewer)⟩
  | case3 patience parts next done =>
    have stops (ask : Completion τ → Exec σ (Completion τ)) :
        Executor.takeTurns ask patience parts next = pure (parts, next) := by
      rw [Executor.takeTurns.eq_def]
      split
      · exact absurd rfl (done _ _ _ rfl)
      · rfl
    simp only [stops]
    refine .pure ⟨rest, awaits, .inl ⟨?_, rfl⟩⟩
    cases patience with
    | zero => exact .inl rfl
    | succ patience =>
      cases next with
      | nil => exact .inr rfl
      | cons position others => exact absurd rfl (done _ _ _ rfl)

theorem Awaits.settled (awaits : Awaits parts []) : ∀ part ∈ parts, part.isSettled = true := by
  intro part member
  obtain ⟨position, here⟩ := List.mem_iff_getElem?.1 member
  by_contra waits
  have unsettled : part.isSettled = false := by simpa using waits
  cases (awaits.waits position).2 ⟨part, here, unsettled⟩

/-- Parts that come to rest do so together. -/
theorem joined_rests (shape : Shape) (rest : AllRest executor I parts) (turns : Turns)
    (awaits : ∀ next, turns = .inTurn next → Awaits parts next) :
    Rests executor I (.joined shape parts turns) := by
  have ends : Acc (LessRest executor I) parts :=
    (acc_lowered fun part member => (rest part member).acc).transGen
  induction ends generalizing turns with
  | intro parts _ ih =>
    have gathers {after : List (Completion τ)} (turns : Turns) (rests : AllRest executor I after)
        (awaits : ∀ next, turns = .inTurn next → Awaits after next)
        (fewer : (∀ part ∈ parts, part.isSettled = true) ∧ after = parts ∨
          LessRest executor I after parts) : Rests executor I (.gather shape after turns) := by
      rcases fewer with ⟨settled, same⟩ | less
      · obtain ⟨outcome, same⟩ := gather_settled shape turns (same ▸ settled)
        rw [same]
        exact .settled outcome
      · rcases gather_cases shape after turns with ⟨outcome, same⟩ | same
        · rw [same]
          exact .settled outcome
        · rw [same]
          exact ih after less rests turns awaits
    refine rests_of_returns (Returns.deeper
      (fun depth => Executor.askParts (executor.poll depth) shape parts turns)
      (executor.poll · _) (fun _ => rfl) ?_)
    cases turns with
    | all =>
      refine (mapM_returns fun part member => (rest part member).advances).bind
        fun after advanced => .pure ?_
      obtain ⟨rests, fewer⟩ := AllRest.advanced advanced
      exact gathers .all rests (fun _ same => by cases same) fewer
    | inTurn next =>
      refine (turns_return _ next rest (awaits next rfl)).bind fun answer taken => .pure ?_
      obtain ⟨after, later⟩ := answer
      obtain ⟨rests, waits, fewer⟩ := taken
      refine gathers (.inTurn later) rests (fun _ same => by cases same; exact waits)
        (fewer.imp_left fun ⟨nobody, same⟩ => ⟨?_, same⟩)
      have empty : next = [] := by
        rcases nobody with none_asked | empty
        · exact List.length_eq_zero_iff.1 (by omega)
        · exact empty
      subst empty
      exact (awaits [] rfl).settled

theorem join_rests (shape : Shape) (rest : AllRest executor I parts) :
    Rests executor I (.join shape parts) := by
  rw [Completion.join]
  rcases gather_cases shape parts (Completion.firstTurns parts) with ⟨outcome, same⟩ | same
  · rw [same]
    exact .settled outcome
  · rw [same]
    refine joined_rests shape rest _ fun next same => ?_
    rcases firstTurns_awaits parts with all | ⟨first, turns, awaits⟩
    · rw [all] at same
      cases same
    · rw [turns] at same
      cases same
      exact awaits

end Joining
end GraphQL.Execution
