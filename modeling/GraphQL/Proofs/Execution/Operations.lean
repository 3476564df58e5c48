import GraphQL.Proofs.Execution.Completing
import GraphQL.Proofs.Execution.Rounds
import GraphQL.Execution.Request

/-! Asking for what a completion waits for: in every round it keeps its promise, whichever of its
parts are asked, and in whichever order. -/
namespace GraphQL.Execution

variable {τ σ : Type}

/-- The place of a piece and what its value has to satisfy. -/
def Piece.frame (piece : Piece τ) : PathSegment × (Value → Prop) := (piece.segment, piece.goal)

/-- Pieces of one joined completion. -/
def AllShielded (plan : Plan τ) (root : ObjectType) (path : Path) (pieces : List (Piece τ)) : Prop :=
  ∀ piece ∈ pieces,
    Shielded plan root piece.goal (path ++ [piece.segment]) piece.completion piece.errors

/-- Pieces after some of them have been asked, with the errors that have been added. -/
structure Advances (plan : Plan τ) (root : ObjectType) (path : Path) (before after : List (Piece τ))
    (more : List ResponseError) : Prop where
  frame : after.map Piece.frame = before.map Piece.frame
  each : AllShielded plan root path after
  errors : (after.flatMap Piece.errors).Perm (before.flatMap Piece.errors ++ more)

/-- Asking a part keeps its promise. -/
def Asks (plan : Plan τ) (root : ObjectType) (I : σ → Prop)
    (ask : Completion τ → Exec σ (Completion τ)) : Prop :=
  ∀ goal path completion errors, Shielded plan root goal path completion errors →
    Ensures I (ask completion) fun after more => Shielded plan root goal path after (errors ++ more)

section Pieces
variable {plan : Plan τ} {root : ObjectType} {I : σ → Prop} {path : Path}
  {before after : List (Piece τ)} {more : List ResponseError}
  {ask : Completion τ → Exec σ (Completion τ)}

theorem Advances.segments (advances : Advances plan root path before after more) :
    after.map Piece.segment = before.map Piece.segment := by
  have same := congrArg (List.map Prod.fst) advances.frame
  rwa [List.map_map, List.map_map] at same

theorem Advances.goals (advances : Advances plan root path before after more) :
    after.map Piece.goal = before.map Piece.goal := by
  have same := congrArg (List.map Prod.snd) advances.frame
  rwa [List.map_map, List.map_map] at same

/-- Pieces of a joined completion, which keep their promises. -/
def pieceLedger (plan : Plan τ) (root : ObjectType) (path : Path) :
    Ledger (Piece τ) (PathSegment × (Value → Prop)) τ where
  frame := Piece.frame
  completion := Piece.completion
  errors := Piece.errors
  good piece := Shielded plan root piece.goal (path ++ [piece.segment]) piece.completion piece.errors

theorem Asks.pieces (asks : Asks plan root I ask) : (pieceLedger plan root path).Asks I ask :=
  fun piece shielded => (asks _ _ _ _ shielded).mono fun completion more shielded =>
    ⟨{ piece with completion, errors := piece.errors ++ more }, rfl, rfl, shielded, rfl⟩

/-- The parts of a joined completion are asked, all or in turn, and put together again. -/
theorem askParts_ensures (asks : Asks plan root I ask) {goal : Value → Prop} {shape : Shape}
    (turns : Turns) (pieces : List (Piece τ)) {errors : List ResponseError}
    (addresses : shape.Addresses (pieces.map Piece.segment))
    (fits : ∀ values, Meet (pieces.map Piece.goal) values → goal (shape.assemble values))
    (each : AllShielded plan root path pieces) (same : errors.Perm (pieces.flatMap Piece.errors)) :
    Ensures I (Executor.askParts ask shape (pieces.map Piece.completion) turns) fun after more =>
      Sound plan root goal path after (errors ++ more) := by
  refine (askParts_moves asks.pieces shape turns each).mono fun answer more asked => ?_
  obtain ⟨after, later, rfl, moved⟩ := asked
  have advances : Advances plan root path pieces after more :=
    ⟨moved.frame, moved.good, moved.errors⟩
  refine gather_sound later (by rwa [advances.segments]) (by rwa [advances.goals]) advances.each ?_
  exact (same.append_right more).trans advances.errors.symm

end Pieces

section Rounds
variable {executor : Executor τ σ} {root : ObjectType} {I : σ → Prop}

/-- A value that was awaited and has come is completed, and asked further. -/
theorem arrived_ensures (keeps : Keeps executor root I) (depth : Nat)
    (polls : ∀ goal path completion errors, Sound executor.plan root goal path completion errors →
      Ensures I (executor.poll depth completion) fun after more =>
        Sound executor.plan root goal path after (errors ++ more))
    {goal : Value → Prop} {path : Path} {site : Site} {type : TypeRef}
    (places : executor.plan.Places root site type)
    (fits : ∀ value, Conforms executor.plan (setsOf site.nodes) type value → goal value) (source : τ) :
    Ensures I (executor.poll (depth + 1) (.awaiting ⟨0, source⟩ site type path))
      (Sound executor.plan root goal path) := by
  rw [Executor.poll]
  refine (ask_ensures (keeps.compute source)).silent fun result _ => ?_
  cases result with
  | error message => exact .pure (failed_sound site message)
  | ok value =>
    refine (complete_ensures keeps depth site type path value places).bind fun completion errors sound => ?_
    exact polls goal path completion errors (sound.mono fits)

/-- A round of asking keeps the promise of a completion. -/
theorem poll_ensures (keeps : Keeps executor root I) (depth : Nat) :
    (∀ goal path completion errors, Sound executor.plan root goal path completion errors →
      Ensures I (executor.poll depth completion) fun after more =>
        Sound executor.plan root goal path after (errors ++ more)) ∧
      Asks executor.plan root I (executor.poll depth) := by
  induction depth with
  | zero => exact ⟨fun _ _ _ _ _ => failure_ensures, fun _ _ _ _ _ => failure_ensures⟩
  | succ depth ih =>
    have polls : ∀ goal path completion errors, Sound executor.plan root goal path completion errors →
        Ensures I (executor.poll (depth + 1) completion) fun after more =>
          Sound executor.plan root goal path after (errors ++ more) := by
      intro goal path completion errors sound
      cases sound with
      | settled settles =>
        refine .pure ?_
        rw [List.append_nil]
        exact .settled settles
      | @awaiting _ _ later site type places fits =>
        obtain ⟨count, source⟩ := later
        cases count with
        | zero => exact arrived_ensures keeps depth ih.1 places fits source
        | succ count => exact .pure (.awaiting places fits)
      | required fits inner =>
        refine (ih.1 _ _ _ _ inner).bind fun after more sound => .pure ?_
        rw [List.append_nil]
        exact require_sound _ sound fits
      | joined addresses fits each same => exact askParts_ensures ih.2 _ _ addresses fits each same
    refine ⟨polls, fun goal path completion errors shielded => ?_⟩
    cases shielded with
    | bare sound => exact (polls goal path completion errors sound).mono fun _ _ => .bare
    | guarded null inner =>
      refine (ih.1 _ _ _ _ inner).bind fun after more sound => ?_
      refine (guard_ensures sound null).mono fun last later shielded => ?_
      rwa [← List.append_assoc]
    | absorbed meets explained =>
      refine .pure ?_
      rw [List.append_nil]
      exact .absorbed meets explained

/-- A completion is settled as it has promised. -/
theorem settle_ensures (keeps : Keeps executor root I) (limits : Limits) {goal : Value → Prop}
    {path : Path} {completion : Completion τ} {errors : List ResponseError}
    (shielded : Shielded executor.plan root goal path completion errors) :
    Ensures I (executor.settle limits completion) fun outcome more =>
      Shielded executor.plan root goal path (.settled outcome) (errors ++ more) :=
  settle_keeps (poll_ensures keeps limits.depth |>.2 goal path) shielded

end Rounds
end GraphQL.Execution

/-! Whole operations: what they answer conforms to their root type, and explains their errors. -/
namespace GraphQL.Execution
open Ast (SelectionSet)

variable {τ σ : Type}

section Serial
variable {executor : Executor τ σ} {root : ObjectType} {I : σ → Prop}

/-- Values at the sites of an object answer it, and explain what its fields have recorded. -/
theorem answers_parts (path : Path) {object : ObjectType} {sets : List SelectionSet}
    {parts : List ((String × Site) × Value × List ResponseError)}
    (sites : parts.map Prod.fst = executor.sites object (executor.plan.collect object sets))
    (each : ∀ part ∈ parts,
      Conforms executor.plan (setsOf part.1.2.nodes) part.1.2.field.type part.2.1 ∧
        Explained (path ++ [.key part.1.1]) part.2.1 part.2.2) :
    Answers executor.plan object sets (parts.map fun part => (part.1.1, part.2.1)) ∧
      Explained path (.object (parts.map fun part => (part.1.1, part.2.1)))
        (parts.flatMap fun part => part.2.2) := by
  have keys : parts.map (fun part => part.1.1) = executor.plan.answered object sets := by
    rw [← keys_sites executor, ← sites, List.map_map]
    rfl
  have entries : (parts.map fun part => (part.1.1, part.2.1)) =
      (executor.plan.answered object sets).zip (parts.map fun part => part.2.1) := by
    rw [← keys, List.zip_map']
  have distinct := answered_nodup executor.plan object sets
  constructor
  · rw [entries]
    refine answers_sites ?_
    rw [← sites, List.forall₂_map_left_iff, List.forall₂_map_right_iff, List.forall₂_same]
    exact fun part inside => (each part inside).1
  · refine Explained.parts (fun part => .key part.1.1) (fun part => part.2.1) ?_
      (fun part inside => (each part inside).2) fun part inside => ?_
    · rw [← keys] at distinct
      have segments := distinct.map fun _ _ same => PathSegment.key.inj same
      rwa [List.map_map] at segments
    · have member : (part.1.1, part.2.1) ∈ parts.map fun part => (part.1.1, part.2.1) :=
        List.mem_map.2 ⟨part, inside, rfl⟩
      rw [Value.at?, Value.get?, Value.object?, Option.bind_some, Entries.get?_of_mem _ member]
      · rfl
      · rw [Entries.keys, List.map_map]
        exact keys ▸ distinct

/-- What fields that are settled one after the other answer, or how the first of them fails. -/
def Serial (executor : Executor τ σ) (sites : List (String × Site)) :
    Except ResponseError (Entries Value) → List ResponseError → Prop
  | .ok entries, errors =>
      ∃ parts : List ((String × Site) × Value × List ResponseError), parts.map Prod.fst = sites ∧
        entries = parts.map (fun part => (part.1.1, part.2.1)) ∧
        errors = (parts.flatMap fun part => part.2.2) ∧ ∀ part ∈ parts,
          Conforms executor.plan (setsOf part.1.2.nodes) part.1.2.field.type part.2.1 ∧
            Explained [.key part.1.1] part.2.1 part.2.2
  | .error error, errors =>
      ∃ parts : List ((String × Site) × List ResponseError), (parts.map Prod.fst).Sublist sites ∧
        (error :: errors).Perm (parts.flatMap Prod.snd) ∧
        ∀ part ∈ parts, Recorded [.key part.1.1] part.2

theorem inTurn_ensures (keeps : Keeps executor root I) (limits : Limits) (parent : ObjectType)
    (source : FieldValue τ) (groups : Groups Ast.Field)
    (resolves : ∀ found ∈ executor.sites parent groups, executor.plan.Resolves root found.2) :
    Ensures I (executor.inTurn limits parent source groups)
      (Serial executor (executor.sites parent groups)) := by
  rw [inTurn_eq]
  generalize executor.sites parent groups = sites at resolves ⊢
  induction sites with
  | nil => exact .pure ⟨[], rfl, rfl, rfl, fun _ member => absurd member List.not_mem_nil⟩
  | cons found rest ih =>
    obtain ⟨key, site⟩ := found
    have first := resolves _ List.mem_cons_self
    have later := ih fun found member => resolves found (List.mem_cons_of_mem _ member)
    rw [Executor.settleInTurn, bind_assoc]
    refine (field_ensures keeps (complete_ensures keeps limits.depth) first [.key key] source).bind
      fun completion errors shielded => ?_
    refine (settle_ensures keeps limits shielded).bind fun outcome more settled => ?_
    cases outcome with
    | error error =>
      refine .pure ⟨[((key, site), error :: (errors ++ more))], ?_, ?_, ?_⟩
      · exact List.singleton_sublist.2 List.mem_cons_self
      · simp
      · intro part member
        rw [List.mem_singleton.1 member]
        exact settled.error
    | ok value =>
      refine later.bind fun result others serial => ?_
      cases result with
      | error error =>
        refine .pure ?_
        obtain ⟨parts, inside, same, each⟩ := serial
        refine ⟨((key, site), errors ++ more) :: parts, inside.cons_cons _, ?_, ?_⟩
        · rw [List.flatMap_cons, List.append_nil]
          have front := (same.append_left (errors ++ more))
          refine .trans ?_ front
          rw [← List.append_assoc]
          exact List.perm_middle.symm
        · intro part member
          rcases List.mem_cons.1 member with rfl | member
          · exact settled.value.2.toRecorded
          · exact each part member
      | ok entries =>
        refine .pure ?_
        obtain ⟨parts, same, rfl, rfl, each⟩ := serial
        refine ⟨((key, site), value, errors ++ more) :: parts, by rw [List.map_cons, same], rfl,
          ?_, ?_⟩
        · simp
        · intro part member
          rcases List.mem_cons.1 member with rfl | member
          · exact settled.value
          · exact each part member

end Serial

section Operations
variable {executor : Executor τ σ} {root : ObjectType} {I : σ → Prop}

/-- The data of an operation answers its selection set. -/
def RootGoal (plan : Plan τ) (root : ObjectType) (data : Value) : Prop :=
  ∃ entries, data = .object entries ∧ Answers plan root [plan.operation.selectionSet] entries

theorem mutation_ensures (keeps : Keeps executor root I) (limits : Limits) :
    Ensures I (executor.inTurn limits root executor.plan.root
        (executor.plan.collect root [executor.plan.operation.selectionSet]))
      fun result errors => Shielded executor.plan root (RootGoal executor.plan root) []
        (.settled (result.map Value.object)) errors := by
  refine (inTurn_ensures keeps limits root executor.plan.root _ fun found member =>
    resolves_of_mem .root member).mono fun result errors serial => ?_
  cases result with
  | error error =>
    obtain ⟨parts, inside, same, each⟩ := serial
    have distinct := answered_nodup executor.plan root [executor.plan.operation.selectionSet]
    rw [← keys_sites executor] at distinct
    have segments := ((inside.map Prod.fst).nodup distinct).map fun _ _ same => PathSegment.key.inj same
    rw [List.map_map, List.map_map] at segments
    have recorded : Recorded [] (parts.flatMap Prod.snd) :=
      .parts (fun part => .key part.1.1) segments each
    exact .bare (.settled (recorded.perm same))
  | ok entries =>
    obtain ⟨parts, sites, rfl, rfl, each⟩ := serial
    obtain ⟨answers, explained⟩ := answers_parts [] sites each
    exact .absorbed ⟨_, rfl, answers⟩ explained

/-- The outcome of an operation. -/
theorem operation_ensures (keeps : Keeps executor root I) (limits : Limits) :
    Ensures I (executor.operation limits root) fun outcome errors =>
      Shielded executor.plan root (RootGoal executor.plan root) [] (.settled outcome) errors := by
  have parallel : Ensures I (executor.object (executor.complete limits.depth) root []
      executor.plan.root (executor.plan.collect root [executor.plan.operation.selectionSet]) >>=
        executor.settle limits) fun outcome errors =>
      Shielded executor.plan root (RootGoal executor.plan root) [] (.settled outcome) errors :=
    (object_ensures keeps (complete_ensures keeps limits.depth) .root
      (fun entries answers => ⟨entries, rfl, answers⟩) [] executor.plan.root).bind
        fun completion errors sound => settle_ensures keeps limits (.bare sound)
  rw [Executor.operation]
  cases executor.plan.operation.operation with
  | mutation =>
    refine (mutation_ensures keeps limits).bind fun result errors shielded => .pure ?_
    rwa [List.append_nil]
  | query => exact parallel
  | subscription => exact parallel

end Operations
end GraphQL.Execution
