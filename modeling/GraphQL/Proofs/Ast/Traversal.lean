import GraphQL.Proofs.Validation.Surroundings

/-! Walks beside whole traversals. A whole traversal enters and leaves every node below its root; a
walk makes the calls of it that are not left out behind a skip or a stop. -/
namespace GraphQL.Ast
open Validation (Linked tree_root tree_eta ofNode_part part_of_child calls_linked callsAll_below)

theorem sizeOf_child {node child : Node} (member : child ∈ node.children) :
    sizeOf child.tree < sizeOf node.tree := by
  have part := List.sizeOf_lt_of_mem (part_of_child member)
  rw [tree_eta node, Tree.node.sizeOf_spec]
  omega

/-- The calls of a whole depth-first traversal: a node is entered, its children are traversed in
their order, and it is left. -/
def Node.traversal (ancestors : List Node) (node : Node) : List Call :=
  ⟨false, node, ancestors⟩ ::
    (node.children.attach.flatMap (fun child => child.1.traversal (node :: ancestors)) ++
      [⟨true, node, ancestors⟩])
termination_by sizeOf node.tree
decreasing_by exact sizeOf_child child.2

theorem parts_eq (node : Node) : node.tree.parts = node.children.map Node.tree := by
  rw [Node.children, List.map_map]
  refine (List.map_id _).symm.trans (List.map_congr_left fun tree member => ?_)
  obtain ⟨child, rfl⟩ := ofNode_part node member
  rw [Function.comp_apply, tree_root, id]

theorem Tree.callsAll_eq (ancestors : List Node) (trees : List Tree) :
    Tree.callsAll ancestors trees = trees.flatMap (Tree.calls ancestors) := by
  induction trees with
  | nil => rfl
  | cons tree rest ih => rw [Tree.callsAll, ih, List.flatMap_cons]

theorem traversal_eq (ancestors : List Node) (node : Node) :
    node.traversal ancestors = node.tree.calls ancestors := by
  have children (child : {child // child ∈ node.children}) :
      child.1.traversal (node :: ancestors) = child.1.tree.calls (node :: ancestors) :=
    traversal_eq (node :: ancestors) child.1
  rw [Node.traversal, tree_eta, Tree.calls, Tree.callsAll_eq, parts_eq, List.flatMap_map]
  simp only [children, List.flatMap_subtype, List.unattach_attach]
termination_by sizeOf node.tree
decreasing_by exact sizeOf_child child.2

/-- The leave of the node that a call enters. -/
def Call.closing (call : Call) : Call := { call with leaving := true }

/-- The second of two calls leaves the node that the first one enters: no call between them does. -/
def Closes (calls : List Call) (i j : Nat) : Prop :=
  ∃ call, calls[i]? = some call ∧ call.leaving = false ∧ i < j ∧ calls[j]? = some call.closing ∧
    ∀ k, i < k → k < j → calls[k]? ≠ some call.closing

/-- Each node that is entered is left further on. -/
def Balanced : List Call → Prop
  | [] => True
  | call :: later => (call.leaving = false → call.closing ∈ later) ∧ Balanced later

section Balanced
variable {calls others : List Call} {call : Call} {i : Nat}

theorem Balanced.append (first : Balanced calls) (second : Balanced others) :
    Balanced (calls ++ others) := by
  induction calls with
  | nil => exact second
  | cons call calls ih =>
    exact ⟨fun entering => List.mem_append_left _ (first.1 entering), ih first.2⟩

mutual

theorem Tree.calls_balanced (ancestors : List Node) : (tree : Tree) → Balanced (tree.calls ancestors)
  | node root parts => by
    have inner := Tree.callsAll_balanced (root :: ancestors) parts
    have last : Balanced [⟨true, root, ancestors⟩] := ⟨nofun, trivial⟩
    exact ⟨fun _ => List.mem_append_right _ (List.mem_singleton.2 rfl), inner.append last⟩

theorem Tree.callsAll_balanced (ancestors : List Node) :
    (trees : List Tree) → Balanced (Tree.callsAll ancestors trees)
  | [] => trivial
  | tree :: rest => (Tree.calls_balanced ancestors tree).append (Tree.callsAll_balanced ancestors rest)

end

theorem Balanced.left_later (balanced : Balanced calls) (found : calls[i]? = some call)
    (entering : call.leaving = false) : ∃ j, i < j ∧ calls[j]? = some call.closing := by
  induction calls generalizing i with
  | nil => cases found
  | cons first calls ih =>
    cases i with
    | zero =>
      cases found
      obtain ⟨j, found⟩ := List.mem_iff_getElem?.1 (balanced.1 entering)
      exact ⟨j + 1, Nat.succ_pos j, found⟩
    | succ i =>
      obtain ⟨j, later, found⟩ := ih balanced.2 found
      exact ⟨j + 1, Nat.succ_lt_succ later, found⟩

theorem Balanced.closes (balanced : Balanced calls) (found : calls[i]? = some call)
    (entering : call.leaving = false) : ∃ j, Closes calls i j := by
  classical
  have exists_leave := balanced.left_later found entering
  obtain ⟨later, left⟩ := Nat.find_spec exists_leave
  exact ⟨Nat.find exists_leave, call, found, entering, later, left,
    fun k behind before again => Nat.find_min exists_leave before ⟨behind, again⟩⟩

end Balanced

/-- What becomes of a call of a traversal: the answer to it, if it is made. -/
structure Mark where
  call : Call
  answer : Option Action

/-- The calls that are made, with their answers. -/
def made (marks : List Mark) : List (Call × Action) :=
  marks.filterMap fun mark => mark.answer.map (mark.call, ·)

/-- The place comes after a stop, or after a skip and up to the leave of the node that is skipped. -/
def LeftOut (marks : List Mark) (k : Nat) : Prop :=
  (∃ i call, i < k ∧ marks[i]? = some ⟨call, some .stop⟩) ∨
    ∃ i j call, marks[i]? = some ⟨call, some .skip⟩ ∧ Closes (marks.map Mark.call) i j ∧ i < k ∧ k ≤ j

section Visitor
variable {σ τ : Type}

/-- A call that is recorded with its answer. -/
def Call.recorded (call : Call) (reply : StateM σ Action) : StateM (σ × List (Call × Action)) Action :=
  fun (state, log) =>
    let (answer, next) := reply state
    (answer, next, log ++ [(call, answer)])

/-- The visitor with a record of the calls that it gets and of its answers. -/
def Visitor.recorded (visitor : Visitor σ) : Visitor (σ × List (Call × Action)) where
  enter node ancestors := Call.recorded ⟨false, node, ancestors⟩ (visitor.enter node ancestors)
  leave node ancestors := Call.recorded ⟨true, node, ancestors⟩ (visitor.leave node ancestors)

/-- The calls that a walk makes, with their answers. -/
def Node.callbacks (visitor : Visitor σ) (root : Node) (state : σ) : List (Call × Action) :=
  (root.walk visitor.recorded (state, [])).2.2

/-- The answer of a visitor that goes on where it would skip. -/
def Action.unskipped : Action → Action
  | .skip => .proceed
  | answer => answer

/-- The visitor with its skips on leaving taken back. -/
def Visitor.unskipping (visitor : Visitor σ) : Visitor σ where
  enter := visitor.enter
  leave node ancestors := Action.unskipped <$> visitor.leave node ancestors

/-- Two visitors give answers to the same effect, from states that stay related. -/
structure Visitor.Mimics (visitor : Visitor σ) (other : Visitor τ) (related : σ → τ → Prop) :
    Prop where
  enter : ∀ node ancestors state second, related state second →
    (visitor.enter node ancestors state).1 = (other.enter node ancestors second).1 ∧
      related (visitor.enter node ancestors state).2 (other.enter node ancestors second).2
  leave : ∀ node ancestors state second, related state second →
    ((visitor.leave node ancestors state).1 != .stop) =
        ((other.leave node ancestors second).1 != .stop) ∧
      related (visitor.leave node ancestors state).2 (other.leave node ancestors second).2

section Mimics
variable {visitor : Visitor σ} {other : Visitor τ} {related : σ → τ → Prop}

mutual

theorem Tree.walk_mimics (mimics : visitor.Mimics other related) (ancestors : List Node)
    (state : σ) (second : τ) (start : related state second) : (tree : Tree) →
    (tree.walk visitor ancestors state).1 = (tree.walk other ancestors second).1 ∧
      related (tree.walk visitor ancestors state).2 (tree.walk other ancestors second).2
  | node root parts => by
    obtain ⟨same, entered⟩ := mimics.enter root ancestors state second start
    obtain ⟨sameEnd, ended⟩ := Tree.walkAll_mimics mimics (root :: ancestors) _ _ entered parts
    rw [Tree.walk, Tree.walk, state_bind, state_bind, ← same]
    cases (visitor.enter root ancestors state).1 with
    | stop => exact ⟨rfl, entered⟩
    | skip => exact ⟨rfl, entered⟩
    | proceed =>
      dsimp only
      rw [state_bind, state_bind, ← sameEnd]
      split
      · exact mimics.leave root ancestors _ _ ended
      · exact ⟨rfl, ended⟩

theorem Tree.walkAll_mimics (mimics : visitor.Mimics other related) (ancestors : List Node)
    (state : σ) (second : τ) (start : related state second) : (trees : List Tree) →
    (Tree.walkAll visitor ancestors trees state).1 =
        (Tree.walkAll other ancestors trees second).1 ∧
      related (Tree.walkAll visitor ancestors trees state).2
        (Tree.walkAll other ancestors trees second).2
  | [] => ⟨rfl, start⟩
  | tree :: rest => by
    obtain ⟨same, walked⟩ := Tree.walk_mimics mimics ancestors state second start tree
    rw [Tree.walkAll, Tree.walkAll, state_bind, state_bind, ← same]
    split
    · exact Tree.walkAll_mimics mimics ancestors _ _ walked rest
    · exact ⟨rfl, walked⟩

end

end Mimics

theorem recorded_mimics (visitor : Visitor σ) :
    visitor.recorded.Mimics visitor fun recorded state => recorded.1 = state := by
  constructor
  · rintro node ancestors ⟨state, log⟩ _ rfl
    exact ⟨rfl, rfl⟩
  · rintro node ancestors ⟨state, log⟩ _ rfl
    exact ⟨rfl, rfl⟩

theorem unskipped_goesOn (answer : Action) : (answer.unskipped != .stop) = (answer != .stop) := by
  cases answer <;> rfl

theorem recorded_reply {call : Call} {reply : StateM σ Action} {state next : σ} {answer : Action}
    {log : List (Call × Action)} (replied : reply state = (answer, next)) :
    call.recorded reply (state, log) = (answer, next, log ++ [(call, answer)]) := by
  rw [Call.recorded, replied]

theorem recorded_calls (call : Call) (reply : StateM σ Action) (recorded : σ × List (Call × Action)) :
    (call.recorded reply recorded).2.2.map Prod.fst = recorded.2.map Prod.fst ++ [call] :=
  List.map_append

theorem unskipping_mimics (visitor : Visitor σ) :
    visitor.unskipping.recorded.Mimics visitor.recorded fun first second =>
      first.1 = second.1 ∧ first.2.map Prod.fst = second.2.map Prod.fst := by
  constructor
  · rintro node ancestors ⟨state, log⟩ ⟨_, other⟩ ⟨rfl, same⟩
    refine ⟨rfl, rfl, (recorded_calls ..).trans (.trans ?_ (recorded_calls ..).symm)⟩
    exact congrArg (· ++ _) same
  · rintro node ancestors ⟨state, log⟩ ⟨_, other⟩ ⟨rfl, same⟩
    refine ⟨unskipped_goesOn _, rfl, (recorded_calls ..).trans (.trans ?_ (recorded_calls ..).symm)⟩
    exact congrArg (· ++ _) same

end Visitor

/-- The call has been answered with a skip and its node has not been left since. The marks before
come last first. -/
inductive Skipping (call : Call) : List Mark → Prop
  | opened (before : List Mark) : call.leaving = false → Skipping call (⟨call, some .skip⟩ :: before)
  | later {mark : Mark} {before : List Mark} : Skipping call before → mark.call ≠ call.closing →
      Skipping call (mark :: before)

def Stopped (marks : List Mark) : Prop := ∃ call, ⟨call, some .stop⟩ ∈ marks

/-- No call is made behind these marks. -/
def Silenced (before : List Mark) : Prop := Stopped before ∨ ∃ call, Skipping call before

/-- Calls are made just where the marks before them let them. -/
def Heeds : (before : List Mark) → List Mark → Prop
  | _, [] => True
  | before, mark :: rest => (mark.answer = none ↔ Silenced before) ∧ Heeds (mark :: before) rest

/-- The marks that a walk makes of the calls of a traversal, behind others, and whether it goes on. -/
structure Marked (before : List Mark) (calls : List Call) (marks : List Mark) (onward : Bool) :
    Prop where
  calls : marks.map Mark.call = calls
  heeds : Heeds before marks
  goesOn : onward = true → ¬ Silenced (marks.reverse ++ before)
  stopped : onward = false → Stopped marks

section Marks
variable {before first second marks : List Mark} {calls others : List Call} {call other : Call}
  {answer : Action} {onward : Bool}

theorem heeds_append :
    Heeds before (first ++ second) ↔ Heeds before first ∧ Heeds (first.reverse ++ before) second := by
  induction first generalizing before with
  | nil => simp [Heeds]
  | cons mark first ih => simp [Heeds, ih, and_assoc]

theorem made_append : made (first ++ second) = made first ++ made second := List.filterMap_append

theorem made_answered : made (marks ++ [⟨call, some answer⟩]) = made marks ++ [(call, answer)] :=
  made_append

theorem Stopped.append (stopped : Stopped first) : Stopped (second ++ first) := by
  obtain ⟨call, member⟩ := stopped
  exact ⟨call, List.mem_append_right _ member⟩

theorem not_silenced_made (loud : ¬ Silenced before) (goesOn : answer ≠ .stop)
    (enters : answer = .skip → call.leaving = true) :
    ¬ Silenced (⟨call, some answer⟩ :: before) := by
  rintro (⟨stop, member⟩ | ⟨skip, skipping⟩)
  · rcases List.mem_cons.1 member with same | member
    · cases same
      exact goesOn rfl
    · exact loud (.inl ⟨stop, member⟩)
  · cases skipping with
    | opened _ entering => exact absurd (enters rfl) (by simp [entering])
    | later skipping _ => exact loud (.inr ⟨skip, skipping⟩)

/-- Calls that are not made. -/
def unmade (calls : List Call) : List Mark := calls.map fun call => ⟨call, none⟩

theorem calls_unmade (calls : List Call) : (unmade calls).map Mark.call = calls := by
  rw [unmade, List.map_map]
  exact List.map_id _

theorem made_unmade : made (marks ++ unmade calls) = made marks := by
  simp [made, unmade]

theorem Stopped.heeds (stopped : Stopped before) : Heeds before (unmade calls) := by
  induction calls generalizing before with
  | nil => trivial
  | cons call calls ih =>
    obtain ⟨stop, member⟩ := stopped
    exact ⟨iff_of_true rfl (.inl ⟨stop, member⟩), ih ⟨stop, List.mem_cons_of_mem _ member⟩⟩

theorem stopped_unmade (stopped : Stopped ((unmade calls).reverse ++ before)) : Stopped before := by
  obtain ⟨stop, member⟩ := stopped
  rcases List.mem_append.1 member with member | member
  · simp [unmade] at member
  · exact ⟨stop, member⟩

theorem skipping_cons {mark : Mark} : Skipping call (mark :: before) ↔
    mark = ⟨call, some .skip⟩ ∧ call.leaving = false ∨
      Skipping call before ∧ mark.call ≠ call.closing := by
  constructor
  · rintro (⟨_, entering⟩ | ⟨skipping, apart⟩)
    · exact .inl ⟨rfl, entering⟩
    · exact .inr ⟨skipping, apart⟩
  · rintro (⟨rfl, entering⟩ | ⟨skipping, apart⟩)
    · exact .opened before entering
    · exact .later skipping apart

theorem skipping_unmade : Skipping call ((unmade calls).reverse ++ before) ↔
    Skipping call before ∧ call.closing ∉ calls := by
  induction calls generalizing before with
  | nil => simp [unmade]
  | cons other calls ih =>
    have behind : (unmade (other :: calls)).reverse ++ before =
        (unmade calls).reverse ++ ⟨other, none⟩ :: before := by simp [unmade]
    rw [behind, ih, skipping_cons, List.mem_cons, not_or, ← and_assoc, ne_comm]
    simp

theorem Skipping.heeds (skipping : Skipping call before) (apart : call.closing ∉ calls) :
    Heeds before (unmade calls) := by
  induction calls generalizing before with
  | nil => trivial
  | cons other calls ih =>
    rw [List.mem_cons, not_or] at apart
    exact ⟨iff_of_true rfl (.inr ⟨call, skipping⟩), ih (skipping.later (Ne.symm apart.1)) apart.2⟩

theorem Marked.nil (loud : ¬ Silenced before) : Marked before [] [] true :=
  ⟨rfl, trivial, fun _ => loud, nofun⟩

theorem Marked.append (here : Marked before calls first true)
    (behind : Marked (first.reverse ++ before) others second onward) :
    Marked before (calls ++ others) (first ++ second) onward where
  calls := by rw [List.map_append, here.calls, behind.calls]
  heeds := heeds_append.2 ⟨here.heeds, behind.heeds⟩
  goesOn on := by
    rw [List.reverse_append, List.append_assoc]
    exact behind.goesOn on
  stopped off := (behind.stopped off).append

theorem Marked.halt (here : Marked before calls first false) (others : List Call) :
    Marked before (calls ++ others) (first ++ unmade others) false where
  calls := by rw [List.map_append, here.calls, calls_unmade]
  heeds := by
    obtain ⟨stop, member⟩ := here.stopped rfl
    have stopped : Stopped (first.reverse ++ before) :=
      ⟨stop, List.mem_append_left _ (List.mem_reverse.2 member)⟩
    exact heeds_append.2 ⟨here.heeds, stopped.heeds⟩
  goesOn := nofun
  stopped _ := by
    obtain ⟨stop, member⟩ := here.stopped rfl
    exact ⟨stop, List.mem_append_left _ member⟩

theorem Marked.answered (loud : ¬ Silenced before) (call : Call) (answer : Action)
    (enters : answer = .skip → call.leaving = true) :
    Marked before [call] [⟨call, some answer⟩] (answer != .stop) where
  calls := rfl
  heeds := ⟨iff_of_false nofun loud, trivial⟩
  goesOn on := not_silenced_made loud (bne_iff_ne.1 on) enters
  stopped off := ⟨call, by simp [bne_eq_false_iff_eq.1 off]⟩

/-- A skip leaves out what stands up to the leave, and that too. -/
theorem Marked.skipped (loud : ¬ Silenced before) (entering : call.leaving = false)
    (apart : call.closing ∉ calls) :
    Marked before (call :: (calls ++ [call.closing]))
      ([⟨call, some .skip⟩] ++ unmade (calls ++ [call.closing])) true where
  calls := by rw [List.map_append, calls_unmade]; rfl
  heeds := by
    have skipping : Skipping call (⟨call, some .skip⟩ :: before) := .opened before entering
    have still := skipping_unmade.2 ⟨skipping, apart⟩
    have opening : Heeds before [⟨call, some .skip⟩] := ⟨iff_of_false nofun loud, trivial⟩
    have closing : Heeds ((unmade calls).reverse ++ ⟨call, some .skip⟩ :: before)
        (unmade [call.closing]) := ⟨iff_of_true rfl (.inr ⟨call, still⟩), trivial⟩
    rw [unmade, List.map_append]
    exact heeds_append.2 ⟨opening, heeds_append.2 ⟨skipping.heeds apart, closing⟩⟩
  goesOn _ := by
    rw [List.reverse_append, List.append_assoc]
    rintro (stopped | ⟨other, skipping⟩)
    · obtain ⟨stop, member⟩ := stopped_unmade stopped
      rcases List.mem_cons.1 member with same | member
      · cases same
      · exact loud (.inl ⟨stop, member⟩)
    · obtain ⟨skipping, unclosed⟩ := skipping_unmade.1 skipping
      cases skipping with
      | opened => exact unclosed (by simp)
      | later skipping _ => exact loud (.inr ⟨other, skipping⟩)
  stopped := nofun

end Marks

section Walk

theorem closing_apart (root : Node) (ancestors : List Node) (parts : List Tree) :
    Call.closing ⟨false, root, ancestors⟩ ∉ Tree.callsAll (root :: ancestors) parts := by
  intro member
  exact Nat.not_succ_le_self _ (callsAll_below (root :: ancestors) parts _ member)

variable {σ : Type} {visitor : Visitor σ}

mutual

/-- A walk marks the calls of the traversal and makes those that are marked with answers. -/
theorem Tree.walk_marked {before : List Mark} (loud : ¬ Silenced before) (ancestors : List Node)
    (state : σ) (log : List (Call × Action)) : (tree : Tree) → ∃ marks next onward,
      tree.walk visitor.recorded ancestors (state, log) = (onward, next, log ++ made marks) ∧
        Marked before (tree.calls ancestors) marks onward
  | node root parts => by
    -- What has been marked is `before` for what follows. It stays without a stop and without an
    -- open skip as long as the walk goes on.
    let entering : Call := ⟨false, root, ancestors⟩
    rcases reply : visitor.enter root ancestors state with ⟨answer, next⟩
    have entered : visitor.recorded.enter root ancestors (state, log) =
        (answer, next, log ++ made [⟨entering, some answer⟩]) := recorded_reply reply
    rw [Tree.walk, state_bind, entered, Tree.calls]
    cases answer with
    | stop =>
      have marked := (Marked.answered loud entering .stop nofun).halt
        (Tree.callsAll (root :: ancestors) parts ++ [⟨true, root, ancestors⟩])
      refine ⟨_, next, false, ?_, marked⟩
      rw [made_unmade]
      rfl
    | skip =>
      have marked := Marked.skipped loud (rfl : entering.leaving = false)
        (closing_apart root ancestors parts)
      refine ⟨_, next, true, ?_, marked⟩
      rw [made_unmade]
      rfl
    | proceed =>
      have opened := Marked.answered loud entering .proceed nofun
      obtain ⟨inner, later, onward, walked, within⟩ := Tree.walkAll_marked (opened.goesOn rfl)
        (root :: ancestors) next (log ++ made [⟨entering, some .proceed⟩]) parts
      rw [List.append_assoc, ← made_append] at walked
      dsimp only
      rw [state_bind, walked]
      cases onward with
      | false =>
        refine ⟨_, later, false, ?_, (opened.append within).halt [⟨true, root, ancestors⟩]⟩
        rw [made_unmade]
        rfl
      | true =>
        rcases reply : visitor.leave root ancestors later with ⟨answer, last⟩
        have closed := Marked.answered ((opened.append within).goesOn rfl) ⟨true, root, ancestors⟩
          answer (fun _ => rfl)
        refine ⟨_, last, answer != .stop, ?_, (opened.append within).append closed⟩
        rw [made_answered, ← List.append_assoc, if_pos rfl, state_bind]
        dsimp only [Visitor.recorded]
        rw [recorded_reply reply]
        rfl

theorem Tree.walkAll_marked {before : List Mark} (loud : ¬ Silenced before) (ancestors : List Node)
    (state : σ) (log : List (Call × Action)) : (trees : List Tree) → ∃ marks next onward,
      Tree.walkAll visitor.recorded ancestors trees (state, log) =
          (onward, next, log ++ made marks) ∧
        Marked before (Tree.callsAll ancestors trees) marks onward
  | [] => ⟨[], state, true, by rw [made, List.filterMap_nil, List.append_nil]; rfl, .nil loud⟩
  | tree :: rest => by
    obtain ⟨marks, next, onward, walked, marked⟩ := Tree.walk_marked loud ancestors state log tree
    rw [Tree.walkAll, state_bind, walked, Tree.callsAll]
    cases onward with
    | true =>
      obtain ⟨more, last, onward, others, behind⟩ :=
        Tree.walkAll_marked (marked.goesOn rfl) ancestors next (log ++ made marks) rest
      refine ⟨marks ++ more, last, onward, ?_, marked.append behind⟩
      rw [made_append, ← List.append_assoc]
      exact others
    | false =>
      refine ⟨_, next, false, ?_, marked.halt (Tree.callsAll ancestors rest)⟩
      rw [made_unmade]
      rfl

end

end Walk

section Places
variable {before marks : List Mark} {mark : Mark} {call : Call} {k : Nat}

theorem Heeds.answered_iff (heeds : Heeds before marks) (found : marks[k]? = some mark) :
    mark.answer = none ↔ Silenced ((marks.take k).reverse ++ before) := by
  induction marks generalizing before k with
  | nil => cases found
  | cons first marks ih =>
    cases k with
    | zero =>
      cases found
      exact heeds.1
    | succ k =>
      rw [List.take_succ_cons, List.reverse_cons, List.append_assoc]
      exact ih heeds.2 found

theorem stopped_take : Stopped (marks.take k).reverse ↔
    ∃ i call, i < k ∧ marks[i]? = some ⟨call, some .stop⟩ := by
  constructor
  · rintro ⟨call, member⟩
    obtain ⟨i, found⟩ := List.mem_iff_getElem?.1 (List.mem_reverse.1 member)
    rw [List.getElem?_take] at found
    split at found
    · next within => exact ⟨i, call, within, found⟩
    · cases found
  · rintro ⟨i, call, within, found⟩
    refine ⟨call, List.mem_reverse.2 (List.mem_iff_getElem?.2 ⟨i, ?_⟩)⟩
    rw [List.getElem?_take, if_pos within, found]

theorem skipping_take (within : k ≤ marks.length) : Skipping call (marks.take k).reverse ↔
    ∃ i, i < k ∧ marks[i]? = some ⟨call, some .skip⟩ ∧ call.leaving = false ∧
      ∀ m, i < m → m < k → (marks.map Mark.call)[m]? ≠ some call.closing := by
  induction k with
  | zero => exact ⟨nofun, fun ⟨_, within, _⟩ => absurd within (Nat.not_lt_zero _)⟩
  | succ k ih =>
    have here : marks[k]? = some marks[k] := List.getElem?_eq_getElem within
    have hereCall : (marks.map Mark.call)[k]? = some marks[k].call := by
      rw [List.getElem?_map, here, Option.map_some]
    rw [List.take_succ_eq_append_getElem within, List.reverse_append, List.reverse_singleton,
      List.singleton_append, skipping_cons, ih (Nat.le_of_succ_le within)]
    constructor
    · rintro (⟨same, entering⟩ | ⟨⟨i, before, found, entering, unclosed⟩, apart⟩)
      · exact ⟨k, Nat.lt_succ_self k, here.trans (congrArg some same), entering,
          fun m behind before => by omega⟩
      · refine ⟨i, Nat.lt_succ_of_lt before, found, entering, fun m behind upto => ?_⟩
        rcases Nat.lt_succ_iff_lt_or_eq.1 upto with earlier | rfl
        · exact unclosed m behind earlier
        · rw [hereCall]
          exact fun same => apart (Option.some.inj same)
    · rintro ⟨i, before, found, entering, unclosed⟩
      rcases Nat.lt_succ_iff_lt_or_eq.1 before with earlier | rfl
      · refine .inr ⟨⟨i, earlier, found, entering, fun m behind before =>
          unclosed m behind (Nat.lt_succ_of_lt before)⟩, fun same => ?_⟩
        exact unclosed k earlier (Nat.lt_succ_self k) (hereCall.trans (congrArg some same))
      · exact .inl ⟨Option.some.inj (here.symm.trans found), entering⟩

/-- Calls are left out behind a stop, and from a skip to the leave of its node. -/
theorem silenced_take (balanced : Balanced (marks.map Mark.call)) (within : k < marks.length) :
    Silenced (marks.take k).reverse ↔ LeftOut marks k := by
  refine or_congr stopped_take ⟨?_, ?_⟩
  · rintro ⟨call, skipping⟩
    obtain ⟨i, before, found, entering, unclosed⟩ := (skipping_take within.le).1 skipping
    have enters : (marks.map Mark.call)[i]? = some call := by
      rw [List.getElem?_map, found, Option.map_some]
    obtain ⟨j, closes⟩ := balanced.closes enters entering
    refine ⟨i, j, call, found, closes, before, ?_⟩
    obtain ⟨other, same, -, behind, left, -⟩ := closes
    cases Option.some.inj (enters.symm.trans same)
    by_contra early
    exact unclosed j behind (Nat.lt_of_not_le early) left
  · rintro ⟨i, j, call, found, ⟨other, same, entering, behind, left, first⟩, before, upto⟩
    rw [List.getElem?_map, found, Option.map_some] at same
    cases Option.some.inj same
    exact ⟨call, (skipping_take within.le).2 ⟨i, before, found, entering,
      fun m after earlier => first m after (Nat.lt_of_lt_of_le earlier upto)⟩⟩

end Places

section Walks
variable {σ : Type}

theorem walk_recorded (visitor : Visitor σ) (root : Node) (state : σ) :
    root.walk visitor.recorded (state, []) =
      ((root.walk visitor state).1, (root.walk visitor state).2, root.callbacks visitor state) := by
  obtain ⟨same, final⟩ := Tree.walk_mimics (recorded_mimics visitor) [] (state, []) state rfl root.tree
  exact Prod.ext same (Prod.ext final rfl)

theorem walk_unskipping (visitor : Visitor σ) (root : Node) (state : σ) :
    root.walk visitor.unskipping state = root.walk visitor state ∧
      (root.callbacks visitor.unskipping state).map Prod.fst =
        (root.callbacks visitor state).map Prod.fst := by
  obtain ⟨same, final, calls⟩ := Tree.walk_mimics (unskipping_mimics visitor) [] (state, [])
    (state, []) ⟨rfl, rfl⟩ root.tree
  change (root.walk visitor.unskipping.recorded (state, [])).1 =
    (root.walk visitor.recorded (state, [])).1 at same
  change (root.walk visitor.unskipping.recorded (state, [])).2.1 =
    (root.walk visitor.recorded (state, [])).2.1 at final
  rw [walk_recorded, walk_recorded] at same final
  exact ⟨Prod.ext same final, calls⟩

theorem mem_made {marks : List Mark} {call : Call} {answer : Action} :
    (call, answer) ∈ made marks ↔ ⟨call, some answer⟩ ∈ marks := by
  rw [made, List.mem_filterMap]
  constructor
  · rintro ⟨⟨other, answered⟩, member, found⟩
    obtain ⟨_, rfl, same⟩ := Option.map_eq_some_iff.1 found
    cases same
    exact member
  · exact fun member => ⟨_, member, rfl⟩

theorem walk_marks (visitor : Visitor σ) (root : Node) (state : σ) : ∃ marks,
    made marks = root.callbacks visitor state ∧
      Marked [] (root.traversal []) marks (root.walk visitor state).1 := by
  have loud : ¬ Silenced [] := by
    rintro (⟨stop, member⟩ | ⟨skip, skipping⟩)
    · cases member
    · cases skipping
  obtain ⟨marks, next, onward, walked, marked⟩ := Tree.walk_marked loud [] state [] root.tree
  have whole := (walk_recorded visitor root state).symm.trans walked
  cases congrArg Prod.fst whole
  rw [traversal_eq]
  exact ⟨marks, (congrArg (·.2.2) whole).symm, marked⟩

/-- A walk is the whole traversal without what the visitor's answers leave out: what comes after a skip
on entering a node, up to the leave of that node, and what comes after the first stop. It ends early
just if there is a stop, and a skip on leaving a node changes nothing. -/
theorem walk_cuts (visitor : Visitor σ) (root : Node) (state : σ) :
    root.walk visitor.recorded (state, []) =
        ((root.walk visitor state).1, (root.walk visitor state).2, root.callbacks visitor state) ∧
    (∃ marks, marks.map Mark.call = root.traversal [] ∧ made marks = root.callbacks visitor state ∧
      ∀ k mark, marks[k]? = some mark → (mark.answer = none ↔ LeftOut marks k)) ∧
    (∀ i call, (root.traversal [])[i]? = some call → call.leaving = false →
      ∃ j, Closes (root.traversal []) i j) ∧
    (∀ callback ∈ root.callbacks visitor state,
      Linked root (callback.1.node :: callback.1.ancestors)) ∧
    (root.walk visitor.unskipping state = root.walk visitor state ∧
      (root.callbacks visitor.unskipping state).map Prod.fst =
        (root.callbacks visitor state).map Prod.fst) ∧
    ((root.walk visitor state).1 = false ↔
      ∃ call, (call, .stop) ∈ root.callbacks visitor state) := by
  obtain ⟨marks, callbacks, marked⟩ := walk_marks visitor root state
  have balanced : Balanced (root.traversal []) := by
    rw [traversal_eq]
    exact Tree.calls_balanced [] root.tree
  refine ⟨walk_recorded visitor root state, ⟨marks, marked.calls, callbacks, fun k mark found => ?_⟩,
    fun i call found entering => balanced.closes found entering, ?_,
    walk_unskipping visitor root state, ?_⟩
  · have answered := marked.heeds.answered_iff found
    rw [List.append_nil] at answered
    rw [answered]
    exact silenced_take (marked.calls ▸ balanced) (List.getElem?_eq_some_iff.1 found).1
  · rintro ⟨call, answer⟩ member
    rw [← callbacks, mem_made] at member
    have met : call ∈ root.traversal [] := marked.calls ▸ List.mem_map_of_mem member
    rw [traversal_eq] at met
    exact calls_linked [] root.tree root rfl .root call met
  · rw [← callbacks]
    simp only [mem_made]
    constructor
    · exact marked.stopped
    · rintro ⟨call, member⟩
      by_contra onward
      rw [Bool.not_eq_false] at onward
      refine marked.goesOn onward (.inl ⟨call, ?_⟩)
      rwa [List.append_nil, List.mem_reverse]

/-- The field `a`, with a field `b` inside or without. -/
def nestedField (inside : Bool) : Field :=
  ⟨none, ⟨"a", none⟩, [], [],
    if inside then some ⟨[.field ⟨none, ⟨"b", none⟩, [], [], none, none⟩], none⟩ else none, none⟩

def nestedSet : Node :=
  .selectionSet ⟨[.field (nestedField true), .field (nestedField false)], none⟩

/-- Counts its calls, skips the first field that it meets and stops at the second one. -/
def secondStopper : Visitor Nat where
  enter node _ := do
    modify (· + 1)
    match node with
    | .field _ => return if (← get) = 2 then .skip else .stop
    | _ => return .proceed
  leave _ _ := do
    modify (· + 1)
    return .proceed

theorem walk_cuts_second :
    (∃ j, Closes (nestedSet.traversal []) 0 j) ∧
    Linked nestedSet [.field (nestedField true), nestedSet] ∧
    (nestedSet.walk secondStopper 0).1 = false := by
  obtain ⟨-, -, left, linked, -, stopped⟩ := walk_cuts secondStopper nestedSet 0
  have calls : nestedSet.callbacks secondStopper 0 =
      [(⟨false, nestedSet, []⟩, .proceed),
        (⟨false, .field (nestedField true), [nestedSet]⟩, .skip),
        (⟨false, .field (nestedField false), [nestedSet]⟩, .stop)] := rfl
  refine ⟨left 0 ⟨false, nestedSet, []⟩ (by rw [Node.traversal, List.getElem?_cons_zero]) rfl,
    linked (⟨false, .field (nestedField true), [nestedSet]⟩, .skip) (by simp [calls]),
    stopped.2 ⟨⟨false, .field (nestedField false), [nestedSet]⟩, by simp [calls]⟩⟩

end Walks
end GraphQL.Ast
