import Mathlib.Data.List.TakeWhile
import GraphQL.Proofs.Ast.Written
import GraphQL.Proofs.Overlap.Height
import GraphQL.Proofs.Validation.Problems
import GraphQL.Proofs.Validation.Wholes

/-! The search for cycles of fragments. What it finds are cycles of the graph that the spreads of a
document make of its fragments. If it finds none, it has finished the fragments in an order in
which each comes after those that it spreads, and there is no cycle. -/
namespace GraphQL.Validation
open Ast (Document FragmentDefinition FragmentSpread)
open Overlap (named? SpreadsTo Acyclic Remains mem_of_named? name_of_named? take?_eq_some named?_others
  named?_of_taken remains_of_take?)
open Relation (TransGen)

variable {document : Document}

namespace FragmentCycle

/-- The fragments that are being explored. -/
def opened (root : String) (path : List FragmentSpread) : List String :=
  path.map FragmentSpread.target ++ [root]

/-- The fragment that has been entered last. -/
def top (root : String) : List FragmentSpread → String
  | [] => root
  | spread :: _ => spread.target

theorem isOpen_iff {root name : String} {path : List FragmentSpread} :
    isOpen root path name = true ↔ name ∈ opened root path := by
  simp [isOpen, opened, or_comm]

/-- How spreads of the fragment that has been entered last are followed one after the other: the
cycles that are found, and the fragments that are not visited then. -/
inductive Search (root : String) : List FragmentDefinition → List FragmentSpread →
    List FragmentSpread → List (List FragmentSpread) → List FragmentDefinition → Prop
  | nil {unvisited : List FragmentDefinition} {path : List FragmentSpread} :
      Search root unvisited path [] [] unvisited
  | closes {unvisited left : List FragmentDefinition} {path rest : List FragmentSpread}
      {spread : FragmentSpread} {cycles : List (List FragmentSpread)} :
      spread.target ∈ opened root path → Search root unvisited path rest cycles left →
      Search root unvisited path (spread :: rest) (closedBy path spread :: cycles) left
  | passes {unvisited left : List FragmentDefinition} {path rest : List FragmentSpread}
      {spread : FragmentSpread} {cycles : List (List FragmentSpread)} :
      spread.target ∉ opened root path → named? unvisited spread.target = none →
      Search root unvisited path rest cycles left →
      Search root unvisited path (spread :: rest) cycles left
  | enters {unvisited others mid left : List FragmentDefinition} {path rest : List FragmentSpread}
      {spread : FragmentSpread} {fragment : FragmentDefinition}
      {inner cycles : List (List FragmentSpread)} : spread.target ∉ opened root path →
      FragmentDefinition.take? unvisited spread.target = some (fragment, others) →
      Search root others (spread :: path) fragment.selectionSet.spreads inner mid →
      Search root mid path rest cycles left →
      Search root unvisited path (spread :: rest) (inner ++ cycles) left

theorem named?_of_take? {unvisited : List FragmentDefinition} {name : String}
    (missing : FragmentDefinition.take? unvisited name = none) : named? unvisited name = none := by
  rwa [FragmentDefinition.take?, Option.map_eq_none_iff] at missing

/-- Spreads are followed to their end before anything else that is left to do. -/
theorem explore_searches (root : String) (unvisited : List FragmentDefinition)
    (path spreads : List FragmentSpread) : ∃ cycles left,
      Search root unvisited path spreads cycles left ∧ left.length ≤ unvisited.length ∧
      ∀ rest, explore root unvisited path (spreads.map .follow ++ rest) =
        (cycles ++ (explore root left path rest).1, (explore root left path rest).2) := by
  match spreads with
  | [] => exact ⟨[], unvisited, .nil, Nat.le_refl _, fun _ => rfl⟩
  | spread :: others =>
    by_cases closes : isOpen root path spread.target = true
    · obtain ⟨cycles, left, search, shorter, same⟩ := explore_searches root unvisited path others
      refine ⟨_, left, .closes (isOpen_iff.1 closes) search, shorter, fun rest => ?_⟩
      rw [List.map_cons, List.cons_append, explore, if_pos closes, same]
      rfl
    · have closed := mt isOpen_iff.2 closes
      cases taken : FragmentDefinition.take? unvisited spread.target with
      | none =>
        obtain ⟨cycles, left, search, shorter, same⟩ := explore_searches root unvisited path others
        refine ⟨cycles, left, .passes closed (named?_of_take? taken) search, shorter, fun rest => ?_⟩
        rw [List.map_cons, List.cons_append, explore, if_neg closes, ← same]
        split
        · rfl
        · rename_i found
          rw [taken] at found
          cases found
      | some found =>
        obtain ⟨fragment, unmet⟩ := found
        have fewer := FragmentDefinition.length_of_take? taken
        obtain ⟨inner, mid, first, shorter, entered⟩ :=
          explore_searches root unmet (spread :: path) fragment.selectionSet.spreads
        obtain ⟨cycles, left, later, shorterStill, same⟩ := explore_searches root mid path others
        refine ⟨_, left, .enters closed taken first later, by omega, fun rest => ?_⟩
        rw [List.map_cons, List.cons_append, explore, if_neg closes]
        split
        · rename_i missing
          rw [taken] at missing
          cases missing
        · rename_i found
          rw [taken] at found
          cases found
          rw [tasks, entered, explore, List.tail_cons, same, List.append_assoc]
-- What is entered is taken from the unvisited fragments, and what follows has fewer spreads.
termination_by (unvisited.length, spreads.length)

section Search
variable {root : String} {unvisited left : List FragmentDefinition}
  {path spreads : List FragmentSpread} {cycles : List (List FragmentSpread)}

theorem Search.remains (search : Search root unvisited path spreads cycles left) :
    Remains unvisited left := by
  induction search with
  | nil => exact fun _ _ here => here
  | closes _ _ ih => exact ih
  | passes _ _ _ ih => exact ih
  | enters _ taken _ _ first later =>
    exact fun name fragment here => remains_of_take? taken _ _ (first _ _ (later _ _ here))

/-- Fragments that are the first ones of their name in the document. -/
def Firsts (document : Document) (unvisited : List FragmentDefinition) : Prop :=
  Remains document.fragments unvisited

theorem Firsts.remains (firsts : Firsts document unvisited) (remains : Remains unvisited left) :
    Firsts document left :=
  fun name fragment here => firsts name fragment (remains name fragment here)

theorem Firsts.known {others : List FragmentDefinition} {name : String} {fragment : FragmentDefinition}
    (firsts : Firsts document unvisited)
    (taken : FragmentDefinition.take? unvisited name = some (fragment, others)) :
    document.fragment? name = some fragment :=
  firsts name fragment (take?_eq_some taken).1

end Search

section Sound
variable {root : String} {unvisited left : List FragmentDefinition}
  {path spreads : List FragmentSpread} {cycles : List (List FragmentSpread)} {spread : FragmentSpread}

/-- A path leads from the root to the fragment that has been entered last, and enters none twice. -/
inductive Trail (document : Document) (root : String) : List FragmentSpread → Prop
  | start : Trail document root []
  | enter {path : List FragmentSpread} {spread : FragmentSpread} : Trail document root path →
      document.Leaves (top root path) spread → spread.target ∉ opened root path →
      Trail document root (spread :: path)

theorem Trail.distinct (trail : Trail document root path) : (opened root path).Nodup := by
  induction trail with
  | start => exact List.nodup_singleton root
  | enter _ _ closed ih => exact List.nodup_cons.2 ⟨closed, ih⟩

/-- What a path has taken since it entered a fragment starts in this fragment. -/
theorem Trail.since (trail : Trail document root path) {name : String}
    (entered : name ∈ opened root path) :
    document.Walk name (path.takeWhile fun step => step.target != name).reverse (top root path) := by
  induction trail with
  | start =>
    obtain rfl := List.mem_singleton.1 entered
    exact .stay name
  | @enter path spread _ leaves _ ih =>
    by_cases here : spread.target = name
    · rw [List.takeWhile_cons_of_neg (by simp [here])]
      exact here ▸ .stay _
    · rw [List.takeWhile_cons_of_pos (by simp [here]), List.reverse_cons]
      apply (ih _).concat leaves
      exact (List.mem_cons.1 entered).resolve_left (Ne.symm here)

/-- A spread of a fragment that is being explored closes a cycle. -/
theorem Trail.close (trail : Trail document root path)
    (leaves : document.Leaves (top root path) spread) (entered : spread.target ∈ opened root path) :
    document.Cycle spread.target (closedBy path spread) where
  moves := List.concat_ne_nil _ _
  walk := (trail.since entered).concat leaves
  simple := by
    rw [closedBy, ← List.reverse_cons, List.map_reverse, List.nodup_reverse, List.map_cons,
      List.nodup_cons]
    constructor
    · intro member
      obtain ⟨step, taken, same⟩ := List.mem_map.1 member
      simpa [same] using List.mem_takeWhile_imp taken
    · apply List.Nodup.sublist ((List.takeWhile_sublist _).map _)
      exact (List.nodup_append.1 trail.distinct).1

/-- What is found are cycles. -/
theorem Search.sound (search : Search root unvisited path spreads cycles left)
    (firsts : Firsts document unvisited) (trail : Trail document root path)
    (leaves : ∀ spread ∈ spreads, document.Leaves (top root path) spread) :
    ∀ cycle ∈ cycles, ∃ name, document.Cycle name cycle := by
  induction search with
  | nil => exact List.forall_mem_nil _
  | closes entered _ ih =>
    obtain ⟨here, others⟩ := List.forall_mem_cons.1 leaves
    exact List.forall_mem_cons.2 ⟨⟨_, trail.close here entered⟩, ih firsts trail others⟩
  | passes _ _ _ ih => exact ih firsts trail (List.forall_mem_cons.1 leaves).2
  | enters closed taken search _ inner later =>
    obtain ⟨here, others⟩ := List.forall_mem_cons.1 leaves
    have unmet := firsts.remains (remains_of_take? taken)
    rw [List.forall_mem_append]
    constructor
    · apply inner unmet (.enter trail here closed)
      exact fun spread member => Ast.leaves_iff.2 ⟨_, firsts.known taken, member⟩
    · exact later (unmet.remains search.remains) trail others

end Sound

end FragmentCycle

section Order

/-- Each name comes with a place behind those that it spreads, if these are names of fragments. -/
def Ordered (document : Document) : List String → Prop
  | [] => True
  | name :: rest =>
      (∀ inner fragment, SpreadsTo document name inner → document.fragment? inner = some fragment →
        inner ∈ rest) ∧ Ordered document rest

variable {done : List String} {name inner : String} {fragment : FragmentDefinition}

theorem Ordered.closed (ordered : Ordered document done) (member : name ∈ done)
    (spreads : SpreadsTo document name inner) (known : document.fragment? inner = some fragment) :
    inner ∈ done := by
  induction done with
  | nil => cases member
  | cons first rest ih =>
    obtain ⟨here, later⟩ := ordered
    rcases List.mem_cons.1 member with rfl | member
    · exact List.mem_cons_of_mem _ (here inner fragment spreads known)
    · exact List.mem_cons_of_mem _ (ih later member)

theorem Ordered.reaches (ordered : Ordered document done) (member : name ∈ done)
    (reaches : TransGen (SpreadsTo document) name inner)
    (known : document.fragment? inner = some fragment) : inner ∈ done := by
  induction reaches generalizing fragment with
  | single spreads => exact ordered.closed member spreads known
  | tail _ spreads ih =>
    obtain ⟨outer, found, -⟩ := id spreads
    exact ordered.closed (ih found) spreads known

theorem Ordered.not_cyclic (ordered : Ordered document done) (member : name ∈ done) :
    ¬ TransGen (SpreadsTo document) name name := by
  induction done with
  | nil => cases member
  | cons first rest ih =>
    intro cycle
    obtain ⟨here, later⟩ := ordered
    refine ih later ?_ cycle
    rcases List.mem_cons.1 member with rfl | member
    · obtain ⟨next, spreads, back⟩ := TransGen.head'_iff.1 cycle
      obtain ⟨fragment, known, -⟩ := id spreads
      rcases Relation.reflTransGen_iff_eq_or_transGen.1 back with same | back
      · subst same
        exact here name fragment spreads known
      · obtain ⟨_, ⟨_, found, _⟩, _⟩ := TransGen.head'_iff.1 back
        exact later.reaches (here next _ spreads found) back known
    · exact member

/-- The fragment that has just been explored is finished after those that it spreads. -/
theorem Ordered.finish (ordered : Ordered document done)
    (known : document.fragment? name = some fragment)
    (spread : ∀ spread ∈ fragment.selectionSet.spreads, ∀ inner,
      document.fragment? spread.target = some inner → spread.target ∈ done) :
    Ordered document (name :: done) := by
  refine ⟨fun inner found spreads here => ?_, ordered⟩
  obtain ⟨outer, same, member⟩ := spreads
  rw [known] at same
  cases same
  obtain ⟨step, inside, rfl⟩ := List.mem_map.1 member
  exact spread step inside found here

end Order

namespace FragmentCycle

section Covers

/-- Every fragment is unvisited, being explored or finished. -/
def Covers (document : Document) (unvisited : List FragmentDefinition) (opens done : List String) : Prop :=
  ∀ name fragment, document.fragment? name = some fragment →
    named? unvisited name = some fragment ∨ name ∈ opens ∨ name ∈ done

variable {unvisited others : List FragmentDefinition} {opens done : List String}
  {fragment : FragmentDefinition} {name : String}

/-- A fragment begins to be explored. -/
theorem Covers.take (covers : Covers document unvisited opens done)
    (taken : FragmentDefinition.take? unvisited name = some (fragment, others)) :
    Covers document others (name :: opens) done := by
  obtain ⟨-, rfl⟩ := take?_eq_some taken
  intro other found known
  by_cases same : other = name
  · exact .inr (.inl (same ▸ List.mem_cons_self))
  · rw [named?_others same]
    exact (covers other found known).imp_right (Or.imp_left (List.mem_cons_of_mem _))

/-- A fragment is finished. -/
theorem Covers.finish (covers : Covers document unvisited (name :: opens) done) :
    Covers document unvisited opens (name :: done) := by
  intro other found known
  rcases covers other found known with here | opened | finished
  · exact .inl here
  · rcases List.mem_cons.1 opened with rfl | opened
    · exact .inr (.inr List.mem_cons_self)
    · exact .inr (.inl opened)
  · exact .inr (.inr (List.mem_cons_of_mem _ finished))

/-- A name that is gone is being explored or finished. -/
theorem Covers.gone (covers : Covers document unvisited opens done) (gone : named? unvisited name = none)
    (known : document.fragment? name = some fragment) : name ∈ opens ∨ name ∈ done := by
  refine (covers name fragment known).resolve_left ?_
  rw [gone]
  nofun

end Covers

section Complete
variable {root : String} {unvisited left : List FragmentDefinition} {done : List String}
  {path spreads : List FragmentSpread} {cycles : List (List FragmentSpread)}

/-- What is finished after the search of some spreads, if it has found no cycle. -/
structure Explored (document : Document) (left : List FragmentDefinition)
    (opens done : List String) (spreads : List FragmentSpread) (more : List String) : Prop where
  ordered : Ordered document more
  extends_ : done ⊆ more
  covers : Covers document left opens more
  finished : ∀ spread ∈ spreads, ∀ fragment, document.fragment? spread.target = some fragment →
    spread.target ∈ more

/-- A search that finds no cycle finishes what is spread. -/
theorem Search.complete (search : Search root unvisited path spreads cycles left) (none : cycles = [])
    (firsts : Firsts document unvisited) (ordered : Ordered document done)
    (covers : Covers document unvisited (opened root path) done) :
    ∃ more, Explored document left (opened root path) done spreads more := by
  induction search generalizing done with
  | nil => exact ⟨done, ordered, List.Subset.refl _, covers, fun _ member =>
      absurd member List.not_mem_nil⟩
  | closes _ _ _ => cases none
  | passes closed missing _ ih =>
    obtain ⟨more, explored⟩ := ih none firsts ordered covers
    refine ⟨more, explored.ordered, explored.extends_, explored.covers, ?_⟩
    refine List.forall_mem_cons.2 ⟨fun fragment known => ?_, explored.finished⟩
    exact explored.extends_ ((covers.gone missing known).resolve_left closed)
  | enters _ taken search _ inner later =>
    obtain ⟨rfl, rfl⟩ := List.append_eq_nil_iff.1 none
    have unmet := firsts.remains (remains_of_take? taken)
    obtain ⟨first, one⟩ := inner rfl unmet ordered (covers.take taken)
    obtain ⟨more, two⟩ := later rfl (unmet.remains search.remains)
      (one.ordered.finish (firsts.known taken) one.finished) one.covers.finish
    have extends_ : first ⊆ more := fun name member =>
      two.extends_ (List.mem_cons_of_mem _ member)
    refine ⟨more, two.ordered, List.Subset.trans one.extends_ extends_, two.covers, ?_⟩
    exact List.forall_mem_cons.2 ⟨fun _ _ => two.extends_ List.mem_cons_self, two.finished⟩

end Complete

section Visits

/-- The cycles that are found from a fragment, unless it has been visited. -/
def visit (unvisited : List FragmentDefinition) (fragment : FragmentDefinition) :
    List (List FragmentSpread) × List FragmentDefinition :=
  match FragmentDefinition.take? unvisited fragment.name.text with
  | none => ([], unvisited)
  | some (_, others) => explore fragment.name.text others [] (tasks fragment)

/-- All cycles that are found in a document. -/
def found (document : Document) : List (List FragmentSpread) :=
  (gather visit document.fragments document.fragments).1

variable {unvisited rest fragments : List FragmentDefinition} {fragment : FragmentDefinition}
  {done : List String}

theorem named?_rest {name : String} (apart : name ≠ fragment.name.text) :
    named? (fragment :: rest) name = named? rest name :=
  List.find?_cons_of_neg (by simpa using apart.symm)

/-- A fragment is searched for cycles when it comes to the first one of its name, and otherwise it
has been visited. -/
theorem visit_cases (remains : Remains (fragment :: rest) unvisited) :
    (named? unvisited fragment.name.text = none ∧ visit unvisited fragment = ([], unvisited)) ∨
    ∃ others, FragmentDefinition.take? unvisited fragment.name.text = some (fragment, others) ∧
      Search fragment.name.text others [] fragment.selectionSet.spreads
        (visit unvisited fragment).1 (visit unvisited fragment).2 := by
  cases taken : FragmentDefinition.take? unvisited fragment.name.text with
  | none => exact .inl ⟨named?_of_take? taken, by rw [visit, taken]⟩
  | some answer =>
    obtain ⟨first, others⟩ := answer
    have same := remains _ _ (take?_eq_some taken).1
    rw [named?, List.find?_cons_of_pos (by simp)] at same
    cases same
    obtain ⟨cycles, left, search, -, explored⟩ :=
      explore_searches fragment.name.text others [] fragment.selectionSet.spreads
    have visited : visit unvisited fragment = (cycles, left) := by
      have explored := explored []
      rw [List.append_nil, explore, List.append_nil] at explored
      rw [visit, taken]
      exact explored
    exact .inr ⟨others, rfl, visited ▸ search⟩

/-- What remains after a fragment stands behind it. -/
theorem visit_remains (remains : Remains (fragment :: rest) unvisited) :
    Remains rest (visit unvisited fragment).2 := by
  intro name found here
  rcases visit_cases remains with ⟨gone, visited⟩ | ⟨others, taken, search⟩
  · rw [visited] at here
    have apart : name ≠ fragment.name.text := by
      rintro rfl
      rw [gone] at here
      cases here
    exact named?_rest apart ▸ remains name found here
  · obtain ⟨apart, here⟩ := named?_of_taken taken (search.remains _ _ here)
    exact named?_rest apart ▸ remains name found here

theorem visit_firsts (remains : Remains (fragment :: rest) unvisited) (firsts : Firsts document unvisited) :
    Firsts document (visit unvisited fragment).2 := by
  rcases visit_cases remains with ⟨-, visited⟩ | ⟨others, taken, search⟩
  · rwa [visited]
  · exact (firsts.remains (remains_of_take? taken)).remains search.remains

/-- What is found from one fragment after the other are cycles. -/
theorem visits_sound (remains : Remains fragments unvisited) (firsts : Firsts document unvisited) :
    ∀ cycle ∈ (gather visit unvisited fragments).1, ∃ name, document.Cycle name cycle := by
  induction fragments generalizing unvisited with
  | nil => exact List.forall_mem_nil _
  | cons fragment rest ih =>
    rw [gather, List.forall_mem_append]
    constructor
    · rcases visit_cases remains with ⟨-, visited⟩ | ⟨others, taken, search⟩
      · rw [visited]
        exact List.forall_mem_nil _
      · apply search.sound (firsts.remains (remains_of_take? taken)) .start
        exact fun spread member => Ast.leaves_iff.2 ⟨fragment, firsts.known taken, member⟩
    · exact ih (visit_remains remains) (visit_firsts remains firsts)

/-- If no cycles are found, fragments are finished one after the other. -/
theorem visits_complete (none : (gather visit unvisited fragments).1 = [])
    (remains : Remains fragments unvisited) (firsts : Firsts document unvisited)
    (ordered : Ordered document done) (covers : Covers document unvisited [] done) :
    ∃ more, Ordered document more ∧ done ⊆ more ∧ ∀ fragment ∈ fragments,
      (document.fragment? fragment.name.text).isSome → fragment.name.text ∈ more := by
  induction fragments generalizing unvisited done with
  | nil => exact ⟨done, ordered, List.Subset.refl _, List.forall_mem_nil _⟩
  | cons fragment rest ih =>
    obtain ⟨here, later⟩ := List.append_eq_nil_iff.1 none
    have behind := visit_remains remains
    have still := visit_firsts remains firsts
    rcases visit_cases remains with ⟨gone, visited⟩ | ⟨others, taken, search⟩
    · -- the first fragment of this name has been visited before
      rw [visited] at later behind still
      obtain ⟨more, ordered, extends_, finished⟩ := ih later behind still ordered covers
      refine ⟨more, ordered, extends_, List.forall_mem_cons.2 ⟨fun known => ?_, finished⟩⟩
      obtain ⟨first, known⟩ := Option.isSome_iff_exists.1 known
      exact extends_ ((covers.gone gone known).resolve_left List.not_mem_nil)
    · have unmet := firsts.remains (remains_of_take? taken)
      obtain ⟨mid, one⟩ := search.complete here unmet ordered (covers.take taken)
      obtain ⟨more, ordered, extends_, finished⟩ := ih later behind still
        (one.ordered.finish (firsts.known taken) one.finished) one.covers.finish
      refine ⟨more, ordered, fun name member => extends_ (List.mem_cons_of_mem _ (one.extends_ member)),
        List.forall_mem_cons.2 ⟨fun _ => extends_ List.mem_cons_self, finished⟩⟩

theorem found_sound : ∀ cycle ∈ found document, ∃ name, document.Cycle name cycle :=
  visits_sound (fun _ _ here => here) fun _ _ here => here

/-- If no cycles are found, no fragment spreads itself. -/
theorem found_complete (none : found document = []) : Acyclic document := by
  obtain ⟨done, ordered, -, finished⟩ := visits_complete none (fun _ _ here => here)
    (fun _ _ here => here) (show Ordered document [] from trivial) fun _ _ known => .inl known
  intro name cycle
  obtain ⟨_, ⟨fragment, found, -⟩, -⟩ := TransGen.head'_iff.1 cycle
  have named := name_of_named? found
  have member := finished fragment (mem_of_named? found) (by rw [named, found]; rfl)
  exact ordered.not_cyclic (named ▸ member) cycle

end Visits
end FragmentCycle

section Reports
open FragmentCycle (found finding visit)
variable {schema : Schema} {name : String} {cycle : List FragmentSpread}

theorem noFragmentCycles_byFragment : Rule.noFragmentCycles.ByFragment fun unvisited fragment =>
    ((visit unvisited fragment).1.map finding, (visit unvisited fragment).2) where
  operation := by
    rintro ⟨_, _, _, _, _⟩ state operation ⟨⟩
    rfl
  fragment := by
    rintro ⟨_, _, _, _, _⟩ (state : List FragmentDefinition) fragment ⟨⟩
    unfold Rule.noFragmentCycles visit
    dsimp only
    cases FragmentDefinition.take? state fragment.name.text <;> rfl
  typeSystem := by
    rintro ⟨_, _, _, _, _⟩ state definition ⟨⟩
    rfl
  leave _ _ := rfl

/-- The rule reports the cycles that it finds. -/
theorem noFragmentCycles_reports (schema : Schema) (document : Document) :
    Rule.noFragmentCycles.reports (documentTurns schema document) = (found document).map finding := by
  rw [noFragmentCycles_byFragment.reports rfl]
  exact congrArg Prod.fst (gather_map finding visit _ _)

/-- A cycle is named after the fragment that it starts in. -/
theorem finding_eq (simple : document.Cycle name cycle) :
    finding cycle = .violation (.fragmentCycle name (cycle.map FragmentSpread.target).dropLast)
      (cycle.map FragmentSpread.span) := by
  have last := simple.walk.last_eq
  obtain ⟨first, rest, rfl⟩ := List.exists_cons_of_ne_nil simple.moves
  rw [List.map_cons, List.getLastD_cons] at last
  rw [FragmentCycle.finding, List.map_cons, List.getLastD_cons, last]

theorem transGen_of_walk {last : String} {spreads : List FragmentSpread}
    (walk : document.Walk name spreads last) (moves : spreads ≠ []) :
    TransGen (SpreadsTo document) name last := by
  induction walk with
  | stay => exact absurd rfl moves
  | @step name last spread rest leaves walk ih =>
    obtain ⟨fragment, known, inside⟩ := Ast.leaves_iff.1 leaves
    have spreads : SpreadsTo document name spread.target :=
      ⟨fragment, known, List.mem_map_of_mem inside⟩
    cases rest with
    | nil =>
      cases walk
      exact .single spreads
    | cons _ _ => exact .head spreads (ih (List.cons_ne_nil _ _))

/-- The rule against cycles of fragments comes to an end. It reports something exactly if some spreads
lead from a fragment back to it, and each report is about such spreads that enter no fragment
twice. -/
theorem cycles_reported (schema : Schema) (document : Document) :
    ∃ problems, schema.validateWith [Rule.noFragmentCycles] document = some problems ∧
      (problems ≠ [] ↔ ∃ name spreads, spreads ≠ [] ∧ document.Walk name spreads name) ∧
      ∀ problem ∈ problems, ∃ name cycle, document.Cycle name cycle ∧
        problem = .about (.fragmentCycle name (cycle.map FragmentSpread.target).dropLast)
          (cycle.map FragmentSpread.span) := by
  let about (cycle : List FragmentSpread) : Problem :=
    .about (.fragmentCycle ((cycle.map FragmentSpread.target).getLastD "")
      (cycle.map FragmentSpread.target).dropLast) (cycle.map FragmentSpread.span)
  refine ⟨(found document).map about, validateWith_of_reports ?_, ?_, ?_⟩
  · rw [noFragmentCycles_reports, List.map_map]
    rfl
  · rw [Ne, List.map_eq_nil_iff]
    constructor
    · intro some
      obtain ⟨cycle, member⟩ := List.exists_mem_of_ne_nil _ some
      obtain ⟨name, simple⟩ := FragmentCycle.found_sound cycle member
      exact ⟨name, cycle, simple.moves, simple.walk⟩
    · rintro ⟨name, spreads, moves, walk⟩ none
      exact FragmentCycle.found_complete none name (transGen_of_walk walk moves)
  · intro problem member
    obtain ⟨cycle, inside, rfl⟩ := List.mem_map.1 member
    obtain ⟨name, simple⟩ := FragmentCycle.found_sound cycle inside
    exact ⟨name, cycle, simple, Finding.problem.inj (finding_eq simple)⟩

end Reports
end GraphQL.Validation
