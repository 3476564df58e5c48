import Mathlib.Data.List.Permutation
import GraphQL.Proofs.Overlap.Depth
import GraphQL.Proofs.Overlap.Height
import GraphQL.Proofs.Overlap.Soundness

/-! A search that ends without a conflict has left out no two fields of an expansion: each two
have been compared, or two alike, under parents at least as general. -/
namespace GraphQL.Validation.Overlap
open Ast (SelectionSet FragmentDefinition Document)

/-! What has been compared when a search ends without a conflict: with a comparison all of its
parts, but for fragments that have been compared before under parents at least as general. -/

/-- A comparison finds nothing by itself. -/
def Comparison.Clean (schema : Schema) : Comparison → Prop
  | fields exclusive _ a b =>
      ownReason? schema (exclusive || differentObjects a.parent b.parent) a b = none
  | fragments _ _ _ => True

/-- Two fragments have been compared in either order, under these parents or more general ones. -/
def Noted (made : Comparison → Prop) (a b : String) (exclusive : Bool) : Prop :=
  ∃ before, (before = true → exclusive = true) ∧
    (made (.fragments before a b) ∨ made (.fragments before b a))

/-- A comparison has been made, or need not be. -/
def Handled (made : Comparison → Prop) : Comparison → Prop
  | .fields exclusive key a b => made (.fields exclusive key a b)
  | .fragments exclusive a b => a = b ∨ Noted made a b exclusive

/-- The same, told by the memory. -/
def Settled (made : Comparison → Prop) (compared : Compared) : Comparison → Prop
  | .fields exclusive key a b => made (.fields exclusive key a b)
  | .fragments exclusive a b => a = b ∨ compared.covers a b exclusive = true

/-- Comparisons that find nothing by themselves and that leave none of their parts out. -/
structure Closed (schema : Schema) (document : Document) (starts : List Comparison)
    (made : Comparison → Prop) : Prop where
  started : ∀ comparison ∈ starts, Handled made comparison
  clean : ∀ comparison, made comparison → comparison.Clean schema
  parts : ∀ comparison, made comparison →
    ∀ part ∈ comparison.parts schema document, Handled made part

section Closure
variable {schema : Schema} {document : Document} {made more : Comparison → Prop}
  {compared last : Compared} {comparison : Comparison}

theorem Settled.mono (settled : Settled made compared comparison)
    (grown : ∀ other, made other → more other) (extended : last.Extends compared) :
    Settled more last comparison := by
  cases comparison with
  | fields exclusive key a b => exact grown _ settled
  | fragments exclusive a b => exact settled.imp_right (extended a b exclusive)

theorem Noted.mono {a b : String} {exclusive : Bool} (noted : Noted made a b exclusive)
    (grown : ∀ other, made other → more other) : Noted more a b exclusive := by
  obtain ⟨before, general, found⟩ := noted
  exact ⟨before, general, found.imp (grown _) (grown _)⟩

theorem settled_skipped (skips : comparison.skips compared = true) :
    Settled made compared comparison := by
  cases comparison with
  | fields exclusive key a b => cases skips
  | fragments exclusive a b => simpa [Comparison.skips, Settled] using skips

theorem settled_made (here : made comparison) :
    Settled made (comparison.noted compared) comparison := by
  cases comparison with
  | fields exclusive key a b => exact here
  | fragments exclusive a b => exact .inr (Compared.covers_add compared a b exclusive)

/-- A memory that a comparison is noted in covers what it did before and what the comparison
covers. -/
theorem noted_covers (here : made comparison) {a b : String} {exclusive : Bool}
    (covers : (comparison.noted compared).covers a b exclusive = true) :
    compared.covers a b exclusive = true ∨ Noted made a b exclusive := by
  cases comparison with
  | fields _ _ _ _ => exact .inl covers
  | fragments before c d =>
    rw [Comparison.noted, Compared.add, Compared.covers, List.any_cons, Bool.or_eq_true] at covers
    refine covers.symm.imp_right fun first => ⟨before, ?_, ?_⟩
    · rintro rfl
      simpa using (Bool.and_eq_true_iff.1 first).2
    · have joins := (Bool.and_eq_true_iff.1 first).1
      simp only [Pair.joins, Bool.or_eq_true, Bool.and_eq_true, beq_iff_eq] at joins
      rcases joins with ⟨rfl, rfl⟩ | ⟨rfl, rfl⟩
      · exact .inl here
      · exact .inr here

theorem answer_nil {inside : List Conflict} (nothing : comparison.answer schema inside = []) :
    comparison.Clean schema ∧ inside = [] := by
  cases comparison with
  | fields exclusive key a b =>
    rw [Comparison.Clean]
    cases reason : ownReason? schema (exclusive || differentObjects a.parent b.parent) a b with
    | some found => simp [Comparison.answer, reason] at nothing
    | none =>
      refine ⟨rfl, ?_⟩
      by_contra some_
      simp [Comparison.answer, reason, ofSubfields, some_] at nothing
  | fragments exclusive a b => exact ⟨trivial, nothing⟩

/-- What is made when comparisons end without a conflict, with the memory that they leave. -/
theorem Ends.settled {comparisons : List Comparison} {found : List Conflict}
    (ends : Ends schema document comparisons compared found last) (nothing : found = []) :
    (∀ comparison ∈ comparisons,
      Settled (Makes schema document comparisons compared) last comparison) ∧
    (∀ comparison, Makes schema document comparisons compared comparison →
      comparison.Clean schema ∧ ∀ part ∈ comparison.parts schema document,
        Settled (Makes schema document comparisons compared) last part) ∧
    ∀ a b exclusive, last.covers a b exclusive = true → compared.covers a b exclusive = true ∨
      Noted (Makes schema document comparisons compared) a b exclusive := by
  induction ends with
  | done compared =>
    refine ⟨fun _ member => absurd member List.not_mem_nil, fun _ makes => ?_,
      fun _ _ _ covers => .inl covers⟩
    cases makes
  | @skipped comparison rest compared last found skips later ih =>
    obtain ⟨started, parts, covered⟩ := ih nothing
    have grown : ∀ other, Makes schema document rest compared other →
        Makes schema document (comparison :: rest) compared other :=
      fun _ makes => .later (.skipped skips (.done _)) makes
    refine ⟨fun other member => ?_, fun other makes => ?_, fun a b exclusive covers => ?_⟩
    · rcases List.mem_cons.1 member with rfl | member
      · exact (settled_skipped skips).mono (fun _ makes => makes) later.extends
      · exact (started other member).mono grown (.refl _)
    · cases makes with
      | here open_ => simp [skips] at open_
      | inside open_ _ => simp [skips] at open_
      | later first makes =>
        obtain ⟨-, rfl⟩ := first.unique (.skipped skips (.done _))
        obtain ⟨clean, handled⟩ := parts other makes
        exact ⟨clean, fun part member => (handled part member).mono grown (.refl _)⟩
    · exact (covered a b exclusive covers).imp_right fun noted => noted.mono grown
  | @made comparison rest compared middle last inside others skips within later inner ih =>
    obtain ⟨here, none⟩ := List.append_eq_nil_iff.1 nothing
    obtain ⟨clean, empty⟩ := answer_nil here
    obtain ⟨innerStarted, innerParts, innerCovered⟩ := inner empty
    obtain ⟨laterStarted, laterParts, laterCovered⟩ := ih none
    have made : Makes schema document (comparison :: rest) compared comparison := .here skips
    have deeper : ∀ other, Makes schema document (comparison.parts schema document)
        (comparison.noted compared) other →
          Makes schema document (comparison :: rest) compared other :=
      fun _ makes => .inside skips makes
    have further : ∀ other, Makes schema document rest middle other →
        Makes schema document (comparison :: rest) compared other :=
      fun _ makes => .later (.made skips within (.done _)) makes
    refine ⟨fun other member => ?_, fun other makes => ?_, fun a b exclusive covers => ?_⟩
    · rcases List.mem_cons.1 member with rfl | member
      · exact (settled_made made).mono (fun _ makes => makes) (later.extends.trans within.extends)
      · exact (laterStarted other member).mono further (.refl _)
    · cases makes with
      | here _ =>
        exact ⟨clean, fun part member => (innerStarted part member).mono deeper later.extends⟩
      | inside _ makes =>
        obtain ⟨clean, handled⟩ := innerParts other makes
        exact ⟨clean, fun part member => (handled part member).mono deeper later.extends⟩
      | later first makes =>
        obtain ⟨-, rfl⟩ := first.unique (.made skips within (.done _))
        obtain ⟨clean, handled⟩ := laterParts other makes
        exact ⟨clean, fun part member => (handled part member).mono further (.refl _)⟩
    · rcases laterCovered a b exclusive covers with covers | noted
      · rcases innerCovered a b exclusive covers with covers | noted
        · exact noted_covers made covers
        · exact .inr (noted.mono deeper)
      · exact .inr (noted.mono further)

theorem Settled.handled (settled : Settled made compared comparison)
    (covered : ∀ a b exclusive, compared.covers a b exclusive = true → Noted made a b exclusive) :
    Handled made comparison := by
  cases comparison with
  | fields exclusive key a b => exact settled
  | fragments exclusive a b => exact settled.imp_right (covered a b exclusive)

/-- The comparisons of a search that ends without a conflict are closed. -/
theorem Ends.closed {starts : List Comparison}
    (ends : Ends schema document starts [] [] last) :
    Closed schema document starts (Makes schema document starts []) := by
  obtain ⟨started, parts, covered⟩ := ends.settled rfl
  have covered : ∀ a b exclusive, last.covers a b exclusive = true →
      Noted (Makes schema document starts []) a b exclusive := fun a b exclusive covers =>
    (covered a b exclusive covers).resolve_left fun none => by cases none
  exact ⟨fun comparison member => (started comparison member).handled covered,
    fun comparison makes => (parts comparison makes).1,
    fun comparison makes part member => ((parts comparison makes).2 part member).handled covered⟩

end Closure

section Lists
variable {α : Type}

theorem pair_sublist {items : List α} {a b : α} (first : a ∈ items) (second : b ∈ items)
    (apart : a ≠ b) : [a, b].Sublist items ∨ [b, a].Sublist items := by
  induction items with
  | nil => cases first
  | cons item rest ih =>
    rcases List.mem_cons.1 first with rfl | early
    · have later := (List.mem_cons.1 second).resolve_left apart.symm
      exact .inl ((List.singleton_sublist.2 later).cons_cons a)
    · rcases List.mem_cons.1 second with rfl | late
      · exact .inr ((List.singleton_sublist.2 early).cons_cons b)
      · exact (ih early late).imp (.cons item) (.cons item)

theorem subperm_pair {items : List α} {a b : α} (below : [a, b].Subperm items) :
    [a, b].Sublist items ∨ [b, a].Sublist items := by
  obtain ⟨pair, perm, below⟩ := below
  rcases List.perm_pair.1 perm with rfl | rfl
  · exact .inl below
  · exact .inr below

theorem forall₂_pair {α β : Type} {R : α → β → Prop} {first : List α} {second : List β}
    (same : List.Forall₂ R first second) {a b : α} (below : [a, b].Sublist first) :
    ∃ a' b', [a', b'].Sublist second ∧ R a a' ∧ R b b' := by
  induction same with
  | nil => cases below
  | cons related rest ih =>
    cases below with
    | cons _ below =>
      obtain ⟨a', b', below, left, right⟩ := ih below
      exact ⟨a', b', below.cons _, left, right⟩
    | cons_cons _ below =>
      obtain ⟨b', member, right⟩ := forall₂_mem rest (List.singleton_sublist.1 below)
      exact ⟨_, b', (List.singleton_sublist.2 member).cons_cons _, related, right⟩

end Lists

theorem Alike.trans {a b c : Selected} (first : Alike a b) (second : Alike b c) : Alike a c :=
  ⟨first.node.trans second.node, first.definition.trans second.definition,
    first.object.trans second.object⟩

theorem Alike.key {a b : Selected} (alike : Alike a b) : a.key = b.key :=
  congrArg Ast.Field.responseKey alike.node

theorem Alike.type {a b : Selected} (alike : Alike a b) : a.type = b.type :=
  congrArg (Option.map Field.type) alike.definition

/-- Whether two types are different objects depends on the objects only. -/
theorem differentObjects_eq (first second : Option TypeDef) : differentObjects first second =
    match first.bind TypeDef.object?, second.bind TypeDef.object? with
    | some a, some b => a.name != b.name
    | _, _ => false := by
  cases first with
  | none => rfl
  | some type =>
    cases second with
    | none => cases type <;> rfl
    | some other => cases type <;> cases other <;> rfl

theorem Alike.differentObjects {a a' b b' : Selected} (first : Alike a a') (second : Alike b b') :
    differentObjects a.parent b.parent = Overlap.differentObjects a'.parent b'.parent := by
  rw [differentObjects_eq, differentObjects_eq, first.object, second.object]

/-- Two fields, or two alike, have been compared under these parents or more general ones. -/
def Met (made : Comparison → Prop) (exclusive : Bool) (x y : Selected) : Prop :=
  ∃ before, (before = true → exclusive = true) ∧ ∃ x' y' key, Alike x x' ∧ Alike y y' ∧
    (made (.fields before key x' y') ∨ made (.fields before key y' x'))

/-- Any two fields that two fragments expand to have met, except a field with itself. -/
def Faced (schema : Schema) (document : Document) (made : Comparison → Prop) (a b : String)
    (exclusive : Bool) : Prop :=
  ∀ F G x y, Stands document.fragments [a] F → Stands document.fragments [b] G →
    x ∈ fragmentFields schema F → y ∈ fragmentFields schema G →
    (F.name.text ≠ G.name.text ∨ [x, y].Subperm (fragmentFields schema F)) → x.key = y.key →
    Met made exclusive x y

section Met
variable {schema : Schema} {document : Document} {made : Comparison → Prop} {exclusive : Bool}
  {x y : Selected}

theorem Met.symm (met : Met made exclusive x y) : Met made exclusive y x := by
  obtain ⟨before, general, x', y', key, left, right, found⟩ := met
  exact ⟨before, general, y', x', key, right, left, found.symm⟩

theorem Met.mono {more : Bool} (met : Met made exclusive x y)
    (general : exclusive = true → more = true) : Met made more x y := by
  obtain ⟨before, first, found⟩ := met
  exact ⟨before, fun on => general (first on), found⟩

theorem Met.alike {x' y' : Selected} (met : Met made exclusive x' y') (left : Alike x x')
    (right : Alike y y') : Met made exclusive x y := by
  obtain ⟨before, general, x'', y'', key, first, second, found⟩ := met
  exact ⟨before, general, x'', y'', key, left.trans first, right.trans second, found⟩

theorem met_of_made {key : String} (found : made (.fields exclusive key x y)) :
    Met made exclusive x y :=
  ⟨exclusive, fun on => on, x, y, key, .refl x, .refl y, .inl found⟩

theorem Handled.swap {a b : String} (handled : Handled made (.fragments exclusive a b)) :
    Handled made (.fragments exclusive b a) := by
  rcases handled with same | ⟨before, general, found⟩
  · exact .inl same.symm
  · exact .inr ⟨before, general, found.symm⟩

theorem Faced.swap {a b : String} (faced : Faced schema document made a b exclusive) :
    Faced schema document made b a exclusive := by
  intro F G x y left right inside others apart key
  refine (faced G F y x right left others inside ?_ key.symm).symm
  by_cases same : F.name.text = G.name.text
  · have named := left.named
    rw [same, right.named] at named
    have equal : G = F := Option.some.inj named
    subst equal
    have pair := apart.resolve_left fun differ => differ rfl
    exact .inr ((List.Perm.swap y x []).subperm_right.1 pair)
  · exact .inl fun equal => same equal.symm

theorem Faced.mono {a b : String} {more : Bool} (faced : Faced schema document made a b exclusive)
    (general : exclusive = true → more = true) : Faced schema document made a b more :=
  fun F G x y left right inside others apart key =>
    (faced F G x y left right inside others apart key).mono general

end Met

section Visits
variable {schema : Schema} {document : Document} {made : Comparison → Prop} {x y : Selected}

/-- No fragment beside the fields of a set is the one that the set belongs to. -/
def Unowned (document : Document) (visited : Visited) : Prop :=
  ∀ fragment, Stands document.fragments (spreadsOf visited.set) fragment →
    (visited.owner != some fragment.name.text) = true

theorem own_met {starts : List Comparison} (closed : Closed schema document starts made)
    {visited : Visited} (inside : visited.starts schema document ⊆ starts)
    (pair : [x, y].Subperm (fieldsOf schema visited.parent visited.set)) (key : x.key = y.key) :
    Met made false x y := by
  rcases subperm_pair pair with below | below
  · exact met_of_made (closed.started _ (inside ((mem_starts visited).2
      (.inl ⟨x, y, below, key, rfl⟩))))
  · exact (met_of_made (closed.started _ (inside ((mem_starts visited).2
      (.inl ⟨y, x, below, key.symm, rfl⟩))))).symm

theorem beside_met {starts : List Comparison} (closed : Closed schema document starts made)
    {visited : Visited} (inside : visited.starts schema document ⊆ starts)
    (unowned : Unowned document visited) {fragment : FragmentDefinition}
    (stands : Stands document.fragments (spreadsOf visited.set) fragment)
    (own : x ∈ fieldsOf schema visited.parent visited.set) (other : y ∈ fragmentFields schema fragment)
    (key : x.key = y.key) : Met made false x y := by
  have stays := stands.kept (fun name => visited.owner != some name) unowned
  exact met_of_made (closed.started _ (inside ((mem_starts visited).2
    (.inr (.inl ⟨fragment, stays, x, own, y, other, key, rfl⟩)))))

theorem spreads_handled {starts : List Comparison} (closed : Closed schema document starts made)
    {visited : Visited} (inside : visited.starts schema document ⊆ starts) {a b : String}
    (first : a ∈ spreadsOf visited.set) (second : b ∈ spreadsOf visited.set) :
    Handled made (.fragments false a b) := by
  by_cases same : a = b
  · exact .inl same
  · rcases pair_sublist (List.mem_eraseDups.2 first) (List.mem_eraseDups.2 second) same with
      below | below
    · exact closed.started _ (inside ((mem_starts visited).2 (.inr (.inr ⟨a, b, below, rfl⟩))))
    · exact (closed.started _ (inside ((mem_starts visited).2
        (.inr (.inr ⟨b, a, below, rfl⟩))))).swap

/-- The fields that a set of the document expands to have met, if those have that its spreads
expand to. -/
theorem set_met {starts : List Comparison} (closed : Closed schema document starts made)
    {visited : Visited} (inside : visited.starts schema document ⊆ starts)
    (unowned : Unowned document visited)
    (faced : ∀ a ∈ spreadsOf visited.set, ∀ b ∈ spreadsOf visited.set,
      Faced schema document made a b false)
    {source other : Option String} {fields others : List Selected}
    (first : Expands schema document visited.parent visited.set source fields)
    (second : Expands schema document visited.parent visited.set other others)
    (left : x ∈ fields) (right : y ∈ others)
    (apart : source ≠ other ∨ [x, y].Subperm fields) (key : x.key = y.key) :
    Met made false x y := by
  cases first with
  | own =>
    cases second with
    | own => exact own_met closed inside (apart.resolve_left fun differ => differ rfl) key
    | spread stands => exact beside_met closed inside unowned stands left right key
  | spread stands =>
    cases second with
    | own => exact (beside_met closed inside unowned stands right left key.symm).symm
    | spread behind =>
      obtain ⟨a, spread, first⟩ := stands.one
      obtain ⟨b, beside, second⟩ := behind.one
      refine faced a spread b beside _ _ x y first second left right ?_ key
      exact apart.imp_left fun differ equal => differ (congrArg some equal)

end Visits

section Fragments
variable {schema : Schema} {document : Document} {made : Comparison → Prop}
  {starts : List Comparison} {height : String → Nat}

/-- The set of a fragment, as the document's walk comes to it. -/
structure FragmentVisit (schema : Schema) (document : Document) (starts : List Comparison)
    (fragment : FragmentDefinition) (visited : Visited) : Prop where
  set : visited.set = fragment.selectionSet
  fields : List.Forall₂ Alike (fragmentFields schema fragment)
    (fieldsOf schema visited.parent visited.set)
  inside : visited.starts schema document ⊆ starts
  unowned : Unowned document visited

/-- The fields that a fragment expands to have met, if those have that its spreads expand to. -/
theorem fragment_met (closed : Closed schema document starts made)
    {fragment : FragmentDefinition} {visited : Visited}
    (visit : FragmentVisit schema document starts fragment visited)
    (faced : ∀ a ∈ spreadsOf fragment.selectionSet, ∀ b ∈ spreadsOf fragment.selectionSet,
      Faced schema document made a b false)
    {name : String} (found : document.fragment? name = some fragment) :
    Faced schema document made name name false := by
  intro F G x y left right inside others apart key
  have behind (H : FragmentDefinition) (stands : Stands document.fragments [name] H) :
      H = fragment ∨ Stands document.fragments (spreadsOf visited.set) H := by
    obtain ⟨outer, named, same⟩ := stands.first
    rw [visit.set, ← Option.some.inj (named.symm.trans found)]
    exact same
  have own (z : Selected) (member : z ∈ fragmentFields schema fragment) :
      ∃ z' ∈ fieldsOf schema visited.parent visited.set, Alike z z' :=
    forall₂_mem visit.fields member
  rcases behind F left with rfl | left
  · obtain ⟨x', first, alike⟩ := own x inside
    rcases behind G right with rfl | right
    · rcases subperm_pair (apart.resolve_left fun differ => differ rfl) with below | below
      · obtain ⟨x', y', below, alike, other⟩ := forall₂_pair visit.fields below
        exact (own_met closed visit.inside below.subperm
          (alike.key.symm.trans (key.trans other.key))).alike alike other
      · obtain ⟨y', x', below, other, alike⟩ := forall₂_pair visit.fields below
        exact (own_met closed visit.inside below.subperm
          (other.key.symm.trans (key.symm.trans alike.key))).symm.alike alike other
    · exact (beside_met closed visit.inside visit.unowned right first others
        (alike.key.symm.trans key)).alike alike (.refl y)
  · rcases behind G right with rfl | right
    · obtain ⟨y', second, alike⟩ := own y others
      exact (beside_met closed visit.inside visit.unowned left second inside
        (alike.key.symm.trans key.symm)).symm.alike (.refl x) alike
    · refine set_met closed visit.inside visit.unowned ?_ (.spread left) (.spread right) inside
        others (apart.imp_left fun differ equal => differ (Option.some.inj equal)) key
      rw [visit.set]
      exact faced

/-- Fragments that have been compared, or are the same, have met. Heights bound the induction: a
comparison goes on to a fragment that one of the two spreads, and a fragment that comes to be
compared with itself has its own set, whose spreads are lower. -/
theorem faced_of_handled (closed : Closed schema document starts made)
    (graded : Graded document height)
    (visits : ∀ name fragment, document.fragment? name = some fragment →
      ∃ visited, FragmentVisit schema document starts fragment visited)
    (bound : Nat) {a b : String} {exclusive : Bool} (low : height a + height b ≤ bound)
    (handled : Handled made (.fragments exclusive a b)) :
    Faced schema document made a b exclusive := by
  induction bound using Nat.strong_induction_on generalizing a b exclusive with
  | _ bound ih =>
    have compared (a b : String) (before : Bool) (low : height a + height b ≤ bound)
        (found : made (.fragments before a b)) : Faced schema document made a b before := by
      intro F G x y left right inside others apart key
      obtain ⟨f, first, behind⟩ := left.first
      obtain ⟨g, second, beside⟩ := right.first
      have parts (part : Comparison) (member : part ∈ fragmentParts schema before a b f g) :
          Handled made part :=
        closed.parts _ found part (mem_fragments_parts.2 ⟨f, g, first, second, member⟩)
      rcases beside with rfl | beside
      · rcases behind with rfl | behind
        · exact met_of_made (parts _ (mem_fragmentParts.2 (.inl ⟨x, inside, y, others, key, rfl⟩)))
        · obtain ⟨name, spread, below⟩ := behind.one
          have lower := graded _ _ (spreadsTo_of_mem first spread)
          have next := parts _ (mem_fragmentParts.2 (.inr (.inr ⟨name, spread, rfl⟩)))
          exact ih (height name + height b) (by omega) (Nat.le_refl _) next F G x y below right inside
            others apart key
      · obtain ⟨name, spread, below⟩ := beside.one
        have lower := graded _ _ (spreadsTo_of_mem second spread)
        have next := parts _ (mem_fragmentParts.2 (.inr (.inl ⟨name, spread, rfl⟩)))
        exact ih (height a + height name) (by omega) (Nat.le_refl _) next F G x y left below inside
          others apart key
    rcases handled with rfl | ⟨before, general, found | found⟩
    · intro F G x y left right inside others apart key
      obtain ⟨fragment, found, _⟩ := left.first
      obtain ⟨visited, visit⟩ := visits a fragment found
      refine (fragment_met closed visit ?_ found F G x y left right inside others apart key).mono
        fun on => by cases on
      intro c first d second
      have lower := graded _ _ (spreadsTo_of_mem found first)
      have low := graded _ _ (spreadsTo_of_mem found second)
      rw [← visit.set] at first second
      exact ih (height c + height d) (by omega) (Nat.le_refl _)
        (spreads_handled closed visit.inside first second)
    · exact (compared a b before low found).mono general
    · exact (compared b a before (by omega) found).swap.mono general

end Fragments

section Conflicts
variable {schema : Schema} {document : Document} {made : Comparison → Prop}
  {starts : List Comparison}

/-- With two fields the fields that their sets expand to have met. -/
theorem inside_made (closed : Closed schema document starts made)
    (faced : ∀ a b exclusive, Handled made (.fragments exclusive a b) →
      Faced schema document made a b exclusive)
    {exclusive : Bool} {key : String} {a b x y : Selected}
    (found : made (.fields exclusive key a b)) {s t : SelectionSet} {source other : Option String}
    {fields others : List Selected} (hasFirst : a.node.selectionSet = some s)
    (hasSecond : b.node.selectionSet = some t)
    (first : Expands schema document (a.below schema) s source fields)
    (second : Expands schema document (b.below schema) t other others)
    (left : x ∈ fields) (right : y ∈ others) (apart : Apart source other fields x y)
    (same : x.key = y.key) :
    Met made (exclusive || differentObjects a.parent b.parent) x y := by
  have parts (part : Comparison) (member : part ∈ setParts schema document
      (exclusive || differentObjects a.parent b.parent) (Expansion.ofSet schema (a.below schema) s)
      (Expansion.ofSet schema (b.below schema) t)) : Handled made part :=
    closed.parts _ found part
      (mem_fields_parts.2 ⟨closed.clean _ found, s, t, hasFirst, hasSecond, member⟩)
  cases first with
  | own =>
    cases second with
    | own =>
      exact met_of_made (parts _ ((mem_setParts _ _ _ _).2 (.inl ⟨x, left, y, right, same, rfl⟩)))
    | spread stands =>
      exact met_of_made (parts _ ((mem_setParts _ _ _ _).2
        (.inr (.inl ⟨_, stands, x, left, y, right, same, rfl⟩))))
  | spread stands =>
    cases second with
    | own =>
      exact (met_of_made (parts _ ((mem_setParts _ _ _ _).2
        (.inr (.inr (.inl ⟨_, stands, y, right, x, left, same.symm, rfl⟩)))))).symm
    | spread behind =>
      obtain ⟨c, spread, first⟩ := stands.one
      obtain ⟨d, beside, second⟩ := behind.one
      refine faced c d _ (parts _ ((mem_setParts _ _ _ _).2
        (.inr (.inr (.inr ⟨c, spread, d, beside, rfl⟩))))) _ _ x y first second left right ?_ same
      exact (apart.resolve_left (Option.some_ne_none _)).imp_left fun differ equal =>
        differ (congrArg some equal)

theorem inside_met (closed : Closed schema document starts made)
    (faced : ∀ a b exclusive, Handled made (.fragments exclusive a b) →
      Faced schema document made a b exclusive)
    {exclusive : Bool} {a b x y : Selected} (met : Met made exclusive a b)
    {s t : SelectionSet} {source other : Option String} {fields others : List Selected}
    (hasFirst : a.node.selectionSet = some s) (hasSecond : b.node.selectionSet = some t)
    (first : Expands schema document (a.below schema) s source fields)
    (second : Expands schema document (b.below schema) t other others)
    (left : x ∈ fields) (right : y ∈ others) (apart : Apart source other fields x y)
    (same : x.key = y.key) :
    Met made (exclusive || differentObjects a.parent b.parent) x y := by
  obtain ⟨before, general, a', b', key, alike, other, found⟩ := met
  rw [alike.below] at first
  rw [other.below] at second
  rw [alike.node] at hasFirst
  rw [other.node] at hasSecond
  have widen : (before || differentObjects a'.parent b'.parent) = true →
      (exclusive || differentObjects a.parent b.parent) = true := by
    rw [alike.differentObjects other, Bool.or_eq_true, Bool.or_eq_true]
    exact Or.imp_left general
  rcases found with found | found
  · exact (inside_made closed faced found hasFirst hasSecond first second left right apart
      same).mono widen
  · rw [differentObjects_comm] at widen
    exact (inside_made closed faced found hasSecond hasFirst second first right left
      (apart.symm first second) same.symm).symm.mono widen

/-- Fields that have met do not conflict by themselves. -/
theorem clean_of_met (closed : Closed schema document starts made)
    {exclusive : Bool} {a b : Selected} (distinct : DistinctNames a) (others : DistinctNames b)
    (met : Met made exclusive a b) :
    ((exclusive || differentObjects a.parent b.parent) = false →
      a.node.name.text = b.node.name.text ∧ SameArguments a.node.arguments b.node.arguments) ∧
    ∀ s t, a.type = some s → b.type = some t → typesConflict schema s t = false := by
  obtain ⟨before, general, a', b', key, alike, other, found⟩ := met
  have first : DistinctNames a' := by rwa [DistinctNames, ← alike.node]
  have second : DistinctNames b' := by rwa [DistinctNames, ← other.node]
  have off (same : (exclusive || differentObjects a.parent b.parent) = false) :
      (before || differentObjects a'.parent b'.parent) = false := by
    rw [← alike.differentObjects other]
    rw [Bool.or_eq_false_iff] at same ⊢
    refine ⟨?_, same.2⟩
    by_contra on
    rw [general (by simpa using on)] at same
    cases same.1
  rw [alike.node, other.node, alike.type, other.type]
  rcases found with found | found
  · have clean := closed.clean _ found
    obtain ⟨own, types⟩ := (ownReason?_none first second).1 clean
    exact ⟨fun same => own (off same), types⟩
  · have clean := closed.clean _ found
    obtain ⟨own, types⟩ := (ownReason?_none second first).1 clean
    refine ⟨fun same => ?_, fun s t left right => ?_⟩
    · have both := off same
      rw [differentObjects_comm] at both
      exact ⟨(own both).1.symm, (own both).2.symm⟩
    · rw [typesConflict_comm]
      exact types t s right left

/-- The fields that a set below an owned field expands to are owned. -/
theorem Expands.owned {a x : Selected} (owned : Owned schema document a) {s : SelectionSet}
    (has : a.node.selectionSet = some s) {source : Option String} {fields : List Selected}
    (expands : Expands schema document (a.below schema) s source fields) (member : x ∈ fields) :
    Owned schema document x := by
  cases expands with
  | own => exact owned_of_mem (owned.below has member)
  | spread stands => exact owned_of_mem (fragment_inventory stands.member member)

/-- Fields that conflict have not met. -/
theorem unmet_of_conflicting (arguments : DistinctArguments document)
    (closed : Closed schema document starts made)
    (faced : ∀ a b exclusive, Handled made (.fragments exclusive a b) →
      Faced schema document made a b exclusive)
    {exclusive : Bool} {a b : Selected} (conflicting : Conflicting schema document exclusive a b)
    (first : Owned schema document a) (second : Owned schema document b) :
    ¬ Met made exclusive a b := by
  induction conflicting with
  | names same differ =>
    intro met
    obtain ⟨own, _⟩ := clean_of_met closed (first.distinct arguments) (second.distinct arguments) met
    exact differ (own same).1
  | arguments same differ =>
    intro met
    obtain ⟨own, _⟩ := clean_of_met closed (first.distinct arguments) (second.distinct arguments) met
    exact differ (own same).2
  | types left right conflict =>
    intro met
    obtain ⟨_, types⟩ := clean_of_met closed (first.distinct arguments) (second.distinct arguments) met
    rw [types _ _ left right] at conflict
    cases conflict
  | inside hasFirst hasSecond left right member other apart same _ ih =>
    intro met
    exact ih (left.owned first hasFirst member) (right.owned second hasSecond other)
      (inside_met closed faced met hasFirst hasSecond left right member other apart same)

end Conflicts
end GraphQL.Validation.Overlap
