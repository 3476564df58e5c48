import GraphQL.Proofs.Execution.Deferral
import GraphQL.Proofs.Execution.Outside

/-! Failures are isolated where a null may stand. If two hosts give the same replies but to the
field of one position, which may be null, then what an execution amounts to is the same outside
that position: its data, in which the same keys come in the same order, and its errors. -/
namespace GraphQL.Execution

variable {τ σ ρ : Type}

/-- Replies that decide types alike, and are the same for all fields but those of one position. -/
structure Replies.SameOutside (path : Path) (first second : Replies τ) : Prop where
  typeName : first.typeName = second.typeName
  isTypeOf : first.isTypeOf = second.isTypeOf
  resolveType : first.resolveType = second.resolveType
  resolve : ∀ source arguments info, info.path ≠ path →
    first.resolve source arguments info = second.resolve source arguments info

/-- The positions that an execution comes to, each with the type that its reply is completed at. -/
inductive Replies.Reaches (replies : Replies τ) (plan : Plan τ) (root : ObjectType) :
    Site → TypeRef → Path → Reply τ → Prop
  | root {key : String} {site : Site} :
      (key, site) ∈ replies.sites plan root [plan.operation.selectionSet] →
      Reaches replies plan root site site.field.type [.key key]
        (replies.call plan site [.key key] plan.root)
  | nonNull {site : Site} {inner : TypeRef} {path : Path} {reply : Reply τ} :
      Reaches replies plan root site (.nonNull inner) path reply →
      Reaches replies plan root site inner path reply
  | item {site : Site} {item : TypeRef} {path : Path} {items : List (Reply τ)} {index : Nat}
      {reply : Reply τ} : Reaches replies plan root site (.list item) path (.items items) →
      items[index]? = some reply →
      Reaches replies plan root site item (path ++ [.index index]) reply
  | field {site inner : Site} {name key : String} {path : Path} {value : FieldValue τ}
      {object : ObjectType} : Reaches replies plan root site (.named name) path (.value value) →
      value.isNull = false → replies.Chooses plan site path name value (.ok object) →
      (key, inner) ∈ replies.sites plan object (setsOf site.nodes) →
      Reaches replies plan root inner inner.field.type (path ++ [.key key])
        (replies.call plan inner (path ++ [.key key]) value)

section Amounting
variable {plan : Plan τ} {root : ObjectType} {replies others : Replies τ} {site : Site}
  {type : TypeRef} {path rest : Path} {reply : Reply τ} {verdict other : Verdict}

theorem Replies.SameOutside.chooses (alike : replies.SameOutside path others) {position : Path}
    {name : String} {value : FieldValue τ} {answer : Except Outcome ObjectType}
    (chosen : replies.Chooses plan site position name value answer) :
    others.Chooses plan site position name value answer := by
  have same : replies.host = others.host := by
    rw [Replies.host, Replies.host, alike.typeName, alike.isTypeOf, alike.resolveType]
  rwa [Replies.Chooses, Replies.executor, same] at chosen

theorem Replies.SameOutside.call (alike : replies.SameOutside path others) {position : Path}
    (apart : position ≠ path) (site : Site) (source : FieldValue τ) :
    replies.call plan site position source = others.call plan site position source := by
  rw [Replies.call, Replies.call]
  split
  · exact alike.resolve _ _ _ apart
  · rfl

theorem Replies.Chooses.confined {name : String} {value : FieldValue τ} {outcome : Outcome}
    (chosen : replies.Chooses plan site path name value (.error outcome)) :
    Verdict.Confined path ⟨outcome, []⟩ := by
  have judges : Judges (replies.executor plan) (fun _ => True) site :=
    ⟨fun _ _ _ _ _ => trivial, fun _ _ _ _ _ => trivial⟩
  obtain ⟨answer, _, run, -, decided⟩ := objectType_consults judges path name value ⟨(), []⟩ trivial
  rw [chosen] at run
  cases run
  refine ⟨fun _ member => absurd member List.not_mem_nil, fun error fails => ?_⟩
  obtain rfl : outcome = .error error := fails
  exact Recorded.below decided error List.mem_cons_self

theorem Replies.Reaches.places (reached : replies.Reaches plan root site type path reply) :
    plan.Places root site type := by
  induction reached with
  | root member => exact ⟨@resolves_of_mem _ _ (replies.executor plan) _ _ _ _ _ .root member, rfl⟩
  | nonNull _ ih => exact ih
  | item _ _ ih => exact ih
  | @field site inner name key path value object _ _ chosen member ih =>
    obtain ⟨resolves, innermost⟩ := ih
    have innermost : name = site.field.type.innermost := innermost
    have reached := reaches_of_resolves resolves (innermost ▸ chosen.runtime)
    exact ⟨@resolves_of_mem _ _ (replies.executor plan) _ _ _ _ _ reached member, rfl⟩

/-- The errors of a position arise from it and below. -/
theorem Amounts.confined (amounts : Amounts plan replies site type path reply verdict) :
    verdict.Confined path := by
  induction amounts with
  | failed => exact .failed _ _ _
  | nonNull _ _ ih => exact ih.require _
  | @list site item path items verdict _ ih =>
    exact .join fun index member =>
      (ih index _ (List.getElem?_eq_getElem (List.mem_range.1 member))).guardAt item
  | unlisted =>
    split
    · exact .null _
    · exact .failed _ _ _
  | null => exact .null _
  | settled _ chosen => exact chosen.confined
  | @object site name path value object verdict _ _ _ ih =>
    rw [Verdict.object_eq]
    refine .join fun piece member => (ih piece.2 piece.1.1 piece.1.2 ?_).guardAt _
    exact List.mem_zipIdx_iff_getElem?.1 member

/-- Away from the position, replies amount to the same. -/
theorem Amounts.apart (alike : replies.SameOutside path others) {position : Path}
    (amounts : Amounts plan replies site type position reply verdict)
    (apart : ∀ rest, rest ≠ [] → position ++ rest ≠ path) :
    Amounts plan others site type position reply verdict := by
  have further {position : Path} (segment : PathSegment)
      (apart : ∀ rest, rest ≠ [] → position ++ rest ≠ path) (rest : Path) (_ : rest ≠ []) :
      position ++ [segment] ++ rest ≠ path := by
    rw [List.append_assoc]
    exact apart _ (by simp)
  induction amounts with
  | failed => exact .failed
  | nonNull stands _ ih => exact .nonNull stands (ih apart)
  | list _ ih => exact .list fun index reply known => ih index reply known (further _ apart)
  | unlisted => exact .unlisted
  | null null => exact .null null
  | settled solid chosen => exact .settled solid (alike.chooses chosen)
  | object solid chosen _ ih =>
    refine .object solid (alike.chooses chosen) fun index key inner known => ?_
    rw [← alike.call (apart [.key key] (by simp))]
    exact ih index key inner known (further _ apart)

theorem addresses_sites (replies : Replies τ) (plan : Plan τ) (object : ObjectType)
    (sets : List Ast.SelectionSet) :
    Shape.Addresses (.object ((replies.sites plan object sets).map Prod.fst))
      ((replies.sites plan object sets).zipIdx.map fun piece => .key piece.1.1) := by
  have segments : (replies.sites plan object sets).zipIdx.map (fun piece =>
      PathSegment.key piece.1.1) = (replies.sites plan object sets).map fun found =>
        .key found.1 := by
    conv => rhs; rw [← List.zipIdx_map_fst 0 (replies.sites plan object sets), List.map_map]
    rfl
  rw [segments]
  exact sites_addresses (replies.executor plan) object sets

/-- The verdicts on objects whose fields amount to the same outside the position. -/
theorem object_sameOutside (replies : Replies τ) (plan : Plan τ) (object : ObjectType)
    (sets : List Ast.SelectionSet) {first second : Nat → Verdict} {step : PathSegment}
    (meets : ∀ index key site, (replies.sites plan object sets)[index]? = some (key, site) →
      .key key = step → ((first index).guardAt site.field.type).SameOutside path rest
        ((second index).guardAt site.field.type))
    (apart : ∀ index key site, (replies.sites plan object sets)[index]? = some (key, site) →
      .key key ≠ step → first index = second index) :
    (Verdict.object (replies.sites plan object sets) first).SameOutside path (step :: rest)
      (.object (replies.sites plan object sets) second) := by
  rw [Verdict.object_eq, Verdict.object_eq]
  refine Verdict.join_sameOutside (addresses_sites replies plan object sets)
    (fun piece member same => ?_) fun piece member differ => ?_
  all_goals
    obtain ⟨⟨key, site⟩, index⟩ := piece
    have known := List.mem_zipIdx_iff_getElem?.1 member
  · exact meets index key site known same
  · rw [apart index key site known differ]

/-- A field at the position or above it is answered with the same outside the position, if what is
below it is. -/
theorem field_sameOutside (alike : replies.SameOutside path others)
    (nullable : ∀ site type reply, replies.Reaches plan root site type path reply →
      site.field.type.isNonNull = false) {position : Path} {source : FieldValue τ}
    (leads : path = position ++ rest)
    (reached : replies.Reaches plan root site site.field.type position
      (replies.call plan site position source))
    (first : Amounts plan replies site site.field.type position
      (replies.call plan site position source) verdict)
    (second : Amounts plan others site site.field.type position
      (others.call plan site position source) other)
    (inside : rest ≠ [] → Amounts plan others site site.field.type position
      (replies.call plan site position source) other → verdict.SameOutside path rest other) :
    (verdict.guardAt site.field.type).SameOutside path rest (other.guardAt site.field.type) := by
  by_cases last : rest = []
  · subst last
    rw [List.append_nil] at leads
    subst leads
    exact first.confined.sameOutside second.confined (nullable site _ _ reached)
  · have apart : position ≠ path := fun same => last (by simpa [same] using leads)
    rw [← alike.call apart] at second
    exact (inside last second).guardAt _

/-- A field away from the position is answered with the same. -/
theorem field_apart (alike : replies.SameOutside path others) {position : Path}
    {source : FieldValue τ} (apart : ∀ rest, position ++ rest ≠ path)
    (first : Amounts plan replies site type position (replies.call plan site position source)
      verdict)
    (second : Amounts plan others site type position (others.call plan site position source)
      other) : verdict = other := by
  have here : position ≠ path := by simpa using apart []
  rw [← alike.call here] at second
  exact (first.apart alike fun rest _ => apart rest).unique second

theorem append_ne {position : Path} {segment step : PathSegment} (leads : path = position ++ step :: rest)
    (differ : segment ≠ step) (more : Path) : position ++ [segment] ++ more ≠ path := by
  rw [leads, List.append_assoc, Ne, List.append_cancel_left_eq]
  exact fun same => differ (List.cons.inj same).1

/-- A reply above the position amounts to the same outside it, where the field of the position may
be null. -/
theorem Amounts.sameOutside (alike : replies.SameOutside path others)
    (nullable : ∀ site type reply, replies.Reaches plan root site type path reply →
      site.field.type.isNonNull = false) {position : Path} (below : rest ≠ [])
    (leads : path = position ++ rest) (reached : replies.Reaches plan root site type position reply)
    (first : Amounts plan replies site type position reply verdict)
    (second : Amounts plan others site type position reply other) :
    verdict.SameOutside path rest other := by
  induction first generalizing other rest with
  | failed =>
    cases second with
    | failed => exact .refl _
    | nonNull stands => cases stands
  | @nonNull site inner position reply verdict stands _ ih =>
    cases second with
    | failed => cases stands
    | nonNull _ again => exact (ih below leads reached.nonNull again).require below site position
  | @list site item position items verdict amounts ih =>
    cases second with
    | @list _ _ _ _ other again =>
      obtain ⟨step, rest, rfl⟩ := List.exists_cons_of_ne_nil below
      refine Verdict.join_sameOutside (.list items.length) (fun index member same => ?_)
        fun index member differ => ?_
      all_goals
        have known := List.getElem?_eq_getElem (List.mem_range.1 member)
        have first := amounts index _ known
        have second := again index _ known
      · subst same
        refine Verdict.SameOutside.guardAt ?_ item
        by_cases last : rest = []
        · -- The position is that of the item, which is the same: its fields are further below.
          rw [(first.apart alike fun more some same => some (by simpa [leads, last] using same)
            ).unique second]
          exact .refl _
        · exact ih index _ known last (by rw [leads, List.append_assoc]; rfl)
            (reached.item known) second
      · rw [(first.apart alike fun more _ => append_ne leads differ more).unique second]
  | unlisted =>
    cases second with
    | unlisted => exact .refl _
  | null null =>
    cases second with
    | null => exact .refl _
    | settled solid | object solid =>
      rw [null] at solid
      cases solid
  | settled solid chosen =>
    cases second with
    | null null =>
      rw [null] at solid
      cases solid
    | settled _ again =>
      cases (alike.chooses chosen).unique again
      exact .refl _
    | object _ again => cases (alike.chooses chosen).unique again
  | @object site name position value object verdict solid chosen amounts ih =>
    cases second with
    | null null =>
      rw [null] at solid
      cases solid
    | settled _ again => cases (alike.chooses chosen).unique again
    | object _ again others =>
      cases (alike.chooses chosen).unique again
      obtain ⟨step, rest, rfl⟩ := List.exists_cons_of_ne_nil below
      refine object_sameOutside replies plan object (setsOf site.nodes)
        (fun index key inner known same => ?_) fun index key inner known differ => ?_
      · subst same
        have reached := reached.field solid chosen (List.mem_of_getElem? known)
        have leads : path = position ++ [.key key] ++ rest := by rw [leads, List.append_assoc]; rfl
        exact field_sameOutside alike nullable leads reached (amounts index key inner known)
          (others index key inner known) fun last again =>
            ih index key inner known last leads reached again
      · exact field_apart alike (append_ne leads differ) (amounts index key inner known)
          (others index key inner known)

/-- Fields that are settled in turn are answered with the same away from the position. -/
theorem Sequence.apart (alike : replies.SameOutside path others) {before : List String}
    {sites : List (String × Site)} {result : Except ResponseError (Entries Value)}
    {errors : List ResponseError}
    (sequence : Sequence plan (fun _ => replies) before sites result errors)
    (apart : ∀ key ∈ sites.map Prod.fst, ∀ rest, [.key key] ++ rest ≠ path) :
    Sequence plan (fun _ => others) before sites result errors := by
  induction sequence with
  | nil => exact .nil
  | stopped amounts fails =>
    have elsewhere := apart _ List.mem_cons_self
    rw [alike.call (by simpa using elsewhere [])] at amounts
    exact .stopped (amounts.apart alike fun rest _ => elsewhere rest) fails
  | settled amounts stands _ ih =>
    have elsewhere := apart _ List.mem_cons_self
    rw [alike.call (by simpa using elsewhere [])] at amounts
    exact .settled (amounts.apart alike fun rest _ => elsewhere rest) stands
      (ih fun key member => apart key (List.mem_cons_of_mem _ member))

/-- A field of the root is at the position or above it, or it is away from the position. -/
theorem rootField_sameOutside (alike : replies.SameOutside path others)
    (nullable : ∀ site type reply, replies.Reaches plan root site type path reply →
      site.field.type.isNonNull = false) {key : String}
    (reached : replies.Reaches plan root site site.field.type [.key key]
      (replies.call plan site [.key key] plan.root))
    (first : Amounts plan replies site site.field.type [.key key]
      (replies.call plan site [.key key] plan.root) verdict)
    (second : Amounts plan others site site.field.type [.key key]
      (others.call plan site [.key key] plan.root) other) :
    (∃ rest, path = .key key :: rest ∧
      (verdict.guardAt site.field.type).SameOutside path rest (other.guardAt site.field.type)) ∨
    (∀ rest, path ≠ .key key :: rest) ∧ verdict = other := by
  by_cases leads : ∃ rest, path = .key key :: rest
  · obtain ⟨rest, leads⟩ := leads
    exact .inl ⟨rest, leads, field_sameOutside alike nullable leads reached first second
      fun below again => first.sameOutside alike nullable below leads reached again⟩
  · have apart (rest : Path) : path ≠ .key key :: rest := fun same => leads ⟨rest, same⟩
    exact .inr ⟨apart, field_apart alike (fun rest same => apart rest same.symm) first second⟩

/-- Fields that are settled in turn are answered with the same outside the position. -/
theorem Sequence.sameOutside (alike : replies.SameOutside path others)
    (nullable : ∀ site type reply, replies.Reaches plan root site type path reply →
      site.field.type.isNonNull = false) {before : List String} {sites : List (String × Site)}
    (distinct : (sites.map Prod.fst).Nodup)
    (reached : ∀ key site, (key, site) ∈ sites → replies.Reaches plan root site site.field.type
      [.key key] (replies.call plan site [.key key] plan.root))
    {result final : Except ResponseError (Entries Value)} {errors more : List ResponseError}
    (first : Sequence plan (fun _ => replies) before sites result errors)
    (second : Sequence plan (fun _ => others) before sites final more) :
    Verdict.SameOutside path path ⟨result.map .object, errors⟩ ⟨final.map .object, more⟩ := by
  have ends {rest : Path} {first second : Verdict} {outcome other : Outcome}
      {errors more : List ResponseError} (same : first.SameOutside path rest second)
      (here : first = ⟨outcome, errors⟩) (there : second = ⟨other, more⟩) :
      Matches rest outcome other ∧ errors.filter (ResponseError.outside path) =
        more.filter (ResponseError.outside path) := by
    subst here there
    exact ⟨same.outcome, same.errors⟩
  induction first generalizing final more with
  | nil =>
    cases second
    exact .refl _
  | @stopped before key site sites verdict error errors amounts fails =>
    cases second with
    | stopped again likewise =>
      obtain ⟨rest, _, same⟩ | ⟨_, rfl⟩ := rootField_sameOutside alike nullable
        (reached key site List.mem_cons_self) amounts again
      · obtain ⟨matching, same⟩ := ends same fails likewise
        cases matching
        exact ⟨.error, same⟩
      · rw [fails] at likewise
        cases likewise
        exact .refl _
    | settled again likewise =>
      obtain ⟨rest, _, same⟩ | ⟨_, rfl⟩ := rootField_sameOutside alike nullable
        (reached key site List.mem_cons_self) amounts again
      · cases (ends same fails likewise).1
      · rw [fails] at likewise
        cases likewise
  | @settled before key site sites verdict value errors later result amounts stands sequence ih =>
    obtain ⟨fresh, distinct⟩ := List.nodup_cons.1 distinct
    cases second with
    | stopped again likewise =>
      obtain ⟨rest, _, same⟩ | ⟨_, rfl⟩ := rootField_sameOutside alike nullable
        (reached key site List.mem_cons_self) amounts again
      · cases (ends same stands likewise).1
      · rw [stands] at likewise
        cases likewise
    | @settled _ _ _ _ _ _ _ more final again likewise others =>
      obtain ⟨rest, rfl, same⟩ | ⟨apart, rfl⟩ := rootField_sameOutside alike nullable
        (reached key site List.mem_cons_self) amounts again
      · obtain ⟨matching, same⟩ := ends same stands likewise
        have elsewhere : ∀ name ∈ sites.map Prod.fst, ∀ more,
            [.key name] ++ more ≠ .key key :: rest := by
          rintro _ member more same
          cases same
          exact fresh member
        obtain ⟨rfl, rfl⟩ := (sequence.apart alike elsewhere).unique others
        refine ⟨?_, ?_⟩
        · cases matching with
          | ok values =>
            cases result with
            | error => exact .error
            | ok entries =>
              exact .ok (@Value.SameOutside.key key rest [] entries _ _ List.not_mem_nil values)
        · rw [List.filter_append, List.filter_append, same]
      · rw [stands] at likewise
        cases likewise
        obtain ⟨matching, same⟩ := ih distinct
          (fun key site member => reached key site (List.mem_cons_of_mem _ member)) others
        refine ⟨?_, ?_⟩
        · cases result with
          | error =>
            cases final with
            | error =>
              cases matching
              exact .error
            | ok => cases matching
          | ok entries =>
            cases final with
            | error => cases matching
            | ok others =>
              cases matching with
              | ok values => exact .ok (values.cons apart)
        · rw [List.filter_append, List.filter_append]
          exact congrArg _ same

/-- Operations amount to the same outside the position. -/
theorem Results.sameOutside (alike : replies.SameOutside path others)
    (nullable : ∀ site type reply, replies.Reaches plan root site type path reply →
      site.field.type.isNonNull = false)
    (first : Results plan (fun _ => replies) root verdict)
    (second : Results plan (fun _ => others) root other) :
    verdict.SameOutside path path other := by
  have keys : (replies.sites plan root [plan.operation.selectionSet]).map Prod.fst =
      plan.answered root [plan.operation.selectionSet] :=
    keys_sites (replies.executor plan) root [plan.operation.selectionSet]
  cases first with
  | mutation kind sequence =>
    cases second with
    | mutation _ again =>
      exact sequence.sameOutside alike nullable (keys ▸ answered_nodup plan root _)
        (fun key site member => .root member) again
    | together other => exact absurd kind other
  | together other amounts =>
    cases second with
    | mutation kind => exact absurd kind other
    | @together second _ again =>
      have same (index : Nat) (key : String) (site : Site)
          (known : (replies.sites plan root [plan.operation.selectionSet])[index]? =
            some (key, site)) :=
        rootField_sameOutside alike nullable (.root (List.mem_of_getElem? known))
          (amounts index key site known) (again index key site known)
      cases path with
      | nil =>
        rw [verdict_object_congr fun index inside => ?_]
        · exact .refl _
        · obtain ⟨_, none, _⟩ | ⟨_, equal⟩ := same index _ _ (List.getElem?_eq_getElem inside)
          · cases none
          · exact equal
      | cons step rest =>
        refine object_sameOutside replies plan root [plan.operation.selectionSet]
          (fun index key site known here => ?_) fun index key site known differ => ?_
        · obtain ⟨_, leads, equal⟩ | ⟨apart, _⟩ := same index key site known
          · cases leads
            exact equal
          · exact absurd (here ▸ rfl) (apart rest)
        · obtain ⟨_, leads, _⟩ | ⟨_, equal⟩ := same index key site known
          · cases leads
            exact absurd rfl differ
          · exact equal

end Amounting
theorem respond_sameOutside {path : Path} {first : Trace σ} {second : Trace ρ}
    {outcome other : Outcome} (matching : Matches path outcome other)
    (same : (first.errors.filter (ResponseError.outside path)).Perm
      (second.errors.filter (ResponseError.outside path))) :
    Option.Rel (Value.SameOutside path) (respond first outcome).data (respond second other).data ∧
      ((respond first outcome).errors.filter (ResponseError.outside path)).Perm
        ((respond second other).errors.filter (ResponseError.outside path)) := by
  cases matching with
  | ok values => exact ⟨.some values, same⟩
  | error =>
    refine ⟨.some .same, ?_⟩
    rw [respond, respond, List.filter_append, List.filter_append]
    exact same.append_right _

/-- What a result comes to depends on what the host computes only. -/
theorem Comes.transfer {host other : Host τ σ} {I : σ → Prop} {type : TypeRef}
    {result : FieldResult τ} {reply : Reply τ} (same : host.compute = other.compute)
    (comes : Comes host I type result reply) : Comes other I type result reply := by
  induction comes with
  | failed => exact .failed
  | deferred keeps _ ih => exact .deferred (same ▸ keeps) (same ▸ ih)
  | nonNull here _ ih => exact .nonNull here ih
  | items items lengths _ ih => exact .items items lengths ih
  | unlisted here none => exact .unlisted here none
  | named here => exact .named here

section Losing

/-- Puts off a name that it then fails to tell, but else knows what the host that is late does. -/
def losingHost : Host Pending Unit :=
  { pendingHost true with
    resolve := fun handle value arguments info =>
      if info.path = [.key "names"] then
        return .ok (.list [.deferred ⟨0, .slow⟩, .value (.string "c")])
      else (pendingHost true).resolve handle value arguments info }

def losingReplies : Replies Pending :=
  { pendingReplies with
    resolve := fun value arguments info =>
      if info.path = [.key "names"] then .items [.failed "timed out", .value (.value (.string "c"))]
      else pendingReplies.resolve value arguments info }

def losingExecutor : Executor Pending Unit := { pendingExecutor true with host := losingHost }

theorem pending_rootSites {key : String} {site : Site}
    (member : (key, site) ∈ losingExecutor.sites pendingType
      (losingExecutor.plan.collect pendingType [pendingOperation.selectionSet])) :
    key = "names" ∧ site = ⟨pendingType, namesField, [pendingNode "names"]⟩ ∨
      key = "slow" ∧ site = ⟨pendingType, slowField, [pendingNode "slow"]⟩ := by
  have sites : losingExecutor.sites pendingType
      (losingExecutor.plan.collect pendingType [pendingOperation.selectionSet]) =
      [("names", ⟨pendingType, namesField, [pendingNode "names"]⟩),
        ("slow", ⟨pendingType, slowField, [pendingNode "slow"]⟩)] := by cbv
  rw [sites, List.mem_pair] at member
  rcases member with same | same
  all_goals cases same
  · exact .inl ⟨rfl, rfl⟩
  · exact .inr ⟨rfl, rfl⟩

theorem losing_call (site : Site) {path : Path} (apart : path ≠ [.key "names"])
    (source : FieldValue Pending) : losingReplies.call losingExecutor.plan site path source =
      pendingReplies.call losingExecutor.plan site path source := by
  rw [Replies.call, Replies.call]
  split
  · exact if_neg apart
  · rfl

/-- The names are lost where they are asked for at the root, and nothing else is. -/
theorem losingHost_gives : Gives losingExecutor pendingType (fun _ => losingReplies)
    fun _ _ => True := by
  have elsewhere {site : Site} (resolves : losingExecutor.plan.Resolves pendingType site)
      {path : Path} (apart : path ≠ [.key "names"]) (source : FieldValue Pending) :
      Supplies losingExecutor (fun _ => True) (fun _ => True) losingReplies site path source := by
    intro state holds
    obtain ⟨_, comes⟩ := pendingHost_comes true resolves path source state holds
    refine ⟨trivial, ?_⟩
    rw [losing_call site apart]
    have same : losingExecutor.supply site path source =
        (pendingExecutor true).supply site path source := by
      rcases @pending_resolves true site resolves with rfl | rfl <;> exact if_neg apart
    have computes : (pendingExecutor true).host.compute = losingExecutor.host.compute := rfl
    rw [same]
    exact comes.transfer computes
  refine ⟨fun before key site member => ?_, fun called => ?_⟩
  · rcases pending_rootSites member with ⟨rfl, rfl⟩ | ⟨rfl, rfl⟩
    · refine fun state _ => ⟨trivial, .items rfl rfl fun index other reply here there => ?_⟩
      match index with
      | 0 =>
        cases here
        cases there
        exact .deferred (fun _ _ => trivial) fun _ _ => .failed
      | 1 =>
        cases here
        cases there
        exact .nonNull rfl (.named rfl)
    · exact elsewhere (resolves_of_mem .root member) (by decide) _
  · refine ⟨fun _ _ => ⟨rfl, fun _ _ _ _ _ => ⟨trivial, rfl⟩, fun _ _ _ _ _ => ⟨trivial, rfl⟩⟩,
      fun _ resolves path key source deep => elsewhere resolves (fun same => deep ?_) source⟩
    exact (List.append_eq_singleton_iff.1 same).elim And.left fun other => nomatch other.2

end Losing

/-- Two hosts give the same replies but to the field of one position, which may be null. Then their
responses are the same outside the position: the data is, and the position is there in both or in
neither; and so are the errors that arose elsewhere, in some order. -/
theorem execute_isolates {schema : Schema} {request : Request τ σ} {host : Host τ σ}
    {other : Host τ ρ} {replies others : Replies τ} {I : List String → σ → Prop}
    {J : List String → ρ → Prop} {path : Path} {state after : σ} {start last : ρ}
    {limits further : Limits} {response answer : Response}
    (gives : ∀ executor root, prepare schema host request.alone = .ok (executor, root) →
      Gives executor root (fun _ => replies) I)
    (likewise : ∀ executor root, prepare schema other request.alone = .ok (executor, root) →
      Gives executor root (fun _ => others) J)
    (alike : replies.SameOutside path others)
    (nullable : ∀ executor root, prepare schema host request.alone = .ok (executor, root) →
      ∀ site type reply, replies.Reaches executor.plan root site type path reply →
        site.field.type.isNonNull = false)
    (holds : I [] state) (begins : J [] start)
    (ran : execute limits schema host request.alone state = some (response, after))
    (again : execute further schema other request.alone start = some (answer, last)) :
    Option.Rel (Value.SameOutside path) response.data answer.data ∧
      (response.data.bind fun data => data.at? path).isSome =
        (answer.data.bind fun data => data.at? path).isSome ∧
      (response.errors.filter (ResponseError.outside path)).Perm
        (answer.errors.filter (ResponseError.outside path)) := by
  have both := prepare_alone schema request host other
  cases prepared : prepare schema host request.alone with
  | error errors =>
    have refused : prepare schema other request.alone = .error errors := by
      rw [both, prepared]
      rfl
    rw [execute, prepared] at ran
    rw [execute, refused] at again
    cases ran
    cases again
    exact ⟨.none, rfl, .refl _⟩
  | ok found =>
    obtain ⟨executor, root⟩ := found
    have also : prepare schema other request.alone = .ok (⟨executor.plan, other, []⟩, root) := by
      rw [both, prepared]
      rfl
    obtain ⟨outcome, trace, run, rfl, -⟩ := execute_prepared prepared ran
    obtain ⟨final, later, run', rfl, -⟩ := execute_prepared also again
    obtain ⟨-, errors, added, verdict, results, rfl, perm⟩ :=
      operation_results (gives _ _ prepared) _ outcome trace holds run
    obtain ⟨-, more, addedLater, second, likeResults, rfl, same⟩ :=
      operation_results (likewise _ _ also) _ final later begins run'
    obtain ⟨matching, errorsAlike⟩ :=
      results.sameOutside alike (nullable _ _ prepared) likeResults
    have errorsSame : (trace.errors.filter (ResponseError.outside path)).Perm
        (later.errors.filter (ResponseError.outside path)) := by
      rw [added, addedLater]
      exact (perm.filter _).trans (errorsAlike ▸ (same.filter _).symm)
    obtain ⟨data, errors⟩ := respond_sameOutside matching errorsSame
    refine ⟨data, ?_, errors⟩
    generalize (respond trace verdict.outcome).data = first at data
    generalize (respond later second.outcome).data = other at data
    cases data with
    | none => rfl
    | some values => exact values.at?_isSome

/-- One name fails to come and so all of them are null, while the other field and its error stay. -/
theorem execute_isolates_names : ∃ response answer,
    execute ⟨6, 5⟩ pendingSchema (pendingHost true) pendingRequest.alone () = some (response, ()) ∧
    execute ⟨6, 5⟩ pendingSchema losingHost pendingRequest.alone () = some (answer, ()) ∧
    response.data = some (.object [("names", .list [.string "b", .string "c"]), ("slow", .null)]) ∧
    answer.data = some (.object [("names", .null), ("slow", .null)]) ∧
    Option.Rel (Value.SameOutside [.key "names"]) response.data answer.data ∧
    (response.errors.filter (ResponseError.outside [.key "names"])).Perm
      (answer.errors.filter (ResponseError.outside [.key "names"])) := by
  have known : (execute ⟨6, 5⟩ pendingSchema (pendingHost true) pendingRequest.alone ()).map
      (fun answer => answer.1.data) =
      some (some (.object [("names", .list [.string "b", .string "c"]), ("slow", .null)])) := by cbv
  have lost : (execute ⟨6, 5⟩ pendingSchema losingHost pendingRequest.alone ()).map
      (fun answer => answer.1.data) =
      some (some (.object [("names", .null), ("slow", .null)])) := by cbv
  obtain ⟨⟨response, ⟨⟩⟩, ran, data⟩ := Option.map_eq_some_iff.1 known
  obtain ⟨⟨answer, ⟨⟩⟩, again, nulls⟩ := Option.map_eq_some_iff.1 lost
  have prepared : prepare pendingSchema losingHost pendingRequest.alone =
      .ok (losingExecutor, pendingType) := rfl
  have gives (executor : Executor Pending Unit) (root : ObjectType)
      (found : prepare pendingSchema (pendingHost true) pendingRequest.alone =
        .ok (executor, root)) : Gives executor root (fun _ => pendingReplies) fun _ _ => True := by
    rw [pendingRequest_prepared] at found
    cases found
    exact pendingHost_gives true
  have likewise (executor : Executor Pending Unit) (root : ObjectType)
      (found : prepare pendingSchema losingHost pendingRequest.alone = .ok (executor, root)) :
      Gives executor root (fun _ => losingReplies) fun _ _ => True := by
    rw [prepared] at found
    cases found
    exact losingHost_gives
  have alike : pendingReplies.SameOutside [.key "names"] losingReplies :=
    ⟨rfl, rfl, rfl, fun _ _ _ apart => (if_neg apart).symm⟩
  have nullable (executor : Executor Pending Unit) (root : ObjectType)
      (found : prepare pendingSchema (pendingHost true) pendingRequest.alone =
        .ok (executor, root)) (site : Site) (type : TypeRef) (reply : Reply Pending)
      (reached : pendingReplies.Reaches executor.plan root site type [.key "names"] reply) :
      site.field.type.isNonNull = false := by
    rw [pendingRequest_prepared] at found
    cases found
    rcases @pending_resolves true site reached.places.1 with rfl | rfl <;> rfl
  obtain ⟨same, -, errors⟩ :=
    execute_isolates gives likewise alike nullable trivial trivial ran again
  exact ⟨response, answer, ran, again, data, nulls, same, errors⟩

end GraphQL.Execution
