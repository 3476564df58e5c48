import Mathlib.Data.List.Forall2
import Mathlib.Data.List.Perm.Basic
import Mathlib.Tactic.Tauto
import GraphQL.Proofs.Ast.Fields
import GraphQL.Validation.Rule

/-! What rules see of the walk of a document. Every rule sees the same turns, whatever the
other rules do, so several rules find what each of them finds alone. -/
namespace GraphQL.Validation
open Ast (Node Document Call)

variable {ε : Type}

/-- A site, and whether its node is being left. -/
abbrev Turn := Bool × Site

/-- What a rule is told at each call of a walk. -/
def turns (schema : Schema) (document : Document) (scope : Scope) : List Call → List Turn
  | [] => []
  | ⟨false, node, ancestors⟩ :: rest =>
      let scope := scope.enter schema node
      (false, ⟨schema, document, scope, node, ancestors⟩) :: turns schema document scope rest
  | ⟨true, node, ancestors⟩ :: rest =>
      (true, ⟨schema, document, scope, node, ancestors⟩) ::
        turns schema document (scope.leave node) rest

/-- The turns of a whole document. -/
def documentTurns (schema : Schema) (document : Document) : List Turn :=
  turns schema document {} ((Node.document document).tree.calls [])

def Watch.turn {rule : Rule ε} (watch : Watch rule) (turn : Turn) : List ε × Watch rule :=
  if turn.1 then watch.leave turn.2 else watch.enter turn.2

/-- What a rule finds by itself. -/
def Watch.reports {rule : Rule ε} (watch : Watch rule) : List Turn → List ε
  | [] => []
  | turn :: rest => (watch.turn turn).1 ++ (watch.turn turn).2.reports rest

def Rule.reports (rule : Rule ε) (turns : List Turn) : List ε :=
  @Watch.reports ε rule (rule.start, .watching) turns

def Watches.turn {rules : List (Rule ε)} (watches : Watches rules) (turn : Turn) :
    List ε × Watches rules :=
  if turn.1 then Watches.leave turn.2 rules watches else Watches.enter turn.2 rules watches

def Watches.reports {rules : List (Rule ε)} (watches : Watches rules) : List Turn → List ε
  | [] => []
  | turn :: rest => (watches.turn turn).1 ++ (watches.turn turn).2.reports rest

theorem progress_fold (schema : Schema) (document : Document) (rules : List (Rule ε))
    (calls : List Call) (scope : Scope) (watches : Watches rules) (found : List ε) :
    (calls.foldl (visitor schema document rules).step ⟨scope, watches, found⟩).findings =
      found ++ watches.reports (turns schema document scope calls) := by
  induction calls generalizing scope watches found with
  | nil => simp [turns, Watches.reports]
  | cons call calls ih =>
    obtain ⟨leaving, node, ancestors⟩ := call
    cases leaving with
    | false =>
      have step := ih (scope.enter schema node)
      rw [List.foldl_cons, turns, Watches.reports, ← List.append_assoc]
      exact step _ _
    | true =>
      have step := ih (scope.leave node)
      rw [List.foldl_cons, turns, Watches.reports, ← List.append_assoc]
      exact step _ _

theorem findings_eq_reports (schema : Schema) (document : Document) (rules : List (Rule ε)) :
    findings schema rules document =
      (Watches.start rules).reports (documentTurns schema document) := by
  have thorough : (visitor schema document rules).Thorough := fun _ _ _ => ⟨rfl, rfl⟩
  have walked := Ast.Tree.walk_calls thorough [] ⟨{}, .start rules, []⟩ (Node.document document).tree
  have folded := progress_fold schema document rules ((Node.document document).tree.calls []) {}
    (.start rules) []
  rw [List.nil_append] at folded
  rw [documentTurns, ← folded]
  exact congrArg (fun result => result.2.findings) walked

theorem mem_watches_reports {rule : Rule ε} {rules : List (Rule ε)} (watch : Watch rule)
    (watches : Watches rules) (turns : List Turn) (f : ε) :
    f ∈ @Watches.reports ε (rule :: rules) (watch, watches) turns ↔
      f ∈ watch.reports turns ∨ f ∈ watches.reports turns := by
  induction turns generalizing watch watches with
  | nil => simp [Watches.reports, Watch.reports]
  | cons turn turns ih =>
    obtain ⟨leaving, site⟩ := turn
    have split : @Watches.turn ε (rule :: rules) (watch, watches) (leaving, site) =
        ((watch.turn (leaving, site)).1 ++ (watches.turn (leaving, site)).1,
          (watch.turn (leaving, site)).2, (watches.turn (leaving, site)).2) := by
      cases leaving <;> rfl
    simp only [Watches.reports, Watch.reports, split, List.mem_append, ih]
    tauto

theorem watches_nil_reports (watches : Watches ([] : List (Rule ε))) (turns : List Turn) :
    watches.reports turns = [] := by
  induction turns generalizing watches with
  | nil => rfl
  | cons turn turns ih =>
    obtain ⟨leaving, site⟩ := turn
    cases leaving <;> exact ih _

theorem watches_singleton_reports {rule : Rule ε} (watch : Watch rule)
    (watches : Watches ([] : List (Rule ε))) (turns : List Turn) :
    @Watches.reports ε [rule] (watch, watches) turns = watch.reports turns := by
  induction turns generalizing watch watches with
  | nil => rfl
  | cons turn turns ih =>
    obtain ⟨leaving, site⟩ := turn
    have split : @Watches.turn ε [rule] (watch, watches) (leaving, site) =
        ((watch.turn (leaving, site)).1, (watch.turn (leaving, site)).2, ()) := by
      cases leaving <;> exact Prod.ext (List.append_nil _) rfl
    simp only [Watches.reports, Watch.reports, split]
    exact congrArg (_ ++ ·) (ih _ _)

/-- Several rules find what each of them finds. -/
theorem mem_findings {schema : Schema} {document : Document} {rules : List (Rule ε)} {f : ε} :
    f ∈ findings schema rules document ↔
      ∃ rule ∈ rules, f ∈ rule.reports (documentTurns schema document) := by
  rw [findings_eq_reports]
  generalize documentTurns schema document = turns
  induction rules with
  | nil =>
    simp [watches_nil_reports]
  | cons rule rules ih =>
    simp only [List.mem_cons, exists_eq_or_imp, ← ih]
    exact mem_watches_reports _ _ _ _

/-- One rule finds its reports. -/
theorem findings_singleton (schema : Schema) (document : Document) (rule : Rule ε) :
    findings schema [rule] document = rule.reports (documentTurns schema document) := by
  rw [findings_eq_reports]
  exact watches_singleton_reports _ _ _

end GraphQL.Validation

/-! The shares of several rules in what they find together. At each call of the walk every rule adds
what it finds there by itself, in the order of the rules. -/
namespace GraphQL.Validation
open Ast (Node Document Call)

variable {ε δ : Type}

/-- What a rule finds at each of some turns. -/
def Watch.reportsByTurn {rule : Rule ε} (watch : Watch rule) : List Turn → List (List ε)
  | [] => []
  | turn :: rest => (watch.turn turn).1 :: (watch.turn turn).2.reportsByTurn rest

def Rule.reportsByTurn (rule : Rule ε) (turns : List Turn) : List (List ε) :=
  @Watch.reportsByTurn ε rule (rule.start, .watching) turns

/-- What several rules find at each of some turns. -/
def Watches.reportsByTurn {rules : List (Rule ε)} (watches : Watches rules) :
    List Turn → List (List ε)
  | [] => []
  | turn :: rest => (watches.turn turn).1 :: (watches.turn turn).2.reportsByTurn rest

/-- A visitor that keeps apart what each call adds to the findings. -/
def observer (schema : Schema) (document : Document) (rules : List (Rule ε)) :
    Ast.Visitor (Progress rules × List (List ε)) where
  enter node ancestors := fun (progress, calls) =>
    let (action, next) := (visitor schema document rules).enter node ancestors progress
    (action, next, calls ++ [next.findings.drop progress.findings.length])
  leave node ancestors := fun (progress, calls) =>
    let (action, next) := (visitor schema document rules).leave node ancestors progress
    (action, next, calls ++ [next.findings.drop progress.findings.length])

/-- Everything that the rules find in a document, call by call. -/
def findingsByCall (schema : Schema) (rules : List (Rule ε)) (document : Document) : List (List ε) :=
  (((Node.document document).walk (observer schema document rules)).run
    (⟨{}, .start rules, []⟩, [])).2.2

/-- The rules report their findings with their own numbers. -/
def numbered (rules : List (Rule ε)) (first : Nat) : List (Rule (Nat × ε)) :=
  (rules.zipIdx first).map fun (rule, number) => rule.map (Prod.mk number)

/-- What has been reported with a number. -/
def share (number : Nat) (findings : List (Nat × ε)) : List ε :=
  findings.filterMap fun (other, finding) => if other = number then some finding else none

section ByTurn

theorem Watch.reports_eq_flatten {rule : Rule ε} (watch : Watch rule) (turns : List Turn) :
    watch.reports turns = (watch.reportsByTurn turns).flatten := by
  induction turns generalizing watch with
  | nil => rfl
  | cons turn rest ih => rw [Watch.reports, Watch.reportsByTurn, List.flatten_cons, ih]

theorem Watches.reports_eq_flatten {rules : List (Rule ε)} (watches : Watches rules)
    (turns : List Turn) : watches.reports turns = (watches.reportsByTurn turns).flatten := by
  induction turns generalizing watches with
  | nil => rfl
  | cons turn rest ih => rw [Watches.reports, Watches.reportsByTurn, List.flatten_cons, ih]

theorem Watch.reportsByTurn_length {rule : Rule ε} (watch : Watch rule) (turns : List Turn) :
    (watch.reportsByTurn turns).length = turns.length := by
  induction turns generalizing watch with
  | nil => rfl
  | cons turn rest ih => rw [Watch.reportsByTurn, List.length_cons, List.length_cons, ih]

theorem observed (schema : Schema) (document : Document) (rules : List (Rule ε)) (calls : List Call)
    (scope : Scope) (watches : Watches rules) (found : List ε) (before : List (List ε)) :
    (calls.foldl (observer schema document rules).step (⟨scope, watches, found⟩, before)).2 =
      before ++ watches.reportsByTurn (turns schema document scope calls) := by
  induction calls generalizing scope watches found before with
  | nil => simp [turns, Watches.reportsByTurn]
  | cons call calls ih =>
    obtain ⟨leaving, node, ancestors⟩ := call
    cases leaving with
    | false =>
      have step := ih (scope.enter schema node)
      rw [List.foldl_cons, turns, Watches.reportsByTurn, List.append_cons]
      refine (step _ _ _).trans ?_
      rw [List.drop_left]
      rfl
    | true =>
      have step := ih (scope.leave node)
      rw [List.foldl_cons, turns, Watches.reportsByTurn, List.append_cons]
      refine (step _ _ _).trans ?_
      rw [List.drop_left]
      rfl

theorem findingsByCall_eq_reports (schema : Schema) (document : Document) (rules : List (Rule ε)) :
    findingsByCall schema rules document =
      (Watches.start rules).reportsByTurn (documentTurns schema document) := by
  have thorough : (observer schema document rules).Thorough := fun _ _ _ => ⟨rfl, rfl⟩
  have walked := Ast.Tree.walk_calls thorough [] (⟨{}, .start rules, []⟩, [])
    (Node.document document).tree
  have folded := observed schema document rules ((Node.document document).tree.calls []) {}
    (.start rules) [] []
  rw [List.nil_append] at folded
  rw [documentTurns, ← folded]
  exact congrArg (fun result => result.2.2) walked

/-- Nothing is lost between the calls. -/
theorem findingsByCall_flatten (schema : Schema) (document : Document) (rules : List (Rule ε)) :
    (findingsByCall schema rules document).flatten = findings schema rules document := by
  rw [findingsByCall_eq_reports, findings_eq_reports, Watches.reports_eq_flatten]

theorem watches_nil_reportsByTurn (watches : Watches ([] : List (Rule ε))) (turns : List Turn) :
    watches.reportsByTurn turns = turns.map fun _ => [] := by
  induction turns generalizing watches with
  | nil => rfl
  | cons turn turns ih =>
    obtain ⟨leaving, site⟩ := turn
    cases leaving <;> exact congrArg _ (ih _)

/-- At each turn, a rule adds what it finds to what the rules after it find. -/
theorem watches_cons_reportsByTurn {rule : Rule ε} {rules : List (Rule ε)} (watch : Watch rule)
    (watches : Watches rules) (turns : List Turn) :
    @Watches.reportsByTurn ε (rule :: rules) (watch, watches) turns =
      List.zipWith (· ++ ·) (watch.reportsByTurn turns) (watches.reportsByTurn turns) := by
  induction turns generalizing watch watches with
  | nil => rfl
  | cons turn turns ih =>
    obtain ⟨leaving, site⟩ := turn
    cases leaving <;> exact congrArg _ (ih _ _)

end ByTurn

/-- What rules find together at each of some turns. -/
def together (rules : List (Rule ε)) (turns : List Turn) : List (List ε) :=
  (Watches.start rules).reportsByTurn turns

section Together
variable {turns : List Turn}

theorem together_nil : together ([] : List (Rule ε)) turns = turns.map fun _ => [] :=
  watches_nil_reportsByTurn _ _

theorem together_cons (rule : Rule ε) (rules : List (Rule ε)) :
    together (rule :: rules) turns =
      List.zipWith (· ++ ·) (rule.reportsByTurn turns) (together rules turns) :=
  watches_cons_reportsByTurn _ _ _

theorem forall₂_zipWith {α β γ : Type} {R : β → β → Prop} {S : γ → γ → Prop} {f : α → β → γ}
    (step : ∀ a b b', R b b' → S (f a b) (f a b')) {first second : List β}
    (related : List.Forall₂ R first second) (as : List α) :
    List.Forall₂ S (List.zipWith f as first) (List.zipWith f as second) := by
  induction related generalizing as with
  | nil => cases as <;> exact .nil
  | cons here _ ih =>
    cases as with
    | nil => exact .nil
    | cons a as => exact .cons (step a _ _ here) (ih as)

/-- Two rules that change places find the same at each turn, in another order. -/
theorem forall₂_swap (first second third : List (List ε)) : List.Forall₂ List.Perm
    (List.zipWith (· ++ ·) first (List.zipWith (· ++ ·) second third))
    (List.zipWith (· ++ ·) second (List.zipWith (· ++ ·) first third)) := by
  induction first generalizing second third with
  | nil => cases second <;> exact .nil
  | cons a first ih =>
    cases second with
    | nil => exact .nil
    | cons b second =>
      cases third with
      | nil => exact .nil
      | cons c third =>
        refine .cons ?_ (ih second third)
        show (a ++ (b ++ c)).Perm (b ++ (a ++ c))
        rw [← List.append_assoc, ← List.append_assoc]
        exact List.perm_append_comm.append_right c

theorem forall₂_trans {first second third : List (List ε)}
    (here : List.Forall₂ List.Perm first second) (there : List.Forall₂ List.Perm second third) :
    List.Forall₂ List.Perm first third := by
  induction here generalizing third with
  | nil => exact there
  | cons perm _ ih =>
    cases there with
    | cons other rest => exact .cons (perm.trans other) (ih rest)

/-- Rules in another order find the same at each turn, in another order. -/
theorem together_perm {rules others : List (Rule ε)} (perm : rules.Perm others) :
    List.Forall₂ List.Perm (together rules turns) (together others turns) := by
  induction perm with
  | nil => exact List.forall₂_same.2 fun found _ => .refl found
  | cons rule _ ih =>
    rw [together_cons, together_cons]
    exact forall₂_zipWith (fun own _ _ perm => perm.append_left own) ih _
  | swap first second rest =>
    simp only [together_cons]
    exact forall₂_swap _ _ _
  | trans _ _ first second => exact forall₂_trans first second

/-- A rule that reports something else in place of its findings. -/
theorem Watch.map_reportsByTurn {rule : Rule ε} (f : ε → δ) (state : rule.State) (attention : Attention) :
    @Watch.reportsByTurn δ (rule.map f) (state, attention) turns =
      (@Watch.reportsByTurn ε rule (state, attention) turns).map (List.map f) := by
  induction turns generalizing state attention with
  | nil => rfl
  | cons turn turns ih =>
    obtain ⟨leaving, site⟩ := turn
    cases leaving <;> cases attention <;> exact congrArg _ (ih _ _)

theorem Rule.map_reportsByTurn (rule : Rule ε) (f : ε → δ) :
    (rule.map f).reportsByTurn turns = (rule.reportsByTurn turns).map (List.map f) :=
  Watch.map_reportsByTurn f _ _

theorem numbered_cons (rule : Rule ε) (rules : List (Rule ε)) (first : Nat) :
    numbered (rule :: rules) first = rule.map (Prod.mk first) :: numbered rules (first + 1) := rfl

/-- What is found under numbers, without the numbers, is what is found. -/
theorem together_numbered (rules : List (Rule ε)) (first : Nat) :
    (together (numbered rules first) turns).map (List.map Prod.snd) = together rules turns := by
  induction rules generalizing first with
  | nil =>
    show (together [] turns).map (List.map Prod.snd) = _
    simp [together_nil]
  | cons rule rules ih =>
    rw [numbered_cons, together_cons, together_cons, List.map_zipWith, ← ih (first + 1),
      Rule.map_reportsByTurn, List.zipWith_map_left, List.zipWith_map_right]
    simp [Function.comp_def]

theorem share_map (number other : Nat) (found : List ε) :
    share number (found.map (Prod.mk other)) = if other = number then found else [] := by
  rw [share, List.filterMap_map]
  split
  · rename_i same
    simp [same]
  · rename_i differs
    simp [differs]

theorem share_cons (number : Nat) (rule : Rule ε) (rules : List (Rule ε)) (first : Nat) :
    (together (numbered (rule :: rules) first) turns).map (share number) =
      List.zipWith (fun own rest => (if first = number then own else []) ++ rest)
        (rule.reportsByTurn turns) ((together (numbered rules (first + 1)) turns).map (share number)) := by
  rw [numbered_cons, together_cons, Rule.map_reportsByTurn, List.map_zipWith, List.zipWith_map_left,
    List.zipWith_map_right]
  simp only [← share_map, share, List.filterMap_append]

/-- Nothing is found under smaller numbers than the first. -/
theorem share_below {number first : Nat} (below : number < first) (rules : List (Rule ε)) :
    (together (numbered rules first) turns).map (share number) = turns.map fun _ => [] := by
  induction rules generalizing first with
  | nil =>
    show (together [] turns).map (share number) = _
    rw [together_nil, List.map_map]
    rfl
  | cons rule rules ih =>
    have own : (rule.reportsByTurn turns).length = turns.length := Watch.reportsByTurn_length _ _
    rw [share_cons, ih (Nat.lt_succ_of_lt below)]
    simp only [if_neg (Nat.ne_of_gt below)]
    exact List.ext_getElem (by simp [own]) fun _ _ _ => by simp

/-- What is found under the number of a rule is what the rule finds. -/
theorem share_together {rules : List (Rule ε)} {rule : Rule ε} {index first : Nat}
    (found : rules[index]? = some rule) :
    (together (numbered rules first) turns).map (share (first + index)) = rule.reportsByTurn turns := by
  induction rules generalizing index first with
  | nil => cases found
  | cons other rules ih =>
    rw [share_cons]
    cases index with
    | zero =>
      cases found
      have own : (rule.reportsByTurn turns).length = turns.length := Watch.reportsByTurn_length _ _
      rw [Nat.add_zero, share_below (Nat.lt_succ_self first)]
      simp only [if_true]
      exact List.ext_getElem (by simp [own]) fun _ _ _ => by simp
    | succ index =>
      have own : (other.reportsByTurn turns).length = turns.length := Watch.reportsByTurn_length _ _
      have later : (rule.reportsByTurn turns).length = turns.length := Watch.reportsByTurn_length _ _
      have rest := @ih index (first + 1) found
      rw [Nat.add_right_comm] at rest
      have differs : first ≠ first + index + 1 := by omega
      rw [← Nat.add_assoc, rest]
      simp only [if_neg differs]
      exact List.ext_getElem (by simp [own, later]) fun _ _ _ => by simp

end Together

section Single

/-- What a rule that looks at each node for itself finds at some turns. -/
theorem ofCheck_reportsByTurn {name : String} {enter leave : Site → Verdict ε}
    (enters : ∀ site, (enter site).action = .proceed) (leaves : ∀ site, (leave site).action = .proceed)
    (turns : List Turn) : (Rule.ofCheck name enter leave).reportsByTurn turns =
      turns.map fun turn => if turn.1 then (leave turn.2).findings else (enter turn.2).findings := by
  show @Watch.reportsByTurn ε (.ofCheck name enter leave) ((), .watching) turns = _
  induction turns with
  | nil => rfl
  | cons turn turns ih =>
    obtain ⟨leaving, site⟩ := turn
    rw [Watch.reportsByTurn, List.map_cons, ← ih]
    cases leaving with
    | false =>
      show (enter site).findings :: @Watch.reportsByTurn ε (.ofCheck name enter leave) ((), _) turns = _
      rw [enters site]
      rfl
    | true =>
      show (leave site).findings :: @Watch.reportsByTurn ε (.ofCheck name enter leave) ((), _) turns = _
      rw [leaves site]
      rfl

/-- One rule finds at each call what it reports there. -/
theorem findingsByCall_singleton (schema : Schema) (document : Document) (rule : Rule ε) :
    findingsByCall schema [rule] document = rule.reportsByTurn (documentTurns schema document) := by
  have own : (rule.reportsByTurn (documentTurns schema document)).length =
      (documentTurns schema document).length := Watch.reportsByTurn_length _ _
  rw [findingsByCall_eq_reports]
  refine (together_cons rule []).trans ?_
  rw [together_nil]
  exact List.ext_getElem (by simp [own]) fun _ _ _ => by simp

end Single

end GraphQL.Validation
