import GraphQL.Proofs.Parser.Reading

/-! Forms tie a parser to a printer. The form of a node is the list of lexemes that its text
spells and that its parser reads it back from, whatever follows; only lexemes of a few kinds
may not follow. Lists of forms are the forms of lists. -/
namespace GraphQL.Parser
open Ast Layout

variable {α : Type} {p item : Parser α} {text : α → String} {starts avoid : List Lexeme.Kind}
  {value : α} {values : List α} {l m : Lexeme} {ls ms ks : List Lexeme} {lss : List (List Lexeme)}

/-- The lexemes, where there are any, start with one of the kinds. -/
def Opens (starts : List Lexeme.Kind) (ls : List Lexeme) : Prop := ∀ l ∈ ls.head?, l.kind ∈ starts

structure Form (p : Parser α) (text : α → String) (starts avoid : List Lexeme.Kind) (value : α)
    (ls : List Lexeme) : Prop where
  spells : Spells (text value) ls
  opens : Opens starts ls
  yields : ∀ l k, l.kind ∉ avoid → Yields p (ls ++ l :: k) value (l :: k)

/-- A form with at least one lexeme. -/
structure Full (p : Parser α) (text : α → String) (starts avoid : List Lexeme.Kind) (value : α)
    (ls : List Lexeme) : Prop extends Form p text starts avoid value ls where
  nonempty : ls ≠ []

/-- The value has a form with at least one lexeme. -/
def Formed (p : Parser α) (text : α → String) (starts avoid : List Lexeme.Kind) (value : α) : Prop :=
  ∃ ls, Full p text starts avoid value ls

/-- The value has a form, which is empty only where the text is. -/
def Optional (p : Parser α) (text : α → String) (starts avoid : List Lexeme.Kind) (value : α) :
    Prop := ∃ ls, Form p text starts avoid value ls ∧ (ls = [] → text value = "")

/-- No kind is in both lists. -/
abbrev Disjoint (first second : List Lexeme.Kind) : Prop := ∀ kind ∈ first, kind ∉ second

theorem disjoint_singleton {kind : Lexeme.Kind} (free : kind ∉ avoid) : Disjoint [kind] avoid := by
  intro other member
  rwa [List.mem_singleton.mp member]

theorem Opens.nil : Opens starts [] := nofun

theorem Opens.cons (member : l.kind ∈ starts) : Opens starts (l :: ls) := by
  rintro _ ⟨⟩
  exact member

theorem Opens.append (opens : Opens starts ls) (nonempty : ls ≠ []) : Opens starts (ls ++ ms) := by
  cases ls with
  | nil => contradiction
  | cons l ls => exact opens

theorem Opens.both {others : List Lexeme.Kind} (first : Opens starts ls) (second : Opens others ms) :
    Opens (starts ++ others) (ls ++ ms) := by
  cases ls with
  | nil => exact fun l head => List.mem_append_right _ (second l head)
  | cons l ls => exact .cons (List.mem_append_left _ (first l rfl))

/-- What stands in front of optional lexemes and a lexeme after them. -/
theorem Opens.next (opens : Opens starts ls) (apart : Disjoint starts avoid)
    (after : l.kind ∉ avoid) (k : List Lexeme) :
    ∃ m r, ls ++ l :: k = m :: r ∧ m.kind ∉ avoid := by
  cases ls with
  | nil => exact ⟨l, k, rfl, after⟩
  | cons m ls => exact ⟨m, _, rfl, apart _ (opens m rfl)⟩

/-- A form is read in front of optional lexemes. -/
theorem Form.before (form : Form p text starts avoid value ls) {others : List Lexeme.Kind}
    (opens : Opens others ms) (apart : Disjoint others avoid) (after : l.kind ∉ avoid)
    (k : List Lexeme) : Yields p (ls ++ (ms ++ l :: k)) value (ms ++ l :: k) := by
  obtain ⟨m, r, ahead, free⟩ := opens.next apart after k
  rw [ahead]
  exact form.yields m r free

theorem Full.next (full : Full p text starts avoid value ls) (k : List Lexeme) :
    ∃ m r, ls ++ k = m :: r ∧ m.kind ∈ starts := by
  cases ls with
  | nil => exact absurd rfl full.nonempty
  | cons m ls => exact ⟨m, _, rfl, full.opens m rfl⟩

/-- A form is read in front of lexemes that are there, whatever follows them. -/
theorem Form.before_some (form : Form p text starts avoid value ls) {others : List Lexeme.Kind}
    (opens : Opens others ms) (nonempty : ms ≠ []) (apart : Disjoint others avoid)
    (k : List Lexeme) : Yields p (ls ++ (ms ++ k)) value (ms ++ k) := by
  cases ms with
  | nil => contradiction
  | cons m ms => exact form.yields m _ (apart _ (opens m rfl))

theorem exists_forall₂ {β : Type} {R : α → β → Prop} (each : ∀ a ∈ values, ∃ b, R a b) :
    ∃ bs, List.Forall₂ R values bs := by
  induction values with
  | nil => exact ⟨[], .nil⟩
  | cons a values ih =>
    obtain ⟨b, related⟩ := each a List.mem_cons_self
    obtain ⟨bs, tail⟩ := ih fun a member => each a (List.mem_cons_of_mem _ member)
    exact ⟨b :: bs, .cons related tail⟩

section Lists
variable (forms : List.Forall₂ (Full item text starts avoid) values lss)
include forms

theorem forms_spell : List.Forall₂ Spells (values.map text) lss :=
  List.forall₂_map_left_iff.mpr (forms.imp fun _ _ full => full.spells)

theorem forms_open : Opens starts lss.flatten := by
  cases forms with
  | nil => exact .nil
  | cons full _ =>
    rw [List.flatten_cons]
    exact full.opens.append full.nonempty

theorem forms_count : lss.length ≤ lss.flatten.length := by
  induction forms with
  | nil => exact Nat.le_refl _
  | cons full _ ih =>
    have := List.length_pos_iff.mpr full.nonempty
    simp only [List.flatten_cons, List.length_append, List.length_cons]
    omega

theorem forms_empty (none : lss.flatten = []) : values = [] := by
  cases forms with
  | nil => rfl
  | cons full _ =>
    rw [List.flatten_cons, List.append_eq_nil_iff] at none
    exact absurd none.1 full.nonempty

/-- Items are read up to the closing mark, each in front of the next one. -/
theorem upTo_yields {close : Punctuator} (apart : Disjoint starts avoid)
    (starting : .punctuator close ∉ starts) (ending : .punctuator close ∉ avoid)
    {fuel : Nat} (enough : lss.length < fuel) (m : Lexeme) (k : List Lexeme) :
    Yields (upTo close item fuel) (lss.flatten ++ .punctuator close :: m :: k) values (m :: k) := by
  induction forms generalizing fuel with
  | nil =>
    cases fuel with
    | zero => simp at enough
    | succ fuel => exact (Yields.skipMark (by simp)).bind .pure
  | @cons value ls values lss full tail ih =>
    cases fuel with
    | zero => simp at enough
    | succ fuel =>
      rw [List.flatten_cons, List.append_assoc]
      obtain ⟨first, r, ahead, member⟩ :=
        full.next (lss.flatten ++ .punctuator close :: m :: k)
      have closed : Yields (skipMark close) (ls ++ (lss.flatten ++ .punctuator close :: m :: k)) false
          (ls ++ (lss.flatten ++ .punctuator close :: m :: k)) := by
        rw [ahead]
        exact .noSkip fun same => starting (same ▸ member)
      refine closed.bind ?_
      refine (full.before (l := .punctuator close) (forms_open tail) apart ending _).bind ?_
      exact (ih (Nat.lt_of_succ_lt_succ enough)).bind .pure

theorem any_yields (opening close : Punctuator) (apart : Disjoint starts avoid)
    (starting : .punctuator close ∉ starts) (ending : .punctuator close ∉ avoid)
    (m : Lexeme) (k : List Lexeme) :
    Yields (any opening item close)
      (.punctuator opening :: lss.flatten ++ .punctuator close :: m :: k) values (m :: k) := by
  rw [List.cons_append]
  refine (Yields.expectMark (by simp)).bind (.remaining fun fuel enough => ?_)
  have count := forms_count forms
  simp only [List.length_append] at enough
  exact upTo_yields forms apart starting ending (by omega) m k

theorem many_yields (opening close : Punctuator) (apart : Disjoint starts avoid)
    (starting : .punctuator close ∉ starts) (ending : .punctuator close ∉ avoid)
    (some : values ≠ []) (m : Lexeme) (k : List Lexeme) :
    Yields (many opening item close)
      (.punctuator opening :: lss.flatten ++ .punctuator close :: m :: k) values (m :: k) := by
  cases forms with
  | nil => contradiction
  | @cons value ls values lss full tail =>
    rw [List.flatten_cons, List.cons_append, List.append_assoc]
    refine (Yields.expectMark (by simp)).bind ?_
    refine (full.before (l := .punctuator close) (forms_open tail) apart ending _).bind ?_
    refine .remaining fun fuel enough => ?_
    have count := forms_count tail
    simp only [List.length_append] at enough
    exact (upTo_yields tail apart starting ending (by omega) m k).bind .pure

theorem many_form {opening close : Punctuator} {layout : List α → String}
    (apart : Disjoint starts avoid) (starting : .punctuator close ∉ starts)
    (ending : .punctuator close ∉ avoid) (some : values ≠ [])
    (spells : Spells (layout values)
      (.punctuator opening :: lss.flatten ++ [.punctuator close])) :
    Full (many opening item close) layout [.punctuator opening] [] values
      (.punctuator opening :: lss.flatten ++ [.punctuator close]) where
  spells := spells
  opens := .cons List.mem_cons_self
  nonempty := by simp
  yields m k _ := by
    simpa using many_yields forms opening close apart starting ending some m k

theorem any_form {opening close : Punctuator} {layout : List α → String}
    (apart : Disjoint starts avoid) (starting : .punctuator close ∉ starts)
    (ending : .punctuator close ∉ avoid)
    (spells : Spells (layout values)
      (.punctuator opening :: lss.flatten ++ [.punctuator close])) :
    Full (any opening item close) layout [.punctuator opening] [] values
      (.punctuator opening :: lss.flatten ++ [.punctuator close]) where
  spells := spells
  opens := .cons List.mem_cons_self
  nonempty := by simp
  yields m k _ := by
    simpa using any_yields forms opening close apart starting ending m k

/-- Items in parentheses, or nothing at all. -/
theorem optionalMany_form (apart : Disjoint starts avoid) (starting : .punctuator .parenR ∉ starts)
    (ending : .punctuator .parenR ∉ avoid) :
    Form (optionalMany .parenL item .parenR)
      (fun values => wrap "(" (join (values.map text) ", ") ")")
      [.punctuator .parenL] [.punctuator .parenL] values
      (around [.punctuator .parenL] lss.flatten [.punctuator .parenR]) where
  spells := wrap_spells (.mark .parenL) (join_spells _ (.blanks _ (by decide)) (by decide) (by decide)
    (forms_spell forms)) (Closed.mark .parenR).spells (by decide) fun none => by
      rw [forms_empty forms none]
      rfl
  opens := by
    unfold around
    split
    · exact .nil
    · exact .cons List.mem_cons_self
  yields m k free := by
    unfold around
    split
    · rename_i none
      rw [forms_empty forms none]
      exact (Yields.unseen (by simpa using free)).bind .pure
    · rename_i some
      have read := many_yields forms .parenL .parenR apart starting ending
        (fun none => some (by subst none; cases forms; rfl)) m k
      refine (Yields.seen rfl).bind ?_
      rw [if_pos rfl]
      simpa using read

/-- Items that each start with the same mark, as many as there are. -/
theorem whileSeen_yields {mark : Lexeme.Kind} (only : starts = [mark]) (apart : mark ∉ avoid)
    (free : m.kind ∉ avoid) (other : m.kind ≠ mark) {fuel : Nat} (enough : lss.length < fuel)
    (k : List Lexeme) :
    Yields (whileSeen (sees mark) item fuel) (lss.flatten ++ m :: k) values (m :: k) := by
  induction forms generalizing fuel with
  | nil =>
    cases fuel with
    | zero => simp at enough
    | succ fuel => exact (Yields.unseen other).bind .pure
  | @cons value ls values lss full tail ih =>
    cases fuel with
    | zero => simp at enough
    | succ fuel =>
      rw [List.flatten_cons, List.append_assoc]
      obtain ⟨first, r, ahead, member⟩ := full.next (lss.flatten ++ m :: k)
      rw [only, List.mem_singleton] at member
      have seen : Yields (sees mark) (ls ++ (lss.flatten ++ m :: k)) true
          (ls ++ (lss.flatten ++ m :: k)) := ahead ▸ .seen member
      refine seen.bind ?_
      rw [if_pos rfl]
      refine (full.before (forms_open tail) (only ▸ disjoint_singleton apart) free k).bind ?_
      exact (ih (Nat.lt_of_succ_lt_succ enough)).bind .pure

end Lists

theorem optionalMany_optional (formed : ∀ value ∈ values, Formed item text starts avoid value)
    (apart : Disjoint starts avoid) (starting : .punctuator .parenR ∉ starts)
    (ending : .punctuator .parenR ∉ avoid) :
    Optional (optionalMany .parenL item .parenR)
      (fun values => wrap "(" (join (values.map text) ", ") ")")
      [.punctuator .parenL] [.punctuator .parenL] values := by
  obtain ⟨lss, forms⟩ := exists_forall₂ formed
  refine ⟨_, optionalMany_form forms apart starting ending, fun none => ?_⟩
  unfold around at none
  split at none
  · rename_i empty
    rw [forms_empty forms empty]
    rfl
  · cases none

/-- The lexemes of items, a bar before each. -/
def barred (lss : List (List Lexeme)) : List Lexeme := lss.flatMap (.punctuator .pipe :: ·)

theorem barred_opens : Opens [.punctuator .pipe] (barred lss) := by
  cases lss with
  | nil => exact .nil
  | cons => exact .cons List.mem_cons_self

theorem barred_count (lss : List (List Lexeme)) : lss.length ≤ (barred lss).length := by
  induction lss with
  | nil => exact Nat.le_refl _
  | cons ls lss ih =>
    rw [barred, List.flatMap_cons, ← barred]
    simp only [List.length_append, List.length_cons]
    omega

theorem bars_yields (forms : List.Forall₂ (Full item text starts avoid) values lss)
    (ending : .punctuator .pipe ∉ avoid) (free : m.kind ∉ avoid)
    (other : m.kind ≠ .punctuator .pipe) {fuel : Nat} (enough : lss.length < fuel)
    (k : List Lexeme) :
    Yields (whileSeen (skipMark .pipe) item fuel) (barred lss ++ m :: k) values (m :: k) := by
  induction forms generalizing fuel with
  | nil =>
    cases fuel with
    | zero => simp at enough
    | succ fuel => exact (Yields.noSkipMark other).bind .pure
  | @cons value ls values lss full tail ih =>
    cases fuel with
    | zero => simp at enough
    | succ fuel =>
      have bar : Yields (skipMark .pipe) (barred (ls :: lss) ++ m :: k) true
          (ls ++ (barred lss ++ m :: k)) := by
        rw [barred, List.flatMap_cons, List.append_assoc, List.cons_append, ← barred]
        exact .skip rfl (by simp)
      refine bar.bind ?_
      rw [if_pos rfl]
      refine (full.before barred_opens (disjoint_singleton ending) free k).bind ?_
      exact (ih (Nat.lt_of_succ_lt_succ enough)).bind .pure

end GraphQL.Parser
