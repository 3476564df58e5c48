import Mathlib.Order.Lattice.Nat
import Mathlib.Order.Bounds.Basic
import GraphQL.Suggestion

/-! Edit scripts, and the table of edit costs. A script edits a word in any order and no place of it
twice; the last cell of the table is the length of a shortest one. -/
namespace GraphQL.Suggestion

/-- A place of a word under edit: a letter that no edit has come to, or what an edit has left. -/
inductive Place where
  | untouched (letter : Char)
  | edited (now : List Char)

def Place.letters : Place → List Char
  | untouched letter => [letter]
  | edited now => now

/-- The word that stands at places. -/
def word (places : List Place) : List Char := places.flatMap Place.letters

/-- One edit, of letters that no edit has come to. What it leaves is one place, into which no other
edit can reach: two letters that are swapped stay together, and the neighbours of a letter that is
deleted do not become neighbours. -/
inductive Edit : List Place → List Place → Prop
  | insert (c : Char) (places : List Place) : Edit places (.edited [c] :: places)
  | delete (c : Char) (places : List Place) : Edit (.untouched c :: places) (.edited [] :: places)
  | substitute (c d : Char) (places : List Place) :
      Edit (.untouched c :: places) (.edited [d] :: places)
  | swap (c d : Char) (places : List Place) :
      Edit (.untouched c :: .untouched d :: places) (.edited [d, c] :: places)
  | behind (place : Place) {before after : List Place} : Edit before after →
      Edit (place :: before) (place :: after)

/-- So many edits, one after the other. -/
inductive Script : Nat → List Place → List Place → Prop
  | start (places : List Place) : Script 0 places places
  | next {n : Nat} {first before after : List Place} : Script n first before → Edit before after →
      Script (n + 1) first after

/-- A script of so many edits turns the first word into the second. -/
def Turns (n : Nat) (a b : List Char) : Prop :=
  ∃ places, Script n (a.map .untouched) places ∧ word places = b

/-- So many edits, in the order of their places from left to right, turn one word into the other. -/
inductive Aligned : Nat → List Char → List Char → Prop
  | nil : Aligned 0 [] []
  | keep (c : Char) {n : Nat} {a b : List Char} : Aligned n a b → Aligned n (c :: a) (c :: b)
  | insert (c : Char) {n : Nat} {a b : List Char} : Aligned n a b → Aligned (n + 1) a (c :: b)
  | delete (c : Char) {n : Nat} {a b : List Char} : Aligned n a b → Aligned (n + 1) (c :: a) b
  | substitute (c d : Char) {n : Nat} {a b : List Char} : Aligned n a b →
      Aligned (n + 1) (c :: a) (d :: b)
  | swap (c d : Char) {n : Nat} {a b : List Char} : Aligned n a b →
      Aligned (n + 1) (c :: d :: a) (d :: c :: b)

/-- So many edits have made the places out of a word. -/
inductive Made : Nat → List Char → List Place → Prop
  | nil : Made 0 [] []
  | keep (c : Char) {n : Nat} {a : List Char} {places : List Place} : Made n a places →
      Made n (c :: a) (.untouched c :: places)
  | insert (c : Char) {n : Nat} {a : List Char} {places : List Place} : Made n a places →
      Made (n + 1) a (.edited [c] :: places)
  | delete (c : Char) {n : Nat} {a : List Char} {places : List Place} : Made n a places →
      Made (n + 1) (c :: a) (.edited [] :: places)
  | substitute (c d : Char) {n : Nat} {a : List Char} {places : List Place} : Made n a places →
      Made (n + 1) (c :: a) (.edited [d] :: places)
  | swap (c d : Char) {n : Nat} {a : List Char} {places : List Place} : Made n a places →
      Made (n + 1) (c :: d :: a) (.edited [d, c] :: places)

section Scripts
variable {n m : Nat} {a b : List Char} {places before after : List Place}

theorem made_untouched (a : List Char) : Made 0 a (a.map .untouched) := by
  induction a with
  | nil => exact .nil
  | cons c a ih => exact ih.keep c

theorem Made.edit (made : Made n a before) (edit : Edit before after) : Made (n + 1) a after := by
  induction edit generalizing n a with
  | insert c _ => exact made.insert c
  | delete c _ =>
    cases made with
    | keep _ rest => exact rest.delete c
  | substitute c d _ =>
    cases made with
    | keep _ rest => exact rest.substitute c d
  | swap c d _ =>
    cases made with
    | keep _ rest =>
      cases rest with
      | keep _ rest => exact rest.swap c d
  | behind _ _ ih =>
    cases made with
    | keep c rest => exact (ih rest).keep c
    | insert c rest => exact (ih rest).insert c
    | delete c rest => exact (ih rest).delete c
    | substitute c d rest => exact (ih rest).substitute c d
    | swap c d rest => exact (ih rest).swap c d

theorem Made.script (made : Made m a before) (script : Script n before after) :
    Made (m + n) a after := by
  induction script with
  | start => exact made
  | next _ edit ih => exact (ih made).edit edit

theorem Made.aligned (made : Made n a places) : Aligned n a (word places) := by
  induction made with
  | nil => exact .nil
  | keep c _ ih => exact ih.keep c
  | insert c _ ih => exact ih.insert c
  | delete c _ ih => exact ih.delete c
  | substitute c d _ ih => exact ih.substitute c d
  | swap c d _ ih => exact ih.swap c d

theorem Script.behind (place : Place) (script : Script n before after) :
    Script n (place :: before) (place :: after) := by
  induction script with
  | start => exact .start _
  | next _ edit ih => exact .next ih (edit.behind place)

theorem Aligned.turns (aligned : Aligned n a b) : Turns n a b := by
  induction aligned with
  | nil => exact ⟨[], .start [], rfl⟩
  | keep c _ ih =>
    obtain ⟨places, script, rfl⟩ := ih
    exact ⟨_, script.behind (.untouched c), rfl⟩
  | insert c _ ih =>
    obtain ⟨places, script, rfl⟩ := ih
    exact ⟨_, .next script (.insert c places), rfl⟩
  | delete c _ ih =>
    obtain ⟨places, script, rfl⟩ := ih
    exact ⟨_, .next (script.behind (.untouched c)) (.delete c places), rfl⟩
  | substitute c d _ ih =>
    obtain ⟨places, script, rfl⟩ := ih
    exact ⟨_, .next (script.behind (.untouched c)) (.substitute c d places), rfl⟩
  | swap c d _ ih =>
    obtain ⟨places, script, rfl⟩ := ih
    exact ⟨_, .next ((script.behind (.untouched d)).behind (.untouched c)) (.swap c d places), rfl⟩

/-- The edits of a script may be made from left to right. -/
theorem turns_iff_aligned : Turns n a b ↔ Aligned n a b := by
  constructor
  · rintro ⟨places, script, rfl⟩
    have made := (made_untouched a).script script
    rw [Nat.zero_add] at made
    exact made.aligned
  · exact Aligned.turns

end Scripts

section Aligned
variable {n m : Nat} {a b u v : List Char}

theorem Aligned.symm (aligned : Aligned n a b) : Aligned n b a := by
  induction aligned with
  | nil => exact .nil
  | keep c _ ih => exact ih.keep c
  | insert c _ ih => exact ih.delete c
  | delete c _ ih => exact ih.insert c
  | substitute c d _ ih => exact ih.substitute d c
  | swap c d _ ih => exact ih.swap d c

theorem Aligned.append (first : Aligned n a b) (second : Aligned m u v) :
    Aligned (m + n) (a ++ u) (b ++ v) := by
  induction first with
  | nil => exact second
  | keep c _ ih => exact ih.keep c
  | insert c _ ih => exact ih.insert c
  | delete c _ ih => exact ih.delete c
  | substitute c d _ ih => exact ih.substitute c d
  | swap c d _ ih => exact ih.swap c d

/-- From right to left it is the same edits. -/
theorem Aligned.reverse (aligned : Aligned n a b) : Aligned n a.reverse b.reverse := by
  induction aligned with
  | nil => exact .nil
  | keep c _ ih =>
    simpa using ih.append (Aligned.nil.keep c)
  | insert c _ ih => simpa [Nat.add_comm] using ih.append (Aligned.nil.insert c)
  | delete c _ ih => simpa [Nat.add_comm] using ih.append (Aligned.nil.delete c)
  | substitute c d _ ih => simpa [Nat.add_comm] using ih.append (Aligned.nil.substitute c d)
  | swap c d _ ih => simpa [Nat.add_comm] using ih.append (Aligned.nil.swap d c)

theorem aligned_insertions (b : List Char) : Aligned b.length [] b := by
  induction b with
  | nil => exact .nil
  | cons c b ih => exact ih.insert c

theorem exists_aligned (a b : List Char) : ∃ n, Aligned n a b := by
  induction a with
  | nil => exact ⟨_, aligned_insertions b⟩
  | cons c a ih =>
    obtain ⟨n, aligned⟩ := ih
    exact ⟨n + 1, aligned.delete c⟩

theorem Aligned.insertions_eq (aligned : Aligned n [] b) : n = b.length := by
  generalize empty : ([] : List Char) = a at aligned
  induction aligned with
  | nil => rfl
  | insert c _ ih => rw [ih empty, List.length_cons]
  | keep | delete | substitute | swap => cases empty

end Aligned

/-- The length of a shortest script. -/
noncomputable def leastEdits (a b : List Char) : Nat := sInf {n | Aligned n a b}

section Least
variable {n : Nat} {a b : List Char}

theorem leastEdits_aligned (a b : List Char) : Aligned (leastEdits a b) a b :=
  Nat.sInf_mem (exists_aligned a b)

theorem Aligned.least_le (aligned : Aligned n a b) : leastEdits a b ≤ n := Nat.sInf_le aligned

theorem leastEdits_isLeast (a b : List Char) : IsLeast {n | Turns n a b} (leastEdits a b) :=
  ⟨turns_iff_aligned.2 (leastEdits_aligned a b), fun _ turns =>
    (turns_iff_aligned.1 turns).least_le⟩

theorem leastEdits_comm (a b : List Char) : leastEdits a b = leastEdits b a :=
  Nat.le_antisymm (leastEdits_aligned b a).symm.least_le (leastEdits_aligned a b).symm.least_le

theorem leastEdits_reverse (a b : List Char) : leastEdits a.reverse b.reverse = leastEdits a b := by
  refine Nat.le_antisymm (leastEdits_aligned a b).reverse.least_le ?_
  simpa using (leastEdits_aligned a.reverse b.reverse).reverse.least_le

theorem leastEdits_nil_left (b : List Char) : leastEdits [] b = b.length :=
  (leastEdits_aligned [] b).insertions_eq

theorem leastEdits_nil_right (a : List Char) : leastEdits a [] = a.length := by
  rw [leastEdits_comm, leastEdits_nil_left]

theorem leastEdits_substitute_le (c d : Char) (a b : List Char) :
    leastEdits (c :: a) (d :: b) ≤ leastEdits a b + if c == d then 0 else 1 := by
  split
  · next same =>
    cases eq_of_beq same
    exact ((leastEdits_aligned a b).keep c).least_le
  · exact ((leastEdits_aligned a b).substitute c d).least_le

theorem leastEdits_swap_le (c d : Char) (a b : List Char) :
    leastEdits (c :: d :: a) (d :: c :: b) ≤ leastEdits a b + if c == d then 0 else 1 := by
  split
  · next same =>
    -- A swap of two equal letters is free: both are kept.
    cases eq_of_beq same
    exact (((leastEdits_aligned a b).keep c).keep c).least_le
  · exact ((leastEdits_aligned a b).swap c d).least_le

/-- A shortest script does something to the first letters, and the rest of it is a shortest one. -/
theorem leastEdits_cons (c d : Char) (a b : List Char) :
    leastEdits (c :: a) (d :: b) =
      let cost := if c == d then 0 else 1
      let edit := min (min (leastEdits a (d :: b) + 1) (leastEdits (c :: a) b + 1))
        (leastEdits a b + cost)
      if b.head? = some c ∧ a.head? = some d then min edit (leastEdits a.tail b.tail + cost)
      else edit := by
  dsimp only
  apply Nat.le_antisymm
  · have deleted := ((leastEdits_aligned a (d :: b)).delete c).least_le
    have inserted := ((leastEdits_aligned (c :: a) b).insert d).least_le
    have substituted := leastEdits_substitute_le c d a b
    split
    · next crossed =>
      obtain ⟨b, rfl⟩ := List.head?_eq_some_iff.1 crossed.1
      obtain ⟨a, rfl⟩ := List.head?_eq_some_iff.1 crossed.2
      have swapped := leastEdits_swap_le c d a b
      simp only [List.tail_cons]
      omega
    · omega
  · have aligned := leastEdits_aligned (c :: a) (d :: b)
    generalize leastEdits (c :: a) (d :: b) = n at aligned
    cases aligned with
    | keep _ rest =>
      have rest := rest.least_le
      simp only [beq_self_eq_true, if_true]
      split <;> omega
    | insert _ rest =>
      have rest := rest.least_le
      split <;> omega
    | delete _ rest =>
      have rest := rest.least_le
      split <;> omega
    | substitute _ _ rest =>
      have rest := rest.least_le
      split <;> split <;> omega
    | @swap _ e n a b rest =>
      have rest := rest.least_le
      rw [if_pos ⟨rfl, rfl⟩]
      simp only [List.tail_cons]
      split <;> omega

end Least

/-- The costs of turning a word into each word that begins with `seen` and goes on with letters of
`rest`. The word and `seen` are written from right to left. -/
noncomputable def costs (word seen : List Char) : (rest : List Char) → List Nat
  | [] => [leastEdits word seen]
  | c :: rest => leastEdits word seen :: costs word (c :: seen) rest

/-- The costs for the word without its last letter, from the column before the first one of `rest`. -/
noncomputable def costsBefore : (word seen rest : List Char) → List Nat
  | [], _, _ => []
  | _ :: word, seen, rest => costs word seen.tail (seen.head?.toList ++ rest)

section Table
variable {word seen rest : List Char}

/-- A row begins with the cell of `seen`. -/
theorem costs_eq (word seen rest : List Char) :
    costs word seen rest = leastEdits word seen :: (costs word seen rest).tail := by
  cases rest <;> rfl

theorem costs_nil (seen rest : List Char) :
    costs [] seen rest = List.range' seen.length (rest.length + 1) := by
  induction rest generalizing seen with
  | nil => rw [costs, leastEdits_nil_left]; rfl
  | cons c rest ih => rw [costs, ih, leastEdits_nil_left]; rfl

theorem costs_last (word seen rest : List Char) :
    (costs word seen rest).getLastD 0 = leastEdits word (rest.reverse ++ seen) := by
  induction rest generalizing seen with
  | nil => rfl
  | cons c rest ih =>
    have onward := ih (c :: seen)
    rw [costs_eq, List.getLastD_cons] at onward
    rw [costs, costs_eq word (c :: seen), List.getLastD_cons, List.getLastD_cons, onward]
    simp

theorem costsBefore_onward (word seen rest : List Char) (c : Char) :
    (if seen.head?.isSome then (costsBefore word seen (c :: rest)).tail
      else costsBefore word seen (c :: rest)) = costsBefore word (c :: seen) rest := by
  cases word <;> cases seen <;> rfl

/-- The next cell of a row, made of the cells around it. -/
theorem nextRow_cell (letter c : Char) (word seen rest : List Char) (above : List Nat) :
    nextRow letter word.head? (leastEdits (letter :: word) seen) seen.head? (c :: rest)
        (leastEdits word seen :: leastEdits word (c :: seen) :: above)
        (costsBefore word seen (c :: rest)) =
      leastEdits (letter :: word) (c :: seen) ::
        nextRow letter word.head? (leastEdits (letter :: word) (c :: seen)) (some c) rest
          (leastEdits word (c :: seen) :: above) (costsBefore word (c :: seen) rest) := by
  have cell := leastEdits_cons letter c word seen
  dsimp only at cell
  simp only [nextRow, costsBefore_onward]
  cases word with
  | nil =>
    rw [if_neg (fun crossed => nomatch crossed.2)] at cell
    simp only [costsBefore, cell]
  | cons other word =>
    have before : costsBefore (other :: word) seen (c :: rest) =
        leastEdits word seen.tail :: (costsBefore (other :: word) seen (c :: rest)).tail := by
      rw [costsBefore, ← costs_eq]
    rw [before]
    simp only [cell, Bool.and_eq_true, beq_iff_eq, List.tail_cons]

/-- From two rows of the table, the next one. -/
theorem nextRow_costs (letter : Char) (word seen rest : List Char) :
    nextRow letter word.head? (leastEdits (letter :: word) seen) seen.head? rest
      (costs word seen rest) (costsBefore word seen rest) = (costs (letter :: word) seen rest).tail := by
  induction rest generalizing seen with
  | nil => simp [nextRow, costs]
  | cons c rest ih =>
    have onward := ih (c :: seen)
    rw [costs_eq word (c :: seen) rest, List.head?_cons] at onward
    rw [costs, costs_eq word (c :: seen) rest, nextRow_cell, onward, costs, List.tail_cons, ← costs_eq]

/-- From the rows for a part of the word, the row for the whole of it. -/
theorem lastRow_costs (word rest other : List Char) :
    lastRow other rest word.length word.head? (costs word [] other) (costsBefore word [] other) =
      costs (rest.reverse ++ word) [] other := by
  induction rest generalizing word with
  | nil => rfl
  | cons letter rest ih =>
    have row := nextRow_costs letter word [] other
    rw [leastEdits_nil_right, List.length_cons] at row
    have next := ih (letter :: word)
    rw [costs_eq, leastEdits_nil_right, ← row] at next
    rw [lastRow, List.reverse_cons, List.append_assoc]
    exact next

theorem editDistance_eq (a b : List Char) : editDistance a b = leastEdits a b := by
  have table := lastRow_costs [] a b
  rw [costs_nil, List.append_nil] at table
  calc editDistance a b = (costs a.reverse [] b).getLastD 0 :=
        congrArg (List.getLastD · 0) (by rw [← table, List.range_eq_range']; rfl)
    _ = leastEdits a.reverse (b.reverse ++ []) := costs_last ..
    _ = leastEdits a b := by rw [List.append_nil, leastEdits_reverse]

/-- Nothing is inserted between two letters that are swapped. -/
example : editDistance ['c', 'a'] ['a', 'b', 'c'] = 3 := by decide

end Table
end GraphQL.Suggestion
