import Mathlib.Data.List.Forall2
import GraphQL.Proofs.Language.Spelling
import GraphQL.Printer

/-! Written text: lexemes in their canonical spelling, with blanks between them. The layout
helpers of the printer keep text written, and the scanner reads written text back. -/
namespace GraphQL
open Lexer

/-- Characters that are the given lexemes in canonical spelling, blanks aside. -/
inductive Written : List Char → List Lexeme → Prop where
  | done : Written [] []
  | blank {c cs ls} (blank : isBlank c = true) (rest : Written cs ls) : Written (c :: cs) ls
  | lexeme {l cs ls} (spelled : l.Spelled) (before : l.Before cs) (rest : Written cs ls) :
      Written (l.spelling ++ cs) (l :: ls)

namespace Written
variable {cs ds : List Char} {ls ms : List Lexeme}

theorem append (left : Written cs ls) (right : Written ds ms) (stops : Stops ds) :
    Written (cs ++ ds) (ls ++ ms) := by
  induction left with
  | done => exact right
  | blank blank _ ih => exact .blank blank ih
  | @lexeme l cs ls spelled before _ ih =>
    rw [List.append_assoc]
    refine .lexeme spelled (fun runs => ?_) ih
    cases cs with
    | nil => exact stops
    | cons c cs => exact before runs

theorem indented_oneLine (oneLine : '\n' ∉ cs) :
    (cs.flatMap fun c => if c = '\n' then ['\n', ' ', ' '] else [c]) = cs := by
  induction cs with
  | nil => rfl
  | cons c cs ih =>
    rw [List.mem_cons, not_or] at oneLine
    obtain ⟨other, oneLine⟩ := oneLine
    rw [List.flatMap_cons, if_neg (Ne.symm other), ih oneLine]
    rfl

/-- Only blanks are broken into lines, and more of them change nothing. -/
theorem indented (written : Written cs ls) :
    Written (cs.flatMap fun c => if c = '\n' then ['\n', ' ', ' '] else [c]) ls := by
  induction written with
  | done => exact .done
  | @blank c cs ls blank _ ih =>
    rw [List.flatMap_cons]
    split
    · exact .blank (by decide) (.blank (by decide) (.blank (by decide) ih))
    · exact .blank blank ih
  | @lexeme l cs ls spelled before _ ih =>
    rw [List.flatMap_append, indented_oneLine spelled.oneLine]
    refine .lexeme spelled (fun runs => ?_) ih
    have stops := before runs
    cases cs with
    | nil => exact stops
    | cons c cs =>
      rw [List.flatMap_cons]
      split
      · rintro _ ⟨⟩
        decide
      · exact stops

theorem token_blank {c : Char} (blank : isBlank c = true) (offset : Nat) (cs : List Char) :
    token ⟨offset, c :: cs⟩ = token ⟨offset + c.utf8Size, cs⟩ := by
  simp [token, dropIgnored, blank]

theorem token_lexeme {l : Lexeme} (spelled : l.Spelled) (before : l.Before cs) (offset : Nat) :
    ∃ stop, token ⟨offset, l.spelling ++ cs⟩ = .ok (⟨l, offset, stop⟩, ⟨stop, cs⟩) := by
  obtain ⟨c, rest, eq, notBlank, notHash⟩ := spelled.starts
  obtain ⟨stop, reads⟩ := spelled.reads offset cs before
  refine ⟨stop, ?_⟩
  rw [eq, List.cons_append] at reads ⊢
  simp [token, dropIgnored, notBlank, notHash, reads, bind, Except.bind, pure, Except.pure]

/-- The scanner finds the lexemes of written text, and then its end. -/
theorem tokens (written : Written cs ls) (offset fuel : Nat) (enough : cs.length < fuel) :
    ∃ found, Lexer.tokens fuel ⟨offset, cs⟩ = (found, none) ∧
      found.map Token.lexeme = ls ++ [.finish] := by
  induction written generalizing offset fuel with
  | done =>
    cases fuel with
    | zero => simp at enough
    | succ fuel => exact ⟨_, rfl, rfl⟩
  | @blank c cs ls blank _ ih =>
    cases fuel with
    | zero => simp at enough
    | succ fuel =>
      obtain ⟨found, scanned, lexemes⟩ :=
        ih (offset + c.utf8Size) (fuel + 1) (Nat.lt_of_succ_lt enough)
      refine ⟨found, ?_, lexemes⟩
      rw [← scanned, Lexer.tokens, Lexer.tokens, token_blank blank]
  | @lexeme l cs ls spelled before _ ih =>
    cases fuel with
    | zero => simp at enough
    | succ fuel =>
      obtain ⟨c, rest, starts, -⟩ := spelled.starts
      have notFinish : l ≠ .finish := by
        rintro rfl
        cases starts
      obtain ⟨stop, step⟩ := token_lexeme spelled before offset
      obtain ⟨found, scanned, lexemes⟩ := ih stop fuel (by simp [starts] at enough; omega)
      refine ⟨⟨l, offset, stop⟩ :: found, ?_, by simp [lexemes]⟩
      simp [Lexer.tokens, step, notFinish, scanned]

end Written

/-- The characters of a text are the given lexemes in canonical spelling. -/
def Spells (text : String) (ls : List Lexeme) : Prop := Written text.toList ls

/-- Text that nothing can run into: any written text may follow. -/
def Closed (text : String) (ls : List Lexeme) : Prop :=
  ∀ rest ms, Spells rest ms → Spells (text ++ rest) (ls ++ ms)

/-- Text that runs into nothing standing before it. -/
def Apart (text : String) : Prop := Stops text.toList

instance (text : String) : Decidable (Apart text) := inferInstanceAs (Decidable (Stops _))

theorem Spells.tokens {text : String} {ls : List Lexeme} (spells : Spells text ls) (name : String) :
    ∃ found, (Source.mk text name).tokens = ⟨found, none⟩ ∧
      found.map Token.lexeme = ls ++ [.finish] := by
  obtain ⟨found, scanned, lexemes⟩ := Written.tokens spells 0 (text.toList.length + 1) (by omega)
  refine ⟨found, ?_, lexemes⟩
  simp only [Source.tokens, Source.tokensFrom, cursorAt, Nat.zero_min, Text.splitAt?,
    Source.chars, pure, Except.pure, scanned, Option.map_none]

section Composition
variable {a b : String} {ls ms : List Lexeme}

theorem Spells.empty : Spells "" [] := .done

theorem Spells.append (left : Spells a ls) (right : Spells b ms) (apart : Apart b) :
    Spells (a ++ b) (ls ++ ms) := by
  rw [Spells, String.toList_append]
  exact Written.append left right apart

theorem Closed.append (left : Closed a ls) (right : Spells b ms) : Spells (a ++ b) (ls ++ ms) :=
  left b ms right

theorem Closed.spells (closed : Closed a ls) : Spells a ls := by
  simpa using closed "" [] .empty

theorem Closed.append_closed (left : Closed a ls) (right : Closed b ms) :
    Closed (a ++ b) (ls ++ ms) := by
  intro rest ks spells
  rw [String.append_assoc, List.append_assoc]
  exact left _ _ (right _ _ spells)

/-- The same in another spelling of the text, which is not left to unification: that unfolds it. -/
theorem Closed.spelled {text : String} (closed : Closed a ls) (same : a = text) : Closed text ls :=
  same ▸ closed

theorem Apart.append (apart : Apart a) (nonempty : a ≠ "") : Apart (a ++ b) := by
  rw [Apart, String.toList_append]
  cases chars : a.toList with
  | nil => exact absurd (String.toList_eq_nil_iff.mp chars) nonempty
  | cons c cs =>
    rw [Apart, chars] at apart
    exact apart

theorem Apart.both (left : Apart a) (right : Apart b) : Apart (a ++ b) := by
  by_cases empty : a = ""
  · rwa [empty, String.empty_append]
  · exact left.append empty

theorem Spells.append_closed (left : Spells a ls) (right : Closed b ms) (apart : Apart b)
    (nonempty : b ≠ "") : Closed (a ++ b) (ls ++ ms) := by
  intro rest ks spells
  rw [String.append_assoc, List.append_assoc]
  exact left.append (right _ _ spells) (apart.append nonempty)

theorem Spells.eq_nil (spells : Spells "" ls) : ls = [] := by
  rw [Spells] at spells
  generalize chars : "".toList = cs at spells
  cases spells with
  | done => rfl
  | blank => cases chars
  | lexeme spelled =>
    obtain ⟨c, rest, starts, -⟩ := spelled.starts
    rw [starts] at chars
    cases chars

end Composition

section Words

theorem Closed.mark (mark : Punctuator) : Closed mark.text [.punctuator mark] := by
  intro rest ms spells
  rw [Spells, String.toList_append]
  exact .lexeme (Lexeme.punctuator_spelled mark) nofun spells

theorem Closed.blanks (text : String) (blanks : text.toList.all isBlank = true) :
    Closed text [] := by
  intro rest ms spells
  rw [Spells, String.toList_append, List.nil_append]
  rw [List.all_eq_true] at blanks
  generalize text.toList = cs at blanks
  induction cs with
  | nil => exact spells
  | cons c cs ih =>
    exact .blank (blanks c List.mem_cons_self) (ih fun d member =>
      blanks d (List.mem_cons_of_mem c member))

/-- A mark with a blank behind it. -/
theorem Closed.spaced (mark : Punctuator) : Closed (mark.text ++ " ") [.punctuator mark] :=
  (Closed.mark mark).append_closed (.blanks " " (by decide))

theorem Spells.lexeme {l : Lexeme} {text : String} (spelled : l.Spelled)
    (canonical : text.toList = l.spelling) : Spells text [l] := by
  rw [Spells, canonical]
  simpa using Written.lexeme spelled (fun _ => by simp [Stops]) .done

theorem Spells.name {text : String} (spelled : (Lexeme.name text).Spelled) :
    Spells text [.name text] := .lexeme spelled rfl

/-- A word of the language: letters only. -/
theorem keyword_spelled {text : String} {c : Char} {cs : List Char} (chars : text.toList = c :: cs)
    (start : isNameStart c = true) (more : cs.all isNameRest = true) :
    (Lexeme.name text).Spelled := by
  have named := Lexeme.name_spelled start (List.all_eq_true.mp more)
  rwa [← chars, String.ofList_toList] at named

end Words

namespace Layout
variable {before inner after : String} {parts : List String} {lss : List (List Lexeme)}
  {ls ms ks : List Lexeme}

/-- The lexemes around others, where there are others. -/
def around (ms ls ks : List Lexeme) : List Lexeme := if ls = [] then [] else ms ++ ls ++ ks

theorem wrap_spells (left : Closed before ms) (middle : Spells inner ls) (right : Spells after ks)
    (apart : Apart after) (visible : ls = [] → inner = "") :
    Spells (wrap before inner after) (around ms ls ks) := by
  unfold wrap around
  by_cases empty : inner = ""
  · subst empty
    rw [Spells.eq_nil middle]
    exact .empty
  · rw [if_neg (by simpa using empty), if_neg fun none => empty (visible none), List.append_assoc,
      String.append_assoc]
    exact left.append (middle.append right apart)

/-- Blanks around a text change nothing. -/
theorem wrap_blank_spells (left : Closed before []) (spells : Spells inner ls)
    (right : Spells after []) (apart : Apart after) (visible : ls = [] → inner = "") :
    Spells (wrap before inner after) ls := by
  have wrapped := wrap_spells left spells right apart visible
  unfold around at wrapped
  split at wrapped
  · rename_i none
    rwa [none]
  · simpa using wrapped

theorem wrap_apart (apart : Apart before) (nonempty : before ≠ "") :
    Apart (wrap before inner after) := by
  unfold wrap
  split
  · decide
  · rw [String.append_assoc]
    exact apart.append nonempty

theorem intercalate_spells {separator : String} (closed : Closed separator []) (apart : Apart separator)
    (nonempty : separator ≠ "") (spells : List.Forall₂ Spells parts lss) :
    Spells (separator.intercalate parts) lss.flatten := by
  induction spells with
  | nil => exact .empty
  | @cons part ls parts lss head tail ih =>
    cases tail with
    | nil => simpa using head
    | cons next tail =>
      rw [String.intercalate_cons_cons, List.flatten_cons]
      simpa using (head.append_closed closed apart nonempty).append ih

theorem filter_spells (spells : List.Forall₂ Spells parts lss) :
    ∃ kept, List.Forall₂ Spells (parts.filter fun part => !part.isEmpty) kept ∧
      kept.flatten = lss.flatten := by
  induction spells with
  | nil => exact ⟨[], .nil, rfl⟩
  | @cons part ls parts lss head _ ih =>
    obtain ⟨kept, spelled, same⟩ := ih
    by_cases empty : part = ""
    · subst empty
      exact ⟨kept, by simpa using spelled, by simp [same, head.eq_nil]⟩
    · exact ⟨ls :: kept, by simpa [empty] using ⟨head, spelled⟩, by simp [same]⟩

/-- Joining with blanks puts the lexemes of the parts behind each other. -/
theorem join_spells (separator : String) (closed : Closed separator []) (apart : Apart separator)
    (nonempty : separator ≠ "") (spells : List.Forall₂ Spells parts lss) :
    Spells (join parts separator) lss.flatten := by
  obtain ⟨kept, spelled, same⟩ := filter_spells spells
  rw [← same]
  exact intercalate_spells closed apart nonempty spelled

theorem indent_spells {text : String} (spells : Spells text ls) : Spells (indent text) ls := by
  rw [Spells, indent, String.toList_ofList]
  exact Written.indented spells

theorem block_spells (spells : List.Forall₂ Spells parts lss) :
    Spells (block parts) (.punctuator .braceL :: lss.flatten ++ [.punctuator .braceR]) := by
  unfold block
  cases spells with
  | nil => exact (Closed.mark .braceL).append (Closed.mark .braceR).spells
  | cons head tail =>
    have body := indent_spells (join_spells "\n" (.blanks _ (by decide)) (by decide)
      (by decide) (.cons head tail))
    have left := (Closed.mark .braceL).append_closed (.blanks "\n  " (by decide))
    have left : Closed "\x7b\n  " [.punctuator .braceL] := left.spelled (by decide)
    have right := (Closed.blanks "\n" (by decide)).append_closed (Closed.mark .braceR)
    have right : Closed "\n\x7d" [.punctuator .braceR] := right.spelled (by decide)
    rw [List.isEmpty_cons, if_neg (by decide)]
    exact (left.append body).append right.spells (by decide)

theorem block_apart : Apart (block parts) := by
  unfold block
  split
  · decide
  · exact Apart.append (Apart.append (by decide) (by decide)) (by simp)

end Layout
end GraphQL
