import Mathlib.Data.List.Infix
import GraphQL.Proofs.Language.Cutting

/-! Slices of texts. The tokens of a text stand between characters, one behind the other, and the
text from the first to the last of some tokens has just these tokens. -/
namespace GraphQL

open Text (byteLength)

/-- A token that stands at other positions. -/
def Token.moved (position : Nat → Nat) (token : Token) : Token :=
  ⟨token.lexeme, position token.start, position token.stop⟩

/-- The end of the text, as a token. -/
def Cursor.finish (here : Cursor) : Token :=
  ⟨.finish, here.offset + byteLength here.rest, here.offset + byteLength here.rest⟩

namespace Lexer

/-- The scanner finds the tokens one after the other, none of which is the end. -/
inductive Scans : Cursor → List Token → Cursor → Prop
  | done (here : Cursor) : Scans here [] here
  | next {here middle after : Cursor} {found : Token} {rest : List Token} :
      token here = .ok (found, middle) → found.lexeme ≠ .finish → Scans middle rest after →
      Scans here (found :: rest) after

section Scans
variable {here after : Cursor} {tokens : List Token}

theorem Scans.split {first second : List Token} (scans : Scans here (first ++ second) after) :
    ∃ middle, Scans here first middle ∧ Scans middle second after := by
  induction first generalizing here with
  | nil => exact ⟨here, .done here, scans⟩
  | cons token first ih =>
    cases scans with
    | next step other rest =>
      obtain ⟨middle, before, behind⟩ := ih rest
      exact ⟨middle, .next step other before, behind⟩

/-- The tokens take characters that are found again as the same tokens, wherever they stand and
wherever the text is cut behind them. -/
theorem Scans.takes (scans : Scans here tokens after) : ∃ taken,
    here.rest = taken ++ after.rest ∧ after.offset = here.offset + byteLength taken ∧
      ∀ (position : Nat → Nat) (offset : Nat) (kept : List Char), kept <+: after.rest →
        (∀ n, position (here.offset + n) = offset + n) →
          Scans ⟨offset, taken ++ kept⟩ (tokens.map (Token.moved position))
            ⟨offset + byteLength taken, kept⟩ := by
  induction scans with
  | done here => exact ⟨[], rfl, rfl, fun position offset kept cut moves => .done _⟩
  | @next here middle after found rest step other _ ih =>
    obtain ⟨blanks, own, stands⟩ := token_stands step other
    obtain ⟨taken, chars, offset, again⟩ := ih
    refine ⟨blanks ++ own ++ taken, ?_, ?_, fun position start kept cut moves => ?_⟩
    · rw [stands.chars, chars, List.append_assoc, List.append_assoc]
    · rw [offset, stands.offset, stands.stop, stands.start, Text.byteLength_append,
        Text.byteLength_append]
      omega
    · have whole : taken ++ kept <+: middle.rest := by
        rw [chars]
        exact (List.prefix_append_right_inj taken).mpr cut
      have place : Token.moved position found = ⟨found.lexeme, start + byteLength blanks,
          start + byteLength blanks + byteLength own⟩ := by
        rw [Token.moved, stands.stop, stands.start, Nat.add_assoc here.offset, moves, moves,
          Nat.add_assoc]
      have first := stands.again start (taken ++ kept) whole
      have others := again position (start + byteLength blanks + byteLength own) kept cut fun n => by
        rw [stands.offset, stands.stop, stands.start, Nat.add_assoc, Nat.add_assoc, moves]
        omega
      rw [List.map_cons, place, Text.byteLength_append, Text.byteLength_append]
      simp only [List.append_assoc, ← Nat.add_assoc]
      exact .next first other others

/-- From the first to the last of some tokens there are just these tokens. -/
theorem Scans.slice {first : Token} {rest : List Token} (scans : Scans here (first :: rest) after) :
    ∃ before taken, here.rest = before ++ (taken ++ after.rest) ∧
      first.start = here.offset + byteLength before ∧
      after.offset = first.start + byteLength taken ∧
      Scans ⟨0, taken⟩ ((first :: rest).map (Token.moved (· - first.start)))
        ⟨byteLength taken, []⟩ := by
  cases scans with
  | @next here middle after _ _ step other scans =>
    obtain ⟨blanks, own, stands⟩ := token_stands step other
    obtain ⟨taken, chars, offset, again⟩ := scans.takes
    refine ⟨blanks, own ++ taken, ?_, stands.start, ?_, ?_⟩
    · rw [stands.chars, chars, List.append_assoc]
    · rw [offset, stands.offset, stands.stop, Text.byteLength_append, Nat.add_assoc]
    · have place : Token.moved (· - first.start) first = ⟨first.lexeme, 0, 0 + byteLength own⟩ := by
        simp [Token.moved, stands.stop]
      have whole : taken ++ [] <+: middle.rest := by
        rw [chars, List.append_nil]
        exact List.prefix_append ..
      have alone := stands.alone 0 (taken ++ []) whole
      have others := again (· - first.start) (0 + byteLength own) [] (List.nil_prefix) fun n => by
        rw [stands.offset, stands.stop]
        omega
      rw [List.map_cons, place, Text.byteLength_append]
      simp only [List.append_nil, Nat.zero_add] at alone others ⊢
      exact .next alone other others

/-- The tokens stand one behind the other. -/
theorem Scans.ordered (scans : Scans here tokens after) : here.offset ≤ after.offset ∧
    (∀ token ∈ tokens, here.offset ≤ token.start ∧ token.start < token.stop ∧
      token.stop ≤ after.offset) ∧ tokens.Pairwise fun first second => first.stop ≤ second.start := by
  induction scans with
  | done here => exact ⟨Nat.le_refl _, nofun, .nil⟩
  | @next here middle after found rest step other _ ih =>
    obtain ⟨blanks, own, stands⟩ := token_stands step other
    obtain ⟨onward, inside, apart⟩ := ih
    have start := stands.start
    have stop := stands.stop
    have offset := stands.offset
    have filled := Text.byteLength_pos stands.filled
    refine ⟨by omega, List.forall_mem_cons.2 ⟨by omega, fun token member => ?_⟩,
      .cons (fun token member => ?_) apart⟩
    · have := inside token member
      omega
    · have := inside token member
      omega

/-- An offset that is reached between two characters. -/
def Reaches (here : Cursor) (offset : Nat) : Prop :=
  ∃ front back, here.rest = front ++ back ∧ offset = here.offset + byteLength front

theorem Reaches.behind {middle : Cursor} {front : List Char} {offset : Nat}
    (reaches : Reaches middle offset) (chars : here.rest = front ++ middle.rest)
    (onward : middle.offset = here.offset + byteLength front) : Reaches here offset := by
  obtain ⟨more, back, split, rfl⟩ := reaches
  refine ⟨front ++ more, back, ?_, ?_⟩
  · rw [chars, split, List.append_assoc]
  · rw [onward, Text.byteLength_append, Nat.add_assoc]

/-- Tokens begin and end between characters. -/
theorem Scans.reaches (scans : Scans here tokens after) :
    ∀ token ∈ tokens, Reaches here token.start ∧ Reaches here token.stop := by
  induction scans with
  | done here => exact nofun
  | @next here middle after found rest step other _ ih =>
    obtain ⟨blanks, own, stands⟩ := token_stands step other
    have chars : here.rest = blanks ++ own ++ middle.rest := by
      rw [stands.chars, List.append_assoc]
    have stop : found.stop = here.offset + byteLength (blanks ++ own) := by
      rw [stands.stop, stands.start, Text.byteLength_append, Nat.add_assoc]
    have onward : middle.offset = here.offset + byteLength (blanks ++ own) := by
      rw [stands.offset, stop]
    refine List.forall_mem_cons.2 ⟨⟨⟨blanks, _, stands.chars, stands.start⟩, _, _, chars, stop⟩,
      fun token member => ?_⟩
    obtain ⟨start, stop⟩ := ih token member
    exact ⟨start.behind chars onward, stop.behind chars onward⟩

end Scans

theorem lexeme_unfinished {offset : Nat} {c : Char} {cs : List Char} {found : Lexeme}
    {after : Cursor} (run : lexeme ⟨offset, c :: cs⟩ = .ok (found, after)) : found ≠ .finish := by
  unfold lexeme at run
  split at run
  · rename_i none
    cases none
  · cases run
    simp
  · obtain ⟨_, -, ends⟩ := bind_eq_ok.mp run
    cases ends
    simp
  · split at run
    · cases run
      simp
    split at run
    · obtain ⟨_, _, _, _, _, _, _, _, _, rfl⟩ := number_parts.mp run
      unfold ofParts
      split <;> simp
    split at run
    · cases run
      simp
    · cases run

/-- Where the end is found, the rest of the text has been dropped. -/
theorem token_finish {here after : Cursor} {found : Token} (run : token here = .ok (found, after))
    (last : found.lexeme = .finish) : found = here.finish := by
  obtain ⟨⟨l, behind⟩, step, ends⟩ := bind_eq_ok.mp run
  obtain ⟨rfl, rfl⟩ := Prod.mk.inj (Except.ok.inj ends)
  obtain rfl : l = .finish := last
  cases dropped : dropIgnored false here.offset here.rest with
  | mk stop rest =>
    rw [dropped] at step
    cases rest with
    | nil =>
      cases step
      rw [dropIgnored_ends dropped]
      rfl
    | cons c rest => exact absurd rfl (lexeme_unfinished step)

theorem Scans.tokens {here : Cursor} {found : List Token} {stop fuel : Nat}
    (scans : Scans here found ⟨stop, []⟩) (enough : here.rest.length < fuel) :
    tokens fuel here = (found ++ [⟨.finish, stop, stop⟩], none) := by
  generalize ends : (⟨stop, []⟩ : Cursor) = after at scans
  induction scans generalizing fuel with
  | done here =>
    cases ends
    cases fuel with
    | zero => exact absurd enough (Nat.not_lt_zero _)
    | succ fuel => rfl
  | @next here middle after found rest step other _ ih =>
    cases fuel with
    | zero => exact absurd enough (Nat.not_lt_zero _)
    | succ fuel =>
      have shorter := token_shortens step other
      rw [Lexer.tokens, step]
      have found : Lexer.tokens fuel middle = _ := ih (by omega) ends
      simp only [other, if_false, found, List.cons_append]

/-- A text that is scanned to its end has its tokens one after the other, and then its end. -/
theorem scans_of_tokens {fuel : Nat} {here : Cursor} {found : List Token}
    (enough : here.rest.length < fuel) (run : tokens fuel here = (found, none)) :
    ∃ inner after, Scans here inner after ∧ found = inner ++ [here.finish] := by
  induction fuel generalizing here found with
  | zero => exact absurd enough (Nat.not_lt_zero _)
  | succ fuel ih =>
    rw [Lexer.tokens] at run
    split at run
    · cases run
    · rename_i first after step
      split at run
      · rename_i last
        cases run
        exact ⟨[], here, .done here, by rw [token_finish step last, List.nil_append]⟩
      · rename_i other
        have shorter := token_shortens step other
        obtain ⟨whole, ends⟩ := Prod.mk.inj run
        obtain ⟨inner, last, scans, split⟩ := ih (by omega) (Prod.ext rfl ends)
        refine ⟨first :: inner, last, .next step other scans, ?_⟩
        obtain ⟨taken, chars, offset, -⟩ := (Scans.next step other (.done after)).takes
        have same : after.finish = here.finish := by
          rw [Cursor.finish, Cursor.finish, chars, offset, Text.byteLength_append, Nat.add_assoc]
        rw [← whole, List.cons_append, ← same]
        exact congrArg (first :: ·) split

theorem unfinished_of_failure {fuel : Nat} {here : Cursor} {found : List Token}
    {fault : LexicalFault} (run : tokens fuel here = (found, some fault)) :
    ∀ token ∈ found, token.lexeme ≠ .finish := by
  induction fuel generalizing here found with
  | zero => cases run
  | succ fuel ih =>
    rw [Lexer.tokens] at run
    split at run
    · cases run
      exact List.forall_mem_nil _
    · rename_i first after step
      split at run
      · cases run
      · rename_i other
        obtain ⟨rfl, failed⟩ := Prod.mk.inj run
        exact List.forall_mem_cons.2 ⟨other, ih (Prod.ext rfl failed)⟩

end Lexer

namespace Text

theorem splitAt_append (front back : List Char) :
    splitAt? (byteLength front) (front ++ back) = some (front, back) := by
  induction front with
  | nil => rw [byteLength, splitAt?, List.nil_append]
  | cons c front ih =>
    obtain ⟨size, known⟩ := Nat.exists_eq_add_of_le' c.utf8Size_pos
    have enough : c.utf8Size ≤ size + byteLength front + 1 := by omega
    have left : size + byteLength front + 1 - c.utf8Size = byteLength front := by omega
    have total : byteLength (c :: front) = size + byteLength front + 1 := by
      rw [byteLength]
      omega
    rw [total, List.cons_append, splitAt?, if_pos enough, left, ih]
    rfl

theorem slice_append (before taken rest : List Char) :
    slice? (byteLength before) (byteLength before + byteLength taken) (before ++ (taken ++ rest)) =
      some taken := by
  rw [slice?, if_pos (Nat.le_add_right ..), splitAt_append, Nat.add_sub_cancel_left]
  show (splitAt? (byteLength taken) (taken ++ rest) >>= fun middle => some middle.1) = _
  rw [splitAt_append]
  rfl

end Text

namespace Source
open Lexer

/-- A byte offset between two characters of a text, or at an end of it. -/
def Boundary (source : Source) (offset : Nat) : Prop :=
  ∃ front back, source.chars = front ++ back ∧ byteLength front = offset

variable {source : Source}

theorem tokens_eq (source : Source) : source.tokens =
    let read := Lexer.tokens (source.chars.length + 1) ⟨0, source.chars⟩
    ⟨read.1, read.2.map source.errorAt⟩ := by
  simp [Source.tokens, tokensFrom, cursorAt, Text.splitAt?, pure, Except.pure]

/-- The tokens of a text that is scanned to its end. -/
theorem tokens_scan (lexed : source.tokens.failure = none) :
    ∃ inner after, Scans ⟨0, source.chars⟩ inner after ∧
      source.tokens.tokens = inner ++ [⟨.finish, source.size, source.size⟩] := by
  rw [tokens_eq] at lexed ⊢
  have whole := Option.map_eq_none_iff.mp lexed
  obtain ⟨inner, after, scans, split⟩ :=
    scans_of_tokens (Nat.lt_succ_self _) (Prod.ext rfl whole)
  refine ⟨inner, after, scans, split.trans ?_⟩
  rw [Cursor.finish, Nat.zero_add]
  rfl

/-- No token of a text is its end that is not scanned to the end. -/
theorem tokens_unfinished {error : SyntaxError} (lexed : source.tokens.failure = some error) :
    ∀ token ∈ source.tokens.tokens, token.lexeme ≠ .finish := by
  rw [tokens_eq] at lexed ⊢
  obtain ⟨fault, failed, -⟩ := Option.map_eq_some_iff.mp lexed
  exact unfinished_of_failure (Prod.ext rfl failed)

/-- The text from the first to the last of some tokens has just these tokens, and then its end. -/
theorem slice_tokens {here after : Cursor} {before rest : List Token} {first : Token}
    (front : Scans ⟨0, source.chars⟩ before here) (scans : Scans here (first :: rest) after)
    (name : String) :
    (Source.mk (Span.mk first.start after.offset source).text name).tokens =
      ⟨(first :: rest ++ [Token.mk .finish after.offset after.offset]).map
        (Token.moved (· - first.start)), none⟩ := by
  obtain ⟨passed, chars, offset, -⟩ := front.takes
  obtain ⟨blanks, taken, own, start, stop, alone⟩ := scans.slice
  have whole : source.chars = (passed ++ blanks) ++ (taken ++ after.rest) := by
    rw [show source.chars = passed ++ here.rest from chars, own, List.append_assoc]
  have begins : first.start = byteLength (passed ++ blanks) := by
    rw [start, offset, Text.byteLength_append]
    exact congrArg (· + byteLength blanks) (Nat.zero_add _)
  have text : (Span.mk first.start after.offset source).text = String.ofList taken := by
    show ((Text.slice? first.start after.offset source.chars).map String.ofList).getD "" = _
    rw [stop, begins, whole, Text.slice_append]
    rfl
  have read := alone.tokens (Nat.lt_succ_self taken.length)
  rw [tokens_eq, text]
  simp only [Source.chars, String.toList_ofList, read, Option.map_none]
  rw [List.map_append, stop]
  simp [Token.moved]

end Source
end GraphQL
