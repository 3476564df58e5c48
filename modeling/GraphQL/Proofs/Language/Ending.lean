import GraphQL.Proofs.Language.Spelling

/-! Scanning comes to an end. Every lexeme but the end of the text takes at least one character, so
that a text which is scanned without a fault has the end as its last token, and nowhere else. -/
namespace GraphQL

namespace Lexer

theorem digits_shorten {here after : Cursor} {found : List Char}
    (h : digits here = .ok (found, after)) : after.rest.length < here.rest.length := by
  obtain ⟨⟨c, cs, -, first, digit⟩, -⟩ := digits_refound h
  unfold digits at h
  split at h
  · cases h
  · cases h
    obtain ⟨rest, chars⟩ := List.head?_eq_some_iff.mp first
    rw [chars, List.dropWhile_cons_of_pos digit, List.length_cons]
    exact Nat.lt_succ_of_le (List.dropWhile_suffix _).length_le

theorem integerPart_shortens {here after : Cursor} {found : List Char}
    (h : integerPart here = .ok (found, after)) : after.rest.length < here.rest.length := by
  unfold integerPart at h
  split at h
  · rename_i rest chars
    rw [chars]
    split at h
    · split at h
      · cases h
      · cases h
        exact Nat.lt_succ_self _
    · cases h
      exact Nat.lt_succ_self _
  · exact digits_shorten h

theorem fractionPart_shortens {here after : Cursor} {found : List Char}
    (h : fractionPart here = .ok (found, after)) : after.rest.length ≤ here.rest.length := by
  unfold fractionPart at h
  split at h
  · rename_i rest chars
    obtain ⟨⟨more, last⟩, step, ends⟩ := bind_eq_ok.mp h
    cases ends
    rw [chars, List.length_cons]
    exact Nat.le_succ_of_le (digits_shorten step).le
  · cases h
    exact Nat.le_refl _

theorem signPart_shortens (signs : List Char) (here : Cursor) :
    (signPart signs here).2.rest.length ≤ here.rest.length := by
  unfold signPart
  split
  · rename_i c rest chars
    split
    · simp [chars]
    · exact Nat.le_refl _
  · exact Nat.le_refl _

theorem exponentPart_shortens {here after : Cursor} {found : List Char}
    (h : exponentPart here = .ok (found, after)) : after.rest.length ≤ here.rest.length := by
  unfold exponentPart at h
  split at h
  · rename_i c rest chars
    split at h
    · obtain ⟨⟨more, last⟩, step, ends⟩ := bind_eq_ok.mp h
      cases ends
      rw [chars, List.length_cons]
      exact Nat.le_succ_of_le ((digits_shorten step).le.trans (signPart_shortens _ _))
    · cases h
      exact Nat.le_refl _
  · cases h
    exact Nat.le_refl _

theorem number_shortens {here after : Cursor} {found : Lexeme}
    (h : number here = .ok (found, after)) : after.rest.length < here.rest.length := by
  obtain ⟨whole, afterWhole, fraction, afterFraction, exponent, hw, hf, he, -⟩ := number_parts.mp h
  have := signPart_shortens ['-'] here
  have := integerPart_shortens hw
  have := fractionPart_shortens hf
  have := exponentPart_shortens he
  omega

theorem prepend_eq_ok {c : Char} {read : Scan (List Char × Cursor)} {value : List Char}
    {after : Cursor} (h : prepend c read = .ok (value, after)) :
    ∃ inner, read = .ok (inner, after) := by
  cases read with
  | error => cases h
  | ok parts =>
    obtain ⟨inner, last⟩ := parts
    cases h
    exact ⟨inner, rfl⟩

theorem stringBody_shortens {offset : Nat} {chars value : List Char} {after : Cursor}
    (h : stringBody offset chars = .ok (value, after)) : after.rest.length < chars.length := by
  fun_induction stringBody offset chars generalizing value with
  | case1 | case3 | case5 | case6 | case8 | case9 | case10 => cases h
  | case2 =>
    cases h
    exact Nat.lt_succ_self _
  | case4 _ _ _ _ _ _ _ _ ih | case7 _ _ _ _ _ _ ih | case11 _ _ _ _ _ _ _ ih =>
    obtain ⟨inner, read⟩ := prepend_eq_ok h
    have := ih read
    simp only [List.length_cons]
    omega

theorem lexeme_shortens {here after : Cursor} {found : Lexeme}
    (h : lexeme here = .ok (found, after)) (more : found ≠ .finish) :
    after.rest.length < here.rest.length := by
  unfold lexeme at h
  split at h
  · cases h
    contradiction
  · rename_i rest chars
    cases h
    simp only [chars, List.length_cons]
    omega
  · rename_i rest chars
    obtain ⟨⟨value, last⟩, step, ends⟩ := bind_eq_ok.mp h
    cases ends
    have := stringBody_shortens step
    simp only [chars, List.length_cons]
    omega
  · rename_i c rest _ _ chars
    split at h
    · cases h
      simp [chars]
    split at h
    · exact number_shortens h
    split at h
    · rename_i start
      cases h
      have word : isNameRest c = true := by simp [isNameRest, start]
      rw [chars, List.dropWhile_cons_of_pos word, List.length_cons]
      exact Nat.lt_succ_of_le (List.dropWhile_suffix _).length_le
    · cases h

theorem dropIgnored_shortens (comment : Bool) (offset : Nat) (chars : List Char) :
    (dropIgnored comment offset chars).rest.length ≤ chars.length := by
  induction chars generalizing comment offset with
  | nil => exact Nat.le_refl _
  | cons c rest ih =>
    unfold dropIgnored
    split
    · exact Nat.le_succ_of_le (ih _ _)
    split
    · exact Nat.le_succ_of_le (ih _ _)
    split
    · exact Nat.le_succ_of_le (ih _ _)
    · exact Nat.le_refl _

theorem token_shortens {here after : Cursor} {found : Token} (h : token here = .ok (found, after))
    (more : found.lexeme ≠ .finish) : after.rest.length < here.rest.length := by
  obtain ⟨⟨l, last⟩, step, ends⟩ := bind_eq_ok.mp h
  cases ends
  exact Nat.lt_of_lt_of_le (lexeme_shortens step more) (dropIgnored_shortens _ _ _)

/-- There are tokens, of which the last is the end of the text, and no other. -/
structure Ended (tokens : List Token) : Prop where
  some : tokens ≠ []
  last : ∀ before token after, tokens = before ++ token :: after →
    (token.lexeme = .finish ↔ after = [])

theorem tokens_ended {fuel : Nat} {here : Cursor} {found : List Token}
    (enough : here.rest.length < fuel) (h : tokens fuel here = (found, none)) : Ended found := by
  induction fuel generalizing here found with
  | zero => simp at enough
  | succ fuel ih =>
    unfold tokens at h
    split at h
    · cases h
    · rename_i first after step
      split at h
      · rename_i last
        cases h
        refine ⟨by simp, fun before token after split => ?_⟩
        obtain ⟨rfl, rfl, rfl⟩ : before = [] ∧ token = first ∧ after = [] := by
          simpa [List.singleton_eq_append_iff] using split
        simpa using last
      · rename_i more
        have shorter := token_shortens step more
        have rest := ih (by omega) (Prod.ext rfl (Prod.mk.inj h).2)
        rw [← (Prod.mk.inj h).1]
        refine ⟨by simp, fun before token after split => ?_⟩
        cases before with
        | nil =>
          obtain ⟨rfl, rfl⟩ := List.cons.inj split
          exact iff_of_false more rest.some
        | cons _ before => exact rest.last before token after (List.cons.inj split).2

end Lexer

/-- A text that is scanned without a fault is scanned to its end. -/
theorem Source.tokens_ended {source : Source} (lexed : source.tokens.failure = none) :
    Lexer.Ended source.tokens.tokens := by
  unfold Source.tokens Source.tokensFrom at lexed ⊢
  split
  · rename_i fault broken
    rw [broken] at lexed
    cases lexed
  · rename_i here found
    rw [found] at lexed
    exact Lexer.tokens_ended (Nat.lt_succ_self _) (Prod.ext rfl (Option.map_eq_none_iff.mp lexed))

end GraphQL
