import GraphQL.Decimal.Reader

/-! Integers in decimal, as they are printed and as they are read. -/
namespace GraphQL.Decimal

theorem isDigit_eq (c : Char) : isDigit c = c.isDigit := by
  rw [isDigit, Char.isDigit, Bool.and_comm, Bool.and_comm (c.val ≥ '0'.val)]
  rfl

theorem ofDigits_eq (digits : List Char) : ofDigits digits = Nat.ofDigitChars 10 digits 0 := by
  rw [ofDigits, Nat.ofDigitChars_eq_foldl]
  exact congrArg (fun step => digits.foldl step 0)
    (funext fun n => funext fun c => congrArg (· + _) (Nat.mul_comm n 10))

/-- The digits of a number write it, without a sign. -/
theorem digits_natural (n : Nat) :
    (Nat.toDigits 10 n).all isDigit = true ∧ ofDigits (Nat.toDigits 10 n) = n := by
  refine ⟨List.all_eq_true.2 fun c member => ?_, ?_⟩
  · rw [isDigit_eq]
    exact Nat.isDigit_of_mem_toDigits (by decide) (by decide) member
  · rw [ofDigits_eq]
    exact Nat.ofDigitChars_ten_toDigits

/-- No zero stands in front of the other digits of a number. -/
theorem head_toDigits {n : Nat} (positive : 0 < n) : (Nat.toDigits 10 n).head? ≠ some '0' := by
  induction n using Nat.strongRecOn with
  | _ n ih =>
    rw [Nat.toDigits_eq_if (by decide)]
    split
    · rename_i small
      have digits : ∀ n < 10, 0 < n → n.digitChar ≠ '0' := by decide
      simpa using digits n small positive
    · have more := ih (n / 10) (by omega) (by omega)
      obtain ⟨first, rest, same⟩ := List.exists_cons_of_ne_nil (Nat.toDigits_ne_nil (b := 10) (n := n / 10))
      rw [same] at more ⊢
      exact more

/-- An integer is printed as its digits, with a sign in front if it is negative. -/
theorem toList_toString (i : Int) : (toString i).toList =
    if 0 ≤ i then Nat.toDigits 10 i.toNat else '-' :: Nat.toDigits 10 (-i).toNat := by
  rw [Int.toString_eq_repr, Int.repr_eq_if]
  split
  · exact Nat.toList_repr
  · rw [String.toList_append, Nat.toList_repr]
    rfl

theorem sign_digits {digits : List Char} (all : digits.all isDigit = true) :
    sign digits = (false, digits) := by
  cases digits with
  | nil => rfl
  | cons first rest =>
    rw [List.all_cons, Bool.and_eq_true] at all
    have apart : first ≠ '-' ∧ first ≠ '+' := by
      constructor <;> rintro rfl <;> exact absurd all.1 (by decide)
    unfold sign
    split
    · rename_i same
      exact absurd (List.cons.inj same).1 apart.1
    · rename_i same
      exact absurd (List.cons.inj same).1 apart.2
    · rfl

/-- The digits of a number, with a sign or without one, are read as that number. -/
theorem int?_digits (n : Nat) :
    int? (Nat.toDigits 10 n) = some (n : Int) ∧ int? ('-' :: Nat.toDigits 10 n) = some (-n : Int) := by
  obtain ⟨all, same⟩ := digits_natural n
  have full : (Nat.toDigits 10 n).isEmpty = false :=
    List.isEmpty_eq_false_iff.2 Nat.toDigits_ne_nil
  constructor
  · rw [int?, sign_digits all]
    dsimp only
    rw [full, all, same]
    rfl
  · rw [int?, sign]
    dsimp only
    rw [full, all, same]
    rfl

/-- What is printed of an integer is read as that integer. -/
theorem int?_toString (i : Int) : int? (toString i).toList = some i := by
  rw [toList_toString]
  split
  · rename_i positive
    rw [(int?_digits _).1, Int.toNat_of_nonneg positive]
  · rename_i negative
    rw [(int?_digits _).2, Int.toNat_of_nonneg (by omega), Int.neg_neg]

theorem int64?_toString {i : Int} (fits : fitsBits 64 i = true) : int64? (toString i) = some i := by
  rw [int64?, int?_toString, Option.filter_some, if_pos fits]

theorem fitsBits_wider {i : Int} (fits : fitsBits 32 i = true) : fitsBits 64 i = true := by
  simp only [fitsBits, twoTo, Bool.and_eq_true] at fits ⊢
  obtain ⟨low, high⟩ := fits
  have low := of_decide_eq_true low
  have high := of_decide_eq_true high
  constructor <;> refine decide_eq_true ?_ <;> simp at low high ⊢ <;> omega

end GraphQL.Decimal
