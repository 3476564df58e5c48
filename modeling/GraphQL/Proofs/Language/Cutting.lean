import GraphQL.Proofs.Language.Ending

/-! Scanning is local. What a token is depends on the characters that it takes and on the one that
follows them, so that a text can be cut behind any token, and is scanned alike from any other offset
on. -/
namespace GraphQL

open Text (byteLength)

theorem Text.byteLength_append (first second : List Char) :
    byteLength (first ++ second) = byteLength first + byteLength second := by
  induction first with
  | nil => simp [byteLength]
  | cons c rest ih => rw [List.cons_append, byteLength, ih, byteLength, Nat.add_assoc]

theorem Text.byteLength_low {cs : List Char} (low : ∀ c ∈ cs, c.utf8Size = 1) :
    byteLength cs = cs.length := by
  induction cs with
  | nil => rfl
  | cons c rest ih =>
    obtain ⟨first, others⟩ := List.forall_mem_cons.1 low
    rw [byteLength, first, ih others, List.length_cons, Nat.add_comm]

theorem Text.byteLength_pos {cs : List Char} (filled : cs ≠ []) : 0 < byteLength cs := by
  cases cs with
  | nil => contradiction
  | cons c rest => exact Nat.add_pos_left c.utf8Size_pos _

theorem utf8Size_low {c : Char} (low : c.toNat < 128) : c.utf8Size = 1 := by
  have small : c.val ≤ 0x7f := by
    rw [UInt32.le_iff_toNat_le]
    exact Nat.le_of_lt_succ low
  exact if_pos small

namespace Lexer

theorem nameRest_low {c : Char} (word : isNameRest c = true) : c.utf8Size = 1 := by
  refine utf8Size_low ?_
  simp only [isNameRest, isNameStart, isDigit, Bool.or_eq_true, beq_iff_eq, Bool.and_eq_true,
    decide_eq_true_eq, Char.le_def, UInt32.le_iff_toNat_le] at word
  rcases word with ((rfl | ⟨-, high⟩) | ⟨-, high⟩) | ⟨-, high⟩
  · decide
  all_goals exact Nat.lt_of_le_of_lt high (by decide)

theorem digit_low {c : Char} (digit : isDigit c = true) : c.utf8Size = 1 :=
  nameRest_low (by simp [isNameRest, digit])

theorem hexValue_low {c : Char} {value : Nat} (hex : hexValue? c = some value) :
    c.utf8Size = 1 := by
  refine utf8Size_low ?_
  simp only [hexValue?, isDigit, Bool.and_eq_true, decide_eq_true_eq, Char.le_def,
    UInt32.le_iff_toNat_le] at hex
  split at hex
  · rename_i digit
    exact Nat.lt_of_le_of_lt digit.2 (by decide)
  split at hex
  · rename_i lower
    exact Nat.lt_of_le_of_lt lower.2 (by decide)
  split at hex
  · rename_i upper
    exact Nat.lt_of_le_of_lt upper.2 (by decide)
  · cases hex

/-- What stands first in front of a text stands first in front of the text that goes on. -/
theorem head_of_kept {kept rest : List Char} (cut : kept <+: rest) :
    ∀ c ∈ kept.head?, c ∈ rest.head? := by
  obtain ⟨more, rfl⟩ := cut
  intro c first
  cases kept with
  | nil => cases first
  | cons d kept => exact first

theorem head_dropWhile {p : Char → Bool} {cs : List Char} :
    ∀ c ∈ (cs.dropWhile p).head?, p c = false := by
  intro c first
  have stop := List.head?_dropWhile_not p cs
  rw [Option.mem_def.mp first] at stop
  exact stop

/-- What a scan finds, it finds again where the characters stand that it took, wherever the text is
cut behind them. -/
structure Takes {α : Type} (scan : Cursor → Scan (α × Cursor)) (here : Cursor) (found : α)
    (after : Cursor) (taken : List Char) : Prop where
  chars : here.rest = taken ++ after.rest
  offset : after.offset = here.offset + byteLength taken
  again : ∀ offset kept, kept <+: after.rest →
    scan ⟨offset, taken ++ kept⟩ = .ok (found, ⟨offset + byteLength taken, kept⟩)

/-- Whatever the scan finds, it takes some characters for it. -/
def Local {α : Type} (scan : Cursor → Scan (α × Cursor)) : Prop :=
  ∀ here found after, scan here = .ok (found, after) → ∃ taken, Takes scan here found after taken

section Locality
variable {α β : Type}

/-- What takes anything at all takes the first character. -/
theorem Takes.starts {scan : Cursor → Scan (α × Cursor)} {here after : Cursor} {found : α}
    {taken rest : List Char} {c : Char} (takes : Takes scan here found after taken)
    (chars : here.rest = c :: rest) (shorter : after.rest.length < here.rest.length) :
    ∃ more, taken = c :: more := by
  have split := takes.chars
  cases taken with
  | nil =>
    rw [split] at shorter
    exact absurd shorter (lt_irrefl _)
  | cons d more =>
    rw [chars] at split
    exact ⟨more, by rw [(List.cons.inj split).1]⟩

theorem Local.bind {f : Cursor → Scan (α × Cursor)} {g : α → Cursor → Scan (β × Cursor)}
    (first : Local f) (next : ∀ a, Local (g a)) : Local fun here => f here >>= fun r => g r.1 r.2 := by
  intro here found after run
  obtain ⟨⟨a, middle⟩, step, run⟩ := bind_eq_ok.mp run
  obtain ⟨taken, takes⟩ := first here a middle step
  obtain ⟨more, others⟩ := next a middle found after run
  refine ⟨taken ++ more, ?_, ?_, fun offset kept cut => bind_eq_ok.mpr ?_⟩
  · rw [takes.chars, others.chars, List.append_assoc]
  · rw [others.offset, takes.offset, Text.byteLength_append, Nat.add_assoc]
  · rw [List.append_assoc]
    have whole : more ++ kept <+: middle.rest := by
      rw [others.chars]
      exact (List.prefix_append_right_inj more).mpr cut
    refine ⟨_, takes.again offset _ whole, ?_⟩
    rw [Text.byteLength_append, ← Nat.add_assoc]
    exact others.again _ kept cut

theorem Local.map {f : Cursor → Scan (α × Cursor)} (scan : Local f) (h : α → β) :
    Local fun here => f here >>= fun r => pure (h r.1, r.2) := by
  refine scan.bind (g := fun a here => pure (h a, here)) fun a here found after run => ?_
  cases run
  exact ⟨[], rfl, rfl, fun offset kept _ => rfl⟩

/-- A scan that goes on behind a character takes this character too. -/
theorem Local.behind {scan : Cursor → Scan (β × Cursor)} {inner : Cursor → Scan (α × Cursor)}
    {h : α → β} {c : Char} {here after : Cursor} {rest : List Char} {found : β} (next : Local inner)
    (low : c.utf8Size = 1) (step : ∀ offset cs,
      scan ⟨offset, c :: cs⟩ = inner ⟨offset + 1, cs⟩ >>= fun r => pure (h r.1, r.2))
    (chars : here.rest = c :: rest) (run : scan here = .ok (found, after)) :
    ∃ taken, Takes scan here found after taken := by
  rw [show here = ⟨here.offset, c :: rest⟩ by rw [← chars], step] at run
  obtain ⟨⟨a, last⟩, read, ends⟩ := bind_eq_ok.mp run
  cases ends
  obtain ⟨taken, takes⟩ := next _ _ _ read
  have split : rest = taken ++ last.rest := takes.chars
  refine ⟨c :: taken, ?_, ?_, fun offset kept cut => ?_⟩
  · rw [chars, split, List.cons_append]
  · rw [takes.offset, byteLength, low, Nat.add_assoc]
  · rw [List.cons_append, step, byteLength, low, ← Nat.add_assoc]
    exact bind_eq_ok.mpr ⟨_, takes.again (offset + 1) kept cut, rfl⟩

theorem digits_local : Local digits := by
  intro here found after run
  have all : ∀ c ∈ here.rest.takeWhile isDigit, isDigit c = true :=
    fun c member => List.mem_takeWhile_imp member
  have length := Text.byteLength_low fun c member => digit_low (all c member)
  unfold digits at run
  split at run
  · cases run
  · rename_i nonempty
    cases run
    refine ⟨_, List.takeWhile_append_dropWhile.symm, by rw [length], fun offset kept cut => ?_⟩
    have stop : ∀ c ∈ kept.head?, isDigit c = false := fun c first =>
      head_dropWhile c (head_of_kept cut c first)
    obtain ⟨taken, dropped⟩ := takeWhile_stop all stop
    unfold digits
    simp only [taken, dropped, length]
    rfl

theorem signPart_local (signs : List Char) (low : ∀ c ∈ signs, c.utf8Size = 1) :
    Local fun here => .ok (signPart signs here) := by
  intro here found after run
  have run := Except.ok.inj run
  cases chars : here.rest with
  | nil =>
    simp only [signPart, chars] at run
    cases run
    refine ⟨[], by simp [chars], rfl, fun offset kept cut => ?_⟩
    rw [chars, List.prefix_nil] at cut
    rw [cut]
    rfl
  | cons c rest =>
    simp only [signPart, chars] at run
    by_cases sign : c ∈ signs
    · rw [if_pos (by simpa using sign)] at run
      cases run
      refine ⟨[c], chars, ?_, fun offset kept cut => ?_⟩
      · simp [byteLength, low c sign]
      · simp [signPart, byteLength, low c sign, sign]
    · rw [if_neg (by simpa using sign)] at run
      cases run
      refine ⟨[], by simp, rfl, fun offset kept cut => ?_⟩
      cases kept with
      | nil => rfl
      | cons d kept =>
        have first : c = d := by simpa [chars] using head_of_kept cut d rfl
        simp [signPart, byteLength, ← first, sign]

theorem integerPart_digits {offset : Nat} {c : Char} {cs : List Char} (other : c ≠ '0') :
    integerPart ⟨offset, c :: cs⟩ = digits ⟨offset, c :: cs⟩ := by
  unfold integerPart
  split
  · rename_i zero
    exact absurd (List.cons.inj zero).1 other
  · rfl

theorem integerPart_local : Local integerPart := by
  intro here found after run
  unfold integerPart at run
  split at run
  · rename_i rest zero
    have lone : found = ['0'] ∧ after = ⟨here.offset + 1, rest⟩ ∧
        ∀ c ∈ rest.head?, isDigit c = false := by
      split at run
      · rename_i next first
        split at run
        · cases run
        · rename_i other
          cases run
          exact ⟨rfl, rfl, by simpa [first] using other⟩
      · rename_i last
        cases run
        exact ⟨rfl, rfl, by simp [last]⟩
    obtain ⟨rfl, rfl, free⟩ := lone
    refine ⟨['0'], zero, rfl, fun offset kept cut => ?_⟩
    cases kept with
    | nil => rfl
    | cons d kept =>
      have other := free d (head_of_kept cut d rfl)
      simp [integerPart, other, byteLength, pure, Except.pure, utf8Size_low]
  · rename_i other
    obtain ⟨taken, takes⟩ := digits_local here found after run
    refine ⟨taken, takes.chars, takes.offset, fun offset kept cut => ?_⟩
    obtain ⟨⟨d, ds, -, first, -⟩, -⟩ := digits_refound run
    obtain ⟨rest, chars⟩ := List.head?_eq_some_iff.mp first
    obtain ⟨more, rfl⟩ := takes.starts chars (digits_shorten run)
    rw [← takes.again offset kept cut]
    exact integerPart_digits fun zero => other rest (by rw [chars, zero])

theorem fractionPart_local : Local fractionPart := by
  intro here found after run
  have whole := run
  unfold fractionPart at run
  split at run
  · rename_i rest dot
    exact digits_local.behind (c := '.') rfl (fun _ _ => rfl) dot whole
  · rename_i other
    cases run
    refine ⟨[], rfl, rfl, fun offset kept cut => ?_⟩
    unfold fractionPart
    split
    · rename_i rest dot
      obtain ⟨more, whole⟩ := cut
      exact absurd (whole.symm.trans (by rw [show kept = '.' :: rest from dot]; rfl)) (other _)
    · rfl

theorem exponentPart_local : Local exponentPart := by
  intro here found after run
  have whole := run
  unfold exponentPart at run
  split at run
  · rename_i c rest chars
    split at run
    · rename_i letter
      have low : c.utf8Size = 1 := by
        simp only [Bool.or_eq_true, beq_iff_eq] at letter
        rcases letter with rfl | rfl <;> rfl
      have signs := signPart_local ['+', '-']
        (List.forall_mem_cons.2 ⟨rfl, List.forall_mem_singleton.2 rfl⟩)
      have scan := signs.bind fun sign => digits_local.map (sign ++ ·)
      refine scan.behind (h := (c :: ·)) low (fun offset cs => ?_) chars whole
      simp only [exponentPart, letter, if_true]
      cases read : digits (signPart ['+', '-'] ⟨offset + 1, cs⟩).2 with
      | error => simp [read, bind, Except.bind]
      | ok r => simp [read, bind, Except.bind, pure, Except.pure]
    · rename_i other
      cases run
      refine ⟨[], rfl, rfl, fun offset kept cut => ?_⟩
      cases kept with
      | nil => rfl
      | cons d kept =>
        have first : c = d := by simpa [chars] using head_of_kept cut d rfl
        rw [List.nil_append, exponentPart]
        simp only [← first, other]
        rfl
  · rename_i none
    cases run
    refine ⟨[], rfl, rfl, fun offset kept cut => ?_⟩
    rw [none, List.prefix_nil] at cut
    rw [cut]
    rfl

/-- A number, whatever it runs into. -/
def numeral (here : Cursor) : Scan (Lexeme × Cursor) :=
  Except.ok (signPart ['-'] here) >>= fun sign => integerPart sign.2 >>= fun whole =>
    fractionPart whole.2 >>= fun fraction => exponentPart fraction.2 >>= fun exponent =>
      pure (ofParts sign.1 whole.1 fraction.1 exponent.1, exponent.2)

theorem numeral_local : Local numeral :=
  (signPart_local ['-'] (List.forall_mem_singleton.2 rfl)).bind fun sign =>
    integerPart_local.bind fun whole =>
    fractionPart_local.bind fun fraction => exponentPart_local.map (ofParts sign whole fraction)

theorem number_iff {here after : Cursor} {found : Lexeme} :
    number here = .ok (found, after) ↔ numeral here = .ok (found, after) ∧
      ∀ c ∈ after.rest.head?, (c == '.' || isNameStart c) = false := by
  rw [number_parts]
  constructor
  · rintro ⟨whole, afterWhole, fraction, afterFraction, exponent, hw, hf, he, free, rfl⟩
    refine ⟨bind_eq_ok.mpr ⟨_, rfl, bind_eq_ok.mpr ⟨_, hw, bind_eq_ok.mpr ⟨_, hf,
      bind_eq_ok.mpr ⟨_, he, rfl⟩⟩⟩⟩, free⟩
  · rintro ⟨read, free⟩
    obtain ⟨_, ⟨⟩, read⟩ := bind_eq_ok.mp read
    obtain ⟨⟨whole, afterWhole⟩, hw, read⟩ := bind_eq_ok.mp read
    obtain ⟨⟨fraction, afterFraction⟩, hf, read⟩ := bind_eq_ok.mp read
    obtain ⟨⟨exponent, last⟩, he, read⟩ := bind_eq_ok.mp read
    cases read
    exact ⟨whole, afterWhole, fraction, afterFraction, exponent, hw, hf, he, free, rfl⟩

theorem number_local : Local number := by
  intro here found after run
  obtain ⟨read, free⟩ := number_iff.mp run
  obtain ⟨taken, takes⟩ := numeral_local here found after read
  exact ⟨taken, takes.chars, takes.offset, fun offset kept cut => number_iff.mpr
    ⟨takes.again offset kept cut, fun c first => free c (head_of_kept cut c first)⟩⟩

/-- What is left of a string, as a scan. -/
def string (here : Cursor) : Scan (List Char × Cursor) := stringBody here.offset here.rest

theorem prepend_ok {c : Char} {read : Scan (List Char × Cursor)} {value : List Char}
    {after : Cursor} (run : prepend c read = .ok (value, after)) :
    ∃ inner, read = .ok (inner, after) ∧ value = c :: inner := by
  cases read with
  | error => cases run
  | ok parts =>
    obtain ⟨inner, last⟩ := parts
    cases run
    exact ⟨inner, rfl, rfl⟩

/-- A character of a string is taken with what it is written as. -/
theorem Takes.character (front : List Char) {rest value : List Char} {decoded : Char} {offset : Nat}
    {after : Cursor} (written : ∀ start cs, stringBody start (front ++ cs) =
      prepend decoded (stringBody (start + byteLength front) cs))
    (run : prepend decoded (stringBody (offset + byteLength front) rest) = .ok (value, after))
    (inner : ∀ value, string ⟨offset + byteLength front, rest⟩ = .ok (value, after) →
      ∃ taken, Takes string ⟨offset + byteLength front, rest⟩ value after taken) :
    ∃ taken, Takes string ⟨offset, front ++ rest⟩ value after taken := by
  obtain ⟨tail, read, rfl⟩ := prepend_ok run
  obtain ⟨taken, takes⟩ := inner tail read
  refine ⟨front ++ taken, ?_, ?_, fun start kept cut => ?_⟩
  · have chars : rest = taken ++ after.rest := takes.chars
    rw [List.append_assoc, ← chars]
  · rw [takes.offset, Text.byteLength_append, Nat.add_assoc]
  · have again : stringBody (start + byteLength front) (taken ++ kept) = _ :=
      takes.again (start + byteLength front) kept cut
    rw [string, List.append_assoc, written, again, Text.byteLength_append, ← Nat.add_assoc]
    rfl

theorem unicodeEscape_size {a b c d decoded : Char}
    (known : unicodeEscape? a b c d = some decoded) :
    byteLength ['\\', 'u', a, b, c, d] = 6 := by
  simp only [unicodeEscape?, Option.bind_eq_bind, Option.bind_eq_some_iff] at known
  obtain ⟨_, first, _, second, _, third, _, fourth, -⟩ := known
  simp [byteLength, hexValue_low first, hexValue_low second, hexValue_low third,
    hexValue_low fourth]
  rfl

theorem simpleEscape_low {letter decoded : Char} (known : simpleEscape? letter = some decoded) :
    letter.utf8Size = 1 := by
  unfold simpleEscape? at known
  split at known <;> first | rfl | cases known

theorem string_local : Local string := by
  rintro ⟨offset, chars⟩ value after run
  replace run : stringBody offset chars = .ok (value, after) := run
  fun_induction stringBody offset chars generalizing value with
  | case1 | case3 | case5 | case6 | case8 | case9 | case10 => cases run
  | case2 offset rest =>
    cases run
    exact ⟨['"'], rfl, rfl, fun start kept cut => rfl⟩
  | case4 offset a b c d rest decoded known ih =>
    have size := unicodeEscape_size known
    rw [← size] at run ih
    refine Takes.character ['\\', 'u', a, b, c, d] (fun start cs => ?_) run ih
    rw [size]
    simp [stringBody, known]
  | case7 offset letter rest other decoded known ih =>
    have size : byteLength ['\\', letter] = 2 := by simp [byteLength, simpleEscape_low known]; rfl
    rw [← size] at run ih
    refine Takes.character ['\\', letter] (fun start cs => ?_) run ih
    rw [size]
    exact stringBody_letter start cs other known
  | case11 offset c rest notQuote notBackslash sameLine allowed ih =>
    have size : byteLength [c] = c.utf8Size := Nat.add_zero _
    rw [← size] at run ih
    refine Takes.character [c] (fun start cs => ?_) run ih
    rw [List.singleton_append, stringBody]
    · simp [sameLine, allowed, size]
    · exact notQuote
    · exact notBackslash

theorem lexeme_mark {c : Char} {mark : Punctuator} (known : Punctuator.ofChar? c = some mark)
    (offset : Nat) (cs : List Char) :
    lexeme ⟨offset, c :: cs⟩ = .ok (.punctuator mark, ⟨offset + 1, cs⟩) ∧ c.utf8Size = 1 := by
  unfold Punctuator.ofChar? at known
  split at known <;> cases known <;> exact ⟨rfl, rfl⟩

theorem name_local {here : Cursor} {c : Char} {rest : List Char} (chars : here.rest = c :: rest)
    (start : isNameStart c = true) :
    ∃ taken, Takes lexeme here (.name (String.ofList (here.rest.takeWhile isNameRest)))
      ⟨here.offset + (here.rest.takeWhile isNameRest).length, here.rest.dropWhile isNameRest⟩
      taken := by
  have all : ∀ d ∈ here.rest.takeWhile isNameRest, isNameRest d = true :=
    fun d member => List.mem_takeWhile_imp member
  have length := Text.byteLength_low fun d member => nameRest_low (all d member)
  have word : isNameRest c = true := by simp [isNameRest, start]
  have notMinus : c ≠ '-' := by
    rintro rfl
    exact absurd start (by decide)
  refine ⟨_, List.takeWhile_append_dropWhile.symm, by rw [length], fun offset kept cut => ?_⟩
  have stop : ∀ d ∈ kept.head?, isNameRest d = false := fun d first =>
    head_dropWhile d (head_of_kept cut d first)
  obtain ⟨taken, dropped⟩ := takeWhile_stop all stop
  have first : here.rest.takeWhile isNameRest ++ kept =
      c :: (rest.takeWhile isNameRest ++ kept) := by
    rw [chars, List.takeWhile_cons_of_pos word, List.cons_append]
  rw [first, Lexeme.lexeme_word (.inl word),
    if_neg (by simp [notMinus, Lexeme.digit_not_nameStart start]), ← first]
  simp only [taken, dropped, length]

theorem lexeme_local : Local lexeme := by
  intro here found after run
  have whole := run
  unfold lexeme at run
  split at run
  · rename_i none
    cases run
    refine ⟨[], by simp [none], rfl, fun offset kept cut => ?_⟩
    rw [none, List.prefix_nil] at cut
    rw [cut]
    rfl
  · rename_i rest dots
    cases run
    exact ⟨['.', '.', '.'], dots, rfl, fun offset kept cut => rfl⟩
  · rename_i rest quote
    exact string_local.behind (h := fun value => .string (String.ofList value)) (c := '"') rfl
      (fun _ _ => rfl) quote whole
  · rename_i c rest notDots notQuote chars
    split at run
    · rename_i mark known
      cases run
      obtain ⟨-, low⟩ := lexeme_mark known 0 []
      refine ⟨[c], chars, by simp [byteLength, low], fun offset kept cut => ?_⟩
      rw [List.singleton_append, (lexeme_mark known offset kept).1]
      simp [byteLength, low]
    split at run
    · rename_i numeric
      obtain ⟨taken, takes⟩ := number_local here found after run
      refine ⟨taken, takes.chars, takes.offset, fun offset kept cut => ?_⟩
      rw [← takes.again offset kept cut]
      have word : isNameRest c = true ∨ c = '-' := by
        simp only [Bool.or_eq_true, beq_iff_eq] at numeric
        rcases numeric with minus | digit
        · exact .inr minus
        · exact .inl (by simp [isNameRest, digit])
      obtain ⟨more, rfl⟩ := takes.starts chars (number_shortens run)
      rw [List.cons_append, Lexeme.lexeme_word word, if_pos numeric]
    split at run
    · rename_i start
      cases run
      exact name_local chars start
    · cases run

theorem dropIgnored_stops {comment : Bool} {offset : Nat} {chars rest : List Char} {c : Char}
    {stop : Nat} (run : dropIgnored comment offset chars = ⟨stop, c :: rest⟩) :
    isBlank c = false ∧ c ≠ '#' ∧ ∃ blanks, chars = blanks ++ c :: rest ∧
      stop = offset + byteLength blanks ∧ ∀ start more,
        dropIgnored comment start (blanks ++ c :: more) = ⟨start + byteLength blanks, c :: more⟩ := by
  induction chars generalizing comment offset with
  | nil => cases run
  | cons d chars ih =>
    have dropped {next : Bool} (step : ∀ start cs, dropIgnored comment start (d :: cs) =
        dropIgnored next (start + d.utf8Size) cs) : isBlank c = false ∧ c ≠ '#' ∧
          ∃ blanks, d :: chars = blanks ++ c :: rest ∧ stop = offset + byteLength blanks ∧
            ∀ start more, dropIgnored comment start (blanks ++ c :: more) =
              ⟨start + byteLength blanks, c :: more⟩ := by
      rw [step] at run
      obtain ⟨notBlank, notHash, blanks, split, stops, again⟩ := ih run
      refine ⟨notBlank, notHash, d :: blanks, ?_, ?_, fun start more => ?_⟩
      · rw [split, List.cons_append]
      · rw [stops, byteLength, Nat.add_assoc]
      · rw [List.cons_append, step, again, byteLength, Nat.add_assoc]
    by_cases inside : (comment && !isLineBreak d) = true
    · exact dropped fun start cs => by rw [dropIgnored, if_pos inside]
    by_cases blank : isBlank d = true
    · exact dropped fun start cs => by rw [dropIgnored, if_neg inside, if_pos blank]
    by_cases hash : (d == '#') = true
    · exact dropped fun start cs => by rw [dropIgnored, if_neg inside, if_neg blank, if_pos hash]
    have stays (start : Nat) (cs : List Char) :
        dropIgnored comment start (d :: cs) = ⟨start, d :: cs⟩ := by
      rw [dropIgnored, if_neg inside, if_neg blank, if_neg hash]
    rw [stays] at run
    cases run
    exact ⟨by simpa using blank, by simpa using hash, [], rfl, rfl, fun start more => stays start more⟩

/-- At the end of a text everything is dropped. -/
theorem dropIgnored_ends {comment : Bool} {offset stop : Nat} {chars : List Char}
    (run : dropIgnored comment offset chars = ⟨stop, []⟩) : stop = offset + byteLength chars := by
  induction chars generalizing comment offset with
  | nil =>
    cases run
    rfl
  | cons c rest ih =>
    rw [byteLength, ← Nat.add_assoc]
    unfold dropIgnored at run
    split at run
    · exact ih run
    split at run
    · exact ih run
    split at run
    · exact ih run
    · cases run

/-- A token takes characters behind others that are dropped. -/
structure Stands (here : Cursor) (found : Token) (after : Cursor) (blanks taken : List Char) :
    Prop where
  chars : here.rest = blanks ++ (taken ++ after.rest)
  filled : taken ≠ []
  start : found.start = here.offset + byteLength blanks
  stop : found.stop = found.start + byteLength taken
  offset : after.offset = found.stop
  again : ∀ offset kept, kept <+: after.rest →
    let start := offset + byteLength blanks
    let stop := start + byteLength taken
    token ⟨offset, blanks ++ (taken ++ kept)⟩ = .ok (⟨found.lexeme, start, stop⟩, ⟨stop, kept⟩)
  alone : ∀ offset kept, kept <+: after.rest →
    let stop := offset + byteLength taken
    token ⟨offset, taken ++ kept⟩ = .ok (⟨found.lexeme, offset, stop⟩, ⟨stop, kept⟩)

theorem token_of {here start after : Cursor} {l : Lexeme}
    (dropped : dropIgnored false here.offset here.rest = start)
    (found : lexeme start = .ok (l, after)) :
    token here = .ok (⟨l, start.offset, after.offset⟩, after) := by
  rw [token, dropped, found]
  rfl

theorem token_stands {here after : Cursor} {found : Token} (run : token here = .ok (found, after))
    (more : found.lexeme ≠ .finish) : ∃ blanks taken, Stands here found after blanks taken := by
  obtain ⟨⟨l, last⟩, step, ends⟩ := bind_eq_ok.mp run
  obtain ⟨rfl, rfl⟩ := Prod.mk.inj (Except.ok.inj ends)
  obtain ⟨taken, takes⟩ := lexeme_local _ _ _ step
  cases dropped : dropIgnored false here.offset here.rest with
  | mk start rest =>
    rw [dropped] at step takes
    cases rest with
    | nil =>
      cases step
      contradiction
    | cons c rest =>
      obtain ⟨notBlank, notHash, blanks, chars, starts, again⟩ := dropIgnored_stops dropped
      obtain ⟨tail, rfl⟩ := takes.starts rfl (lexeme_shortens step more)
      have split : c :: rest = c :: tail ++ last.rest := takes.chars
      refine ⟨blanks, c :: tail, ?_, by simp, starts, takes.offset, rfl, ?_, ?_⟩
      · rw [chars, split]
      · exact fun offset kept cut =>
          token_of (again offset (tail ++ kept)) (takes.again (offset + byteLength blanks) kept cut)
      · refine fun offset kept cut => token_of ?_ (takes.again offset kept cut)
        simp [dropIgnored, notBlank, notHash]

end Locality
end Lexer
end GraphQL
