import GraphQL.Proofs.Language.Slices

/-! Lines and columns. A text is lines, each with what ends it; a place in it stands in one of them,
behind as many characters as its column says. Excerpts show that line and a caret under the place. -/
namespace GraphQL

/-- The first of two locations is on an earlier line, or further to the left on the same line. -/
def Location.Before (first second : Location) : Prop :=
  first.line < second.line ∨ first.line = second.line ∧ first.column < second.column

theorem Location.Before.trans {first second third : Location} (left : first.Before second)
    (right : second.Before third) : first.Before third := by
  unfold Location.Before at *
  omega

theorem Location.Before.ne {first second : Location} (before : first.Before second) :
    first ≠ second := by
  rintro rfl
  unfold Location.Before at before
  omega

namespace Text
open Lexer (isLineBreak)

/-- What ends a line in front of the rest of a text: LF, CR LF, or a CR that no LF follows. -/
inductive Ending (rest : List Char) : List Char → Prop
  | lf : Ending rest ['\n']
  | crlf : Ending rest ['\r', '\n']
  | cr : rest.head? ≠ some '\n' → Ending rest ['\r']

/-- The lines of a text, without what ends them. No line holds a line break. -/
inductive Lined : List Char → List (List Char) → Prop
  | last {line : List Char} : (∀ c ∈ line, isLineBreak c = false) → Lined line [line]
  | next {line ending rest : List Char} {others : List (List Char)} :
      (∀ c ∈ line, isLineBreak c = false) → Ending rest ending → Lined rest others →
      Lined (line ++ (ending ++ rest)) (line :: others)

/-- How a place between two parts of a text stands in its line: behind the inner characters, which are
some of the line's, or all of them and the CR of a pair whose LF comes next. -/
inductive Within (before after line inner : List Char) : Prop
  | line {back more : List Char} : line = inner ++ back → after = back ++ more →
      (∀ c ∈ more.head?, isLineBreak c = true) →
      ¬ (before.getLast? = some '\r' ∧ after.head? = some '\n') → Within before after line inner
  | pair : inner = line ++ ['\r'] → inner <:+ before → after.head? = some '\n' →
      Within before after line inner

variable {before after rest line ending inner : List Char} {others : List (List Char)} {c : Char}

theorem isLineBreak_iff : isLineBreak c = true ↔ c = '\n' ∨ c = '\r' := by
  simp [isLineBreak]

theorem Ending.head (ends : Ending rest ending) :
    ∀ d ∈ (ending ++ rest).head?, isLineBreak d = true := by
  cases ends <;> simp [isLineBreak]

/-- What follows further on does not matter. -/
theorem Ending.mono (ends : Ending (before ++ after) ending) : Ending before ending := by
  cases ends with
  | lf => exact .lf
  | crlf => exact .crlf
  | cr other =>
    apply Ending.cr
    cases before with
    | nil => simp
    | cons => exact other

/-- A place next to what ends a line is in front of it, behind it, or within a pair. -/
theorem Ending.split {between : List Char} (ends : Ending rest ending)
    (split : ending ++ rest = between ++ after) :
    between = [] ∨ (∃ more, between = ending ++ more ∧ rest = more ++ after) ∨
      between = ['\r'] ∧ after.head? = some '\n' := by
  cases between with
  | nil => exact .inl rfl
  | cons d between =>
    apply Or.inr
    cases ends with
    | lf | cr =>
      obtain ⟨rfl, rfl⟩ := List.cons.inj split
      exact .inl ⟨between, rfl, rfl⟩
    | crlf =>
      obtain ⟨rfl, more⟩ := List.cons.inj split
      cases between with
      | nil =>
        refine .inr ⟨rfl, ?_⟩
        rw [← show _ = after from more]
        rfl
      | cons e between =>
        obtain ⟨rfl, rfl⟩ := List.cons.inj more
        exact .inl ⟨between, rfl, rfl⟩

/-- No LF follows a CR that ends a line. -/
theorem Ending.apart (ends : Ending rest ending) :
    ¬ (ending.getLast? = some '\r' ∧ rest.head? = some '\n') := by
  cases ends with
  | lf | crlf => simp
  | cr other => simp [other]

section Lines

/-- A line break starts what ends a line. -/
theorem exists_ending (breaks : isLineBreak c = true) (rest : List Char) :
    ∃ ending back, c :: rest = ending ++ back ∧ Ending back ending := by
  rcases isLineBreak_iff.1 breaks with rfl | rfl
  · exact ⟨['\n'], rest, rfl, .lf⟩
  · by_cases pair : rest.head? = some '\n'
    · obtain ⟨back, rfl⟩ := List.head?_eq_some_iff.1 pair
      exact ⟨['\r', '\n'], back, rfl, .crlf⟩
    · exact ⟨['\r'], rest, rfl, .cr pair⟩

theorem exists_lined (cs : List Char) : ∃ found, Lined cs found := by
  induction length : cs.length using Nat.strong_induction_on generalizing cs with
  | _ n ih =>
    have plain : ∀ c ∈ cs.takeWhile (!isLineBreak ·), isLineBreak c = false := fun c member => by
      simpa using List.mem_takeWhile_imp member
    cases tail : cs.dropWhile (!isLineBreak ·) with
    | nil =>
      have whole := List.takeWhile_append_dropWhile (p := (!isLineBreak ·)) (l := cs)
      rw [tail, List.append_nil] at whole
      exact ⟨_, .last (whole ▸ plain)⟩
    | cons c back =>
      have breaks : isLineBreak c = true := by
        have first := List.head?_dropWhile_not (!isLineBreak ·) cs
        rw [tail] at first
        simpa using first
      obtain ⟨ending, rest, split, ends⟩ := exists_ending breaks back
      have whole : cs = cs.takeWhile (!isLineBreak ·) ++ (ending ++ rest) := by
        rw [← split, ← tail, List.takeWhile_append_dropWhile]
      have shorter : rest.length < n := by
        rw [← length, whole]
        cases ends <;> simp <;> omega
      obtain ⟨others, lined⟩ := ih _ shorter rest rfl
      rw [whole]
      exact ⟨_, .next plain ends lined⟩

theorem lines_ending (ends : Ending rest ending) : lines (ending ++ rest) = [] :: lines rest := by
  cases ends with
  | lf | crlf => simp [lines]
  | cr other => simp [lines, other]

/-- Characters in front of a line are in front of the first of the lines. -/
theorem lines_append (plain : ∀ c ∈ line, isLineBreak c = false) {first : List Char}
    (rest : lines after = first :: others) : lines (line ++ after) = (line ++ first) :: others := by
  induction line with
  | nil => exact rest
  | cons c line ih =>
    obtain ⟨here, more⟩ := List.forall_mem_cons.1 plain
    simp only [isLineBreak, Bool.or_eq_false_iff] at here
    simp [lines, here, ih more]

theorem Lined.eq {found : List (List Char)} (lined : Lined before found) : lines before = found := by
  induction lined with
  | @last line plain =>
    have alone : lines (line ++ []) = [line ++ []] := lines_append plain rfl
    simpa using alone
  | @next line ending rest others plain ends _ ih =>
    rw [lines_append plain (lines_ending ends), ih, List.append_nil]

/-- The lines of a text are found. -/
theorem lined_lines (cs : List Char) : Lined cs (lines cs) := by
  obtain ⟨found, lined⟩ := exists_lined cs
  rwa [lined.eq]

end Lines

section Places

/-- The location one character further on. -/
def onward (here : Location) (c : Char) (rest : List Char) : Location :=
  if endsLine c rest then ⟨here.line + 1, 1⟩ else ⟨here.line, here.column + 1⟩

theorem locate_cons (here : Location) (c : Char) (rest : List Char) (bytes : Nat) :
    locate here (c.utf8Size + bytes) (c :: rest) = locate (onward here c rest) bytes rest := by
  have positive := c.utf8Size_pos
  obtain ⟨size, same⟩ : ∃ size, c.utf8Size + bytes = size + 1 := ⟨c.utf8Size + bytes - 1, by omega⟩
  rw [same, locate, show size + 1 - c.utf8Size = bytes by omega]
  rfl

theorem locate_line (plain : ∀ c ∈ line, isLineBreak c = false) (here : Location) (bytes : Nat)
    (rest : List Char) : locate here (byteLength line + bytes) (line ++ rest) =
      locate ⟨here.line, here.column + line.length⟩ bytes rest := by
  induction line generalizing here with
  | nil => rw [byteLength, Nat.zero_add]; rfl
  | cons c line ih =>
    obtain ⟨first, more⟩ := List.forall_mem_cons.1 plain
    have stays : onward here c (line ++ rest) = ⟨here.line, here.column + 1⟩ := by
      simp only [isLineBreak, Bool.or_eq_false_iff] at first
      simp [onward, endsLine, first]
    rw [byteLength, Nat.add_assoc, List.cons_append, locate_cons, stays, ih more, List.length_cons,
      Nat.add_comm line.length, ← Nat.add_assoc]

theorem locate_ending (ends : Ending rest ending) (here : Location) (bytes : Nat) :
    locate here (byteLength ending + bytes) (ending ++ rest) =
      locate ⟨here.line + 1, 1⟩ bytes rest := by
  cases ends with
  | lf =>
    rw [byteLength, Nat.add_assoc, List.singleton_append, locate_cons]
    simp [onward, endsLine, byteLength]
  | crlf =>
    simp only [byteLength, Nat.add_assoc, List.cons_append, List.nil_append, locate_cons]
    simp [onward, endsLine]
  | cr other =>
    rw [byteLength, Nat.add_assoc, List.singleton_append, locate_cons]
    simp [onward, endsLine, byteLength, other]

/-- Each character leads to a later location. -/
theorem onward_later (here : Location) (c : Char) (rest : List Char) : here.Before (onward here c rest) := by
  unfold onward Location.Before
  split <;> simp

theorem locate_later (here : Location) (some : before ≠ []) :
    here.Before (locate here (byteLength before) (before ++ after)) := by
  induction before generalizing here with
  | nil => contradiction
  | cons c before ih =>
    rw [byteLength, List.cons_append, locate_cons]
    have first := onward_later here c (before ++ after)
    by_cases more : before = []
    · subst more
      rwa [byteLength, locate]
    · exact first.trans (ih _ more)

theorem locate_append (here : Location) (before after : List Char) (bytes : Nat) :
    locate here (byteLength before + bytes) (before ++ after) =
      locate (locate here (byteLength before) (before ++ after)) bytes after := by
  induction before generalizing here with
  | nil => rw [byteLength, Nat.zero_add, locate]; rfl
  | cons c before ih => rw [byteLength, Nat.add_assoc, List.cons_append, locate_cons, locate_cons, ih]

theorem last_plain (plain : ∀ c ∈ line, isLineBreak c = false) : line.getLast? ≠ some '\r' := by
  intro same
  have breaks := plain _ (List.mem_of_getLast? same)
  simp [isLineBreak] at breaks

theorem Within.of_line (back : List Char) {more : List Char}
    (plain : ∀ c ∈ inner, isLineBreak c = false) (breaks : ∀ c ∈ more.head?, isLineBreak c = true) :
    Within inner (back ++ more) (inner ++ back) inner :=
  .line rfl rfl breaks fun pair => last_plain plain pair.1

/-- A place stands in its line whatever lines there are above. -/
theorem Within.behind (within : Within before after line inner)
    (ends : Ending (before ++ after) ending) (above : List Char) :
    Within (above ++ (ending ++ before)) after line inner := by
  cases within with
  | line whole split breaks apart =>
    refine .line whole split breaks ?_
    cases before with
    | nil =>
      intro pair
      apply ends.apart
      cases ends <;> simp_all
    | cons c before => simpa [List.getLast?_append] using apart
  | pair whole inside head =>
    apply Within.pair whole _ head
    rw [← List.append_assoc]
    exact inside.trans (List.suffix_append _ _)

/-- A place in a text stands so many lines down, behind the inner characters of that line, and what is in
front of the line ends with the line above. -/
structure Placed (before after text : List Char) (found : List (List Char)) (here : Location) (n : Nat)
    (front inner line : List Char) : Prop where
  whole : before = front ++ inner
  listed : found[n]? = some line
  inside : front ++ line <+: text
  above : Lined front (found.take n ++ [[]])
  within : Within before after line inner
  reached : locate here (byteLength before) text =
    ⟨here.line + n, (if n = 0 then here.column else 1) + inner.length⟩

/-- Up to the end of the first line a place stands in that line. -/
theorem Placed.first {back more : List Char} (plain : ∀ c ∈ line, isLineBreak c = false)
    (breaks : ∀ c ∈ more.head?, isLineBreak c = true) (whole : line = before ++ back)
    (behind : after = back ++ more) (here : Location) :
    Placed before after (line ++ more) (line :: others) here 0 [] before line := by
  subst whole behind
  have left := (List.forall_mem_append.1 plain).1
  refine ⟨rfl, rfl, by simp, .last (by simp), .of_line back left breaks, ?_⟩
  have reached := locate_line left here 0 (back ++ more)
  simpa [locate] using reached

/-- The LF of a pair stands behind the CR of the first line. -/
theorem Placed.pair (plain : ∀ c ∈ line, isLineBreak c = false) (head : after.head? = some '\n')
    (here : Location) : Placed (line ++ ['\r']) after (line ++ '\r' :: after) (line :: others) here 0 []
      (line ++ ['\r']) line where
  whole := rfl
  listed := rfl
  inside := by simp
  above := .last (by simp)
  within := .pair rfl (List.suffix_refl _) head
  reached := by
    have stays : onward ⟨here.line, here.column + line.length⟩ '\r' after =
        ⟨here.line, here.column + line.length + 1⟩ := by simp [onward, endsLine, head]
    have step := locate_cons ⟨here.line, here.column + line.length⟩ '\r' after 0
    rw [byteLength_append, locate_line plain, byteLength, byteLength, step, stays, locate]
    simp [Nat.add_assoc]

/-- A place below the first line is a place of the lines below it. -/
theorem Placed.below {n : Nat} {front found : List Char} {here : Location}
    (plain : ∀ c ∈ line, isLineBreak c = false) (ends : Ending (before ++ after) ending)
    (placed : Placed before after (before ++ after) others ⟨here.line + 1, 1⟩ n front inner found) :
    Placed (line ++ (ending ++ before)) after (line ++ (ending ++ (before ++ after))) (line :: others) here
      (n + 1) (line ++ (ending ++ front)) inner found where
  whole := by simp [placed.whole]
  listed := by simpa using placed.listed
  inside := by simpa using placed.inside
  above := by
    have held : Ending (front ++ (inner ++ after)) ending := by simpa [placed.whole] using ends
    exact .next plain held.mono placed.above
  within := placed.within.behind ends line
  reached := by
    rw [byteLength_append, byteLength_append, locate_line plain, locate_ending ends, placed.reached]
    simp [Nat.add_assoc, Nat.add_comm 1]

/-- Each place of a text stands in a line of it. -/
theorem Lined.place {text : List Char} {found : List (List Char)} (lined : Lined text found)
    (split : text = before ++ after) (here : Location) :
    ∃ n front inner line, Placed before after text found here n front inner line := by
  induction lined generalizing before here with
  | @last line plain =>
    have placed : Placed before after (line ++ []) [line] here 0 [] before line :=
      .first plain (by simp) split (List.append_nil after).symm here
    rw [List.append_nil] at placed
    exact ⟨_, _, _, _, placed⟩
  | @next line ending rest others plain ends lined ih =>
    -- the place is in front of the end of the line, within it or behind it
    rcases List.append_eq_append_iff.1 split with ⟨between, rfl, behind⟩ | ⟨back, whole, more⟩
    · rcases ends.split behind with rfl | ⟨before, rfl, rfl⟩ | ⟨rfl, head⟩
      · have none : line = line ++ [] ++ [] := by simp
        exact ⟨_, _, _, _, .first plain ends.head none behind.symm here⟩
      · obtain ⟨n, front, inner, found, placed⟩ := ih rfl ⟨here.line + 1, 1⟩
        exact ⟨_, _, _, _, placed.below plain ends⟩
      · rw [behind]
        exact ⟨_, _, _, _, .pair plain head here⟩
    · exact ⟨_, _, _, _, .first plain ends.head whole more here⟩

theorem Lined.plain {found : List (List Char)} (lined : Lined before found) :
    ∀ line ∈ found, ∀ c ∈ line, isLineBreak c = false := by
  induction lined with
  | last plain => simpa using plain
  | next plain _ _ ih => exact List.forall_mem_cons.2 ⟨plain, ih⟩

/-- A character behind the place that breaks no line is in the line. -/
theorem Within.character (within : Within before after line inner) (head : after.head? = some c)
    (plain : isLineBreak c = false) : (line)[inner.length]? = some c := by
  cases within with
  | @line back more whole split breaks _ =>
    subst whole split
    cases back with
    | nil =>
      rw [breaks c head] at plain
      cases plain
    | cons d back => simpa using head
  | pair _ _ lf =>
    rw [lf, Option.some.injEq] at head
    subst head
    simp [isLineBreak] at plain

/-- At its end all of the line is in front of the place, and perhaps the CR of a pair. -/
theorem Within.ends (within : Within before after line inner)
    (plain : ∀ c ∈ line, isLineBreak c = false) (breaks : ∀ c ∈ after.head?, isLineBreak c = true) :
    inner.length =
      line.length + if before.getLast? = some '\r' ∧ after.head? = some '\n' then 1 else 0 := by
  cases within with
  | @line back more whole split _ apart =>
    subst whole split
    rw [if_neg apart]
    cases back with
    | nil => simp
    | cons d back =>
      have here := plain d (by simp)
      rw [breaks d rfl] at here
      cases here
  | pair whole inside lf =>
    obtain ⟨front, rfl⟩ := inside
    subst whole
    rw [if_pos ⟨by simp, lf⟩]
    simp

end Places

section Numbers

/-- A number takes no more digits than the one after it. -/
theorem length_toString (n : Nat) : (toString n).length ≤ (toString (n + 1)).length := by
  rw [← String.length_toList, ← String.length_toList, Nat.toString_eq_repr, Nat.toString_eq_repr,
    Nat.toList_repr, Nat.toList_repr, Nat.length_toDigits_le_iff (by decide) Nat.length_toDigits_pos]
  have longer := (Nat.length_toDigits_le_iff (b := 10) (n := n + 1) (by decide)
    Nat.length_toDigits_pos).1 (Nat.le_refl _)
  omega

theorem length_padLeft {width : Nat} {s : String} (fits : s.length ≤ width) :
    (padLeft width s).length = width := by
  rw [padLeft, String.length_append, String.length_ofList, List.length_replicate]
  omega

end Numbers
end Text

namespace Source
open Text (byteLength Lined Within)
open Lexer (isLineBreak)
variable {source : Source} {here : Location} {line : List Char}

/-- An excerpt shows the line under its number, and under the line a caret at the column, counted from
behind the number. What is above ends a line. -/
structure Marks (source : Source) (here : Location) (line : List Char) (above label below : String) :
    Prop where
  ended : above = "" ∨ ∃ other, above = other ++ "\n"
  number : ∃ blanks, label = String.ofList (List.replicate blanks ' ') ++ toString here.line ++ ": "
  shown : source.excerpt here = above ++ (label ++ String.ofList line ++ "\n") ++
    (String.ofList (List.replicate (label.length + (here.column - 1)) ' ') ++ "^\n") ++ below

theorem exists_marks (lines : 1 ≤ here.line) (columns : 1 ≤ here.column)
    (listed : (Text.lines source.chars)[here.line - 1]? = some line) :
    ∃ above label below, source.Marks here line above label below := by
  let width := (toString (here.line + 1)).length
  let label := Text.padLeft width (toString here.line) ++ ": "
  let shown (n : Nat) := ((Text.lines source.chars)[n]?.map (Text.numbered width (n + 1))).getD ""
  have length : label.length = width + 2 := by
    rw [String.length_append, Text.length_padLeft (Text.length_toString here.line)]
    rfl
  have blanks : 1 + width + here.column = label.length + (here.column - 1) := by omega
  have ended (n : Nat) : shown n = "" ∨ ∃ other, shown n = other ++ "\n" := by
    cases found : (Text.lines source.chars)[n]? with
    | none => exact .inl (by simp [shown, found])
    | some => exact .inr ⟨_, by simp only [shown, found, Option.map_some]; rfl⟩
  by_cases second : 2 ≤ here.line
  · have one : here.line - 2 + 1 = here.line - 1 := by omega
    refine ⟨shown (here.line - 2), label, shown here.line, ⟨ended _, ⟨_, rfl⟩, ?_⟩⟩
    simp only [excerpt, if_pos lines, if_pos second, listed, Option.map_some, Option.getD_some,
      shown, one, width]
    rw [← blanks]
    simp only [Text.numbered, label, width, String.append_assoc]
  · refine ⟨"", label, shown here.line, ⟨.inl rfl, ⟨_, rfl⟩, ?_⟩⟩
    simp only [excerpt, if_pos lines, if_neg second, listed, Option.map_some, Option.getD_some,
      shown, width]
    rw [← blanks]
    simp only [Text.numbered, label, width, String.append_assoc]

/-- How a location stands for a place of the text: in a line that has the lines above it in front, with
one character in front of the place for each column but the first. The character behind the place is
the one at that column of the line; a line break or the end is behind all of the line, and the LF of a
pair behind its CR too. The excerpt marks the line there. -/
structure Places (source : Source) (before after line : List Char) (here : Location) : Prop where
  lines : 1 ≤ here.line
  columns : 1 ≤ here.column
  listed : (Text.lines source.chars)[here.line - 1]? = some line
  inside : ∃ front inner, before = front ++ inner ∧ inner.length = here.column - 1 ∧
    front ++ line <+: source.chars ∧
    Lined front ((Text.lines source.chars).take (here.line - 1) ++ [[]])
  character : ∀ c, after.head? = some c → isLineBreak c = false → (line)[here.column - 1]? = some c
  ends : (∀ c ∈ after.head?, isLineBreak c = true) → here.column - 1 =
    line.length + if before.getLast? = some '\r' ∧ after.head? = some '\n' then 1 else 0
  marks : ∃ above label below, source.Marks here line above label below

theorem exists_places {before after : List Char} (split : source.chars = before ++ after) :
    ∃ line, source.Places before after line (source.location (byteLength before)) := by
  have lined := Text.lined_lines source.chars
  obtain ⟨n, front, inner, line, whole, listed, inside, above, within, reached⟩ :=
    lined.place split Location.origin
  have column : (if n = 0 then Location.origin.column else 1) = 1 := by split_ifs <;> rfl
  have place : source.location (byteLength before) = ⟨n + 1, inner.length + 1⟩ := by
    rw [location, reached, column, Nat.add_comm 1, Nat.add_comm n]
    rfl
  have plain := lined.plain line (List.mem_of_getElem? listed)
  rw [place]
  apply Exists.intro line
  constructor
  · exact Nat.succ_pos n
  · exact Nat.succ_pos inner.length
  · exact listed
  · exact ⟨front, inner, whole, rfl, inside, above⟩
  · exact fun c head breaks => within.character head breaks
  · exact within.ends plain
  · exact exists_marks (Nat.succ_pos n) (Nat.succ_pos inner.length) listed

theorem location_later {first second : Nat} (start : source.Boundary first)
    (stop : source.Boundary second) (later : first < second) :
    (source.location first).Before (source.location second) := by
  obtain ⟨before, rest, whole, rfl⟩ := start
  obtain ⟨front, after, split, rfl⟩ := stop
  rcases List.append_eq_append_iff.1 (whole.symm.trans split) with ⟨between, rfl, rfl⟩ | ⟨more, rfl, -⟩
  · have some : between ≠ [] := by
      rintro rfl
      simp at later
    have reached := Text.locate_append .origin before (between ++ after) (byteLength between)
    rw [← whole, ← Text.byteLength_append] at reached
    show Location.Before _ (Text.locate .origin _ source.chars)
    rw [reached]
    exact Text.locate_later _ some
  · rw [Text.byteLength_append] at later
    omega

/-- Places further on in a text have later locations, so that no two have the same, and each location
stands for its place. -/
theorem locations_exact (source : Source) :
    (∀ first second, source.Boundary first → source.Boundary second → first < second →
      (source.location first).Before (source.location second)) ∧
    (∀ first second, source.Boundary first → source.Boundary second → first ≠ second →
      source.location first ≠ source.location second) ∧
    Lined source.chars (Text.lines source.chars) ∧
    ∀ before after, source.chars = before ++ after →
      ∃ line, source.Places before after line (source.location (byteLength before)) := by
  refine ⟨fun _ _ => location_later, ?_, Text.lined_lines _, fun _ _ => exists_places⟩
  intro first second start stop other
  rcases Nat.lt_or_gt_of_ne other with later | earlier
  · exact (location_later start stop later).ne
  · exact (location_later stop start earlier).ne.symm

/-- Lines that end in CR LF and in LF, the first of a character that takes two bytes. -/
def broken : Source := { body := "é\r\nx\n" }

/-- The LF of the pair stands behind its CR, and the character behind it on the next line. -/
theorem broken_exact :
    (broken.location 3).Before (broken.location 4) ∧ broken.location 3 ≠ broken.location 4 ∧
    Lined broken.chars [['é'], ['x'], []] ∧
    (∃ line, broken.Places ['é', '\r'] ['\n', 'x', '\n'] line ⟨1, 3⟩) ∧
    (∃ line, broken.Places ['é', '\r', '\n'] ['x', '\n'] line ⟨2, 1⟩) ∧
    ∃ line, broken.Places ['é', '\r', '\n', 'x', '\n'] [] line ⟨3, 1⟩ := by
  obtain ⟨later, distinct, lined, places⟩ := locations_exact broken
  have start : broken.Boundary 3 := ⟨['é', '\r'], ['\n', 'x', '\n'], rfl, rfl⟩
  have stop : broken.Boundary 4 := ⟨['é', '\r', '\n'], ['x', '\n'], rfl, rfl⟩
  refine ⟨later 3 4 start stop (by decide), distinct 3 4 start stop (by decide), lined, ?_, ?_, ?_⟩
  · exact places _ _ rfl
  · exact places _ _ rfl
  · exact places _ _ rfl

end Source
end GraphQL
