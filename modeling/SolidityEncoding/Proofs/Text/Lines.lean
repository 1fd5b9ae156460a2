import SolidityEncoding.Text.Blank

/-!
# Lines of a text, and texts without their comments

A comment line is one that begins with two slashes, if blanks are left out.  `dropComments` drops
these lines and keeps the others as they are.  It works through texts piece by piece if every piece
ends with a line (`dropComments_append`).
-/

namespace SolidityEncoding.Text

/-! ### Lines -/

/-- The lines of a text, each with the line feed that ends it. -/
def lines : List Char → List (List Char)
  | [] => []
  | c :: cs =>
    if c = '\n' then ['\n'] :: lines cs
    else
      match lines cs with
      | [] => [[c]]
      | line :: rest => (c :: line) :: rest

theorem lines_newline (cs : List Char) : lines ('\n' :: cs) = ['\n'] :: lines cs := rfl

theorem exists_lines_eq_cons {cs : List Char} (h : cs ≠ []) :
    ∃ line rest, lines cs = line :: rest := by
  cases cs with
  | nil => exact absurd rfl h
  | cons c cs =>
    rw [lines]
    split
    · exact ⟨_, _, rfl⟩
    · split
      · exact ⟨_, _, rfl⟩
      · exact ⟨_, _, rfl⟩

theorem ne_nil_of_mem_lines {cs line : List Char} (h : line ∈ lines cs) : line ≠ [] := by
  induction cs with
  | nil => exact absurd h List.not_mem_nil
  | cons c cs ih =>
    rw [lines] at h
    split at h
    · rcases List.mem_cons.1 h with rfl | h
      · exact List.cons_ne_nil _ _
      · exact ih h
    · cases hlines : lines cs with
      | nil =>
        rw [hlines] at h
        rw [List.mem_singleton.1 h]
        exact List.cons_ne_nil _ _
      | cons first rest =>
        rw [hlines] at h ih
        rcases List.mem_cons.1 h with rfl | h
        · exact List.cons_ne_nil _ _
        · exact ih (List.mem_cons_of_mem _ h)

/-- A row without a line feed stands before the first line. -/
theorem lines_append_of_not_mem {row cs line : List Char} {rest : List (List Char)}
    (hrow : '\n' ∉ row) (h : lines cs = line :: rest) :
    lines (row ++ cs) = (row ++ line) :: rest := by
  induction row with
  | nil => exact h
  | cons c row ih =>
    rw [List.mem_cons, not_or] at hrow
    rw [List.cons_append, lines, if_neg (Ne.symm hrow.1), ih hrow.2]
    rfl

/-- Every line of a text is ended. -/
def Ended (cs : List Char) : Prop := ∀ c ∈ cs.getLast?, c = '\n'

theorem ended_nil : Ended [] := nofun

theorem ended_concat (cs : List Char) : Ended (cs ++ ['\n']) := by
  simp [Ended]

theorem Ended.append {xs ys : List Char} (hxs : Ended xs) (hys : Ended ys) : Ended (xs ++ ys) := by
  intro c hc
  rw [List.getLast?_append] at hc
  cases hlast : ys.getLast? with
  | none =>
    rw [hlast] at hc
    exact hxs c hc
  | some d =>
    rw [hlast] at hc
    cases hc
    exact hys c hlast

theorem Ended.lines_append {xs : List Char} (h : Ended xs) (ys : List Char) :
    lines (xs ++ ys) = lines xs ++ lines ys := by
  induction xs with
  | nil => rfl
  | cons c cs ih =>
    by_cases hcs : cs = []
    · subst hcs
      cases h c rfl
      rfl
    · have hended : Ended cs := by
        rwa [Ended, List.getLast?_cons_of_ne_nil hcs] at h
      obtain ⟨line, rest, hlines⟩ := exists_lines_eq_cons hcs
      rw [List.cons_append, lines, lines, ih hended, hlines]
      split <;> rfl

/-! ### Comments -/

/-- Whether a line begins with two slashes, if blanks are left out. -/
def isCommentLine (line : List Char) : Bool := ['/', '/'].isPrefixOf (line.dropWhile isBlank)

/-- A text without its comment lines. -/
def dropComments (cs : List Char) : List Char := ((lines cs).filter (!isCommentLine ·)).flatten

theorem dropComments_append {xs : List Char} (h : Ended xs) (ys : List Char) :
    dropComments (xs ++ ys) = dropComments xs ++ dropComments ys := by
  rw [dropComments, h.lines_append, List.filter_append, List.flatten_append, dropComments,
    dropComments]

/-- A blank margin does not make a difference. -/
theorem isCommentLine_append {margin : List Char} (h : ∀ c ∈ margin, isBlank c = true)
    (line : List Char) : isCommentLine (margin ++ line) = isCommentLine line := by
  rw [isCommentLine, List.dropWhile_append_of_pos h, isCommentLine]

theorem isCommentLine_concat_of_head {row : List Char}
    (h : ∀ c ∈ (row.dropWhile isBlank).head?, c ≠ '/') : isCommentLine (row ++ ['\n']) = false := by
  rw [isCommentLine, List.dropWhile_append]
  cases hrow : row.dropWhile isBlank with
  | nil => rfl
  | cons c cs =>
    rw [hrow] at h
    rw [List.isEmpty_cons, if_neg (by decide), List.cons_append, List.isPrefixOf,
      beq_false_of_ne (h c rfl).symm, Bool.false_and]

theorem dropComments_line {row : List Char} (hrow : '\n' ∉ row)
    (hline : isCommentLine (row ++ ['\n']) = false) :
    dropComments (row ++ ['\n']) = row ++ ['\n'] := by
  rw [dropComments, lines_append_of_not_mem hrow (lines_newline [])]
  simp [hline, lines]

/-- All lines of a text after its first one are comment lines. -/
def StaysComment (text : String) : Prop :=
  ∀ line ∈ (lines (text.toList ++ ['\n'])).tail, isCommentLine line = true

instance (text : String) : Decidable (StaysComment text) :=
  List.decidableBAll _ (lines (text.toList ++ ['\n'])).tail

theorem staysComment_of_not_mem {text : String} (h : '\n' ∉ text.toList) : StaysComment text := by
  rw [StaysComment, lines_append_of_not_mem h (lines_newline [])]
  exact nofun

/-- Of a text after two slashes the lines are left that are no comment lines themselves. -/
theorem dropComments_comment_eq_nil_iff {margin : List Char}
    (hblank : ∀ c ∈ margin, isBlank c = true) (hmargin : '\n' ∉ margin) (text : String) :
    dropComments (margin ++ ("// ".toList ++ (text.toList ++ ['\n']))) = [] ↔
      StaysComment text := by
  have hne : text.toList ++ ['\n'] ≠ [] :=
    List.append_ne_nil_of_right_ne_nil _ (List.cons_ne_nil _ _)
  obtain ⟨line, rest, hlines⟩ := exists_lines_eq_cons hne
  have hslashes : '\n' ∉ margin ++ "// ".toList := by
    rw [List.mem_append, not_or]
    exact ⟨hmargin, by decide⟩
  have hfirst : isCommentLine (margin ++ "// ".toList ++ line) = true := by
    rw [List.append_assoc, isCommentLine_append hblank]
    rfl
  have hdropped : dropComments (margin ++ ("// ".toList ++ (text.toList ++ ['\n']))) =
      (rest.filter (!isCommentLine ·)).flatten := by
    rw [← List.append_assoc, dropComments, lines_append_of_not_mem hslashes hlines,
      List.filter_cons_of_neg (by rw [hfirst]; decide)]
  rw [hdropped, StaysComment, hlines, List.tail_cons, List.flatten_eq_nil_iff]
  constructor
  · intro h row hrow
    cases hcode : isCommentLine row with
    | true => rfl
    | false =>
      have hmem : row ∈ lines (text.toList ++ ['\n']) := hlines ▸ List.mem_cons_of_mem line hrow
      have hkept : row ∈ rest.filter (!isCommentLine ·) :=
        List.mem_filter.2 ⟨hrow, by rw [hcode]; rfl⟩
      exact absurd (h row hkept) (ne_nil_of_mem_lines hmem)
  · intro h row hrow
    obtain ⟨hmem, hcode⟩ := List.mem_filter.1 hrow
    rw [h row hmem] at hcode
    exact absurd hcode (by decide)

end SolidityEncoding.Text
