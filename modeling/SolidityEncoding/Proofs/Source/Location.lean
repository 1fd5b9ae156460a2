import Mathlib.Algebra.Group.Nat.Defs
import Mathlib.Data.List.Basic
import Mathlib.Data.List.Induction
import SolidityEncoding.Source.Location

/-!
# Positions name offsets

A text of `n` newlines has `n + 1` lines, which start at offset zero and behind every newline
(`lineStarts`).  The line and the column of an offset name it (`Locates`): the line is one of the
text, the column counts from its first byte, and the next line starts behind the offset.  Offsets
and their positions are in the same order (`lex_position`), so no two offsets of a text share one.
-/

namespace SolidityEncoding.SourceLocation

/-- The offsets at which the lines of a text start. -/
def lineStarts (bytes : List UInt8) : List Nat := 0 :: (bytes.findIdxs (· == 10)).map (· + 1)

/-- A position names an offset on the line that starts at `start`. -/
structure Locates (bytes : List UInt8) (position : UInt32 × UInt32) (start offset : Nat) :
    Prop where
  line_pos : 0 < position.1
  column_pos : 0 < position.2
  /-- The line is one of the text and starts there. -/
  line_start : (lineStarts bytes)[position.1.toNat - 1]? = some start
  /-- The column counts from one at the start of the line. -/
  offset_eq : offset = start + position.2.toNat - 1
  /-- The offset is not on a later line. -/
  lt_next : ∀ next, (lineStarts bytes)[position.1.toNat]? = some next → offset < next

variable {bytes : List UInt8}

/-- A position names no more than one offset. -/
theorem Locates.unique {position : UInt32 × UInt32} {start start' offset offset' : Nat}
    (h : Locates bytes position start offset) (h' : Locates bytes position start' offset') :
    offset = offset' := by
  have hstart := h.line_start
  rw [h'.line_start] at hstart
  cases hstart
  rw [h.offset_eq, h'.offset_eq]

/-! ### Lines -/

theorem lineStarts_append (before rest : List UInt8) :
    lineStarts (before ++ rest) =
      lineStarts before ++ (rest.findIdxs (· == 10) before.length).map (· + 1) := by
  rw [lineStarts, List.findIdxs_append, List.map_append, Nat.zero_add]
  rfl

theorem length_lineStarts (bytes : List UInt8) :
    (lineStarts bytes).length = bytes.count 10 + 1 := by
  rw [lineStarts, List.length_cons, List.length_map, List.length_findIdxs]
  rfl

/-- The search from the end begins with the last byte. -/
theorem lastLineStart_concat (bytes : List UInt8) (byte : UInt8) :
    lastLineStart (bytes ++ [byte]) =
      if byte = 10 then bytes.length + 1 else lastLineStart bytes := by
  rw [lastLineStart, lastNewline?, List.reverse_concat, List.findIdx?_cons, List.length_append,
    List.length_singleton]
  by_cases hnewline : byte = 10
  · rw [if_pos hnewline, if_pos (beq_iff_eq.2 hnewline)]
    rfl
  · rw [if_neg hnewline, if_neg (by simp [hnewline]), lastLineStart, lastNewline?]
    cases bytes.reverse.findIdx? (· == 10) with
    | none => rfl
    | some back =>
      change bytes.length + 1 - 1 - (back + 1) + 1 = bytes.length - 1 - back + 1
      omega

theorem lastLineStart_le (bytes : List UInt8) : lastLineStart bytes ≤ bytes.length := by
  induction bytes using List.reverseRecOn with
  | nil => exact Nat.le_refl 0
  | append_singleton bytes byte ih =>
    rw [lastLineStart_concat, List.length_append, List.length_singleton]
    split <;> omega

theorem getLast?_lineStarts (bytes : List UInt8) :
    (lineStarts bytes).getLast? = some (lastLineStart bytes) := by
  induction bytes using List.reverseRecOn with
  | nil => rfl
  | append_singleton bytes byte ih =>
    rw [lineStarts_append, lastLineStart_concat, List.findIdxs_singleton]
    by_cases hnewline : byte = 10
    · rw [if_pos (beq_iff_eq.2 hnewline), if_pos hnewline, List.map_singleton,
        List.getLast?_concat]
    · rw [if_neg (by simp [hnewline]), if_neg hnewline, List.map_nil, List.append_nil, ih]

/-! ### Positions -/

theorem toNat_toUInt32_add_one {n : Nat} (h : n < 2 ^ 32 - 1) :
    (n.toUInt32 + 1).toNat = n + 1 := by
  have hn : n.toUInt32.toNat = n := UInt32.toNat_ofNat_of_lt' (Nat.lt_trans h (by decide))
  rw [UInt32.toNat_add, hn]
  exact Nat.mod_eq_of_lt (Nat.add_lt_of_lt_sub h)

theorem toNat_positionIn (hshort : bytes.length < 2 ^ 32 - 1) (offset : Nat) :
    (positionIn bytes offset).1.toNat = (bytes.take offset).count 10 + 1 ∧
      (positionIn bytes offset).2.toNat =
        (bytes.take offset).length - lastLineStart (bytes.take offset) + 1 := by
  have hcount : (bytes.take offset).count 10 ≤ (bytes.take offset).length := List.count_le_length
  have htake : (bytes.take offset).length ≤ bytes.length := List.length_take_le' offset bytes
  exact ⟨toNat_toUInt32_add_one (by omega), toNat_toUInt32_add_one (by omega)⟩

theorem exists_locates_positionIn (hshort : bytes.length < 2 ^ 32 - 1) {offset : Nat}
    (hoffset : offset ≤ bytes.length) :
    ∃ start, Locates bytes (positionIn bytes offset) start offset := by
  obtain ⟨hline, hcolumn⟩ := toNat_positionIn hshort offset
  have hstart := lastLineStart_le (bytes.take offset)
  have htake : (bytes.take offset).length = offset := List.length_take_of_le hoffset
  have hcount := length_lineStarts (bytes.take offset)
  have hstarts := lineStarts_append (bytes.take offset) (bytes.drop offset)
  rw [List.take_append_drop] at hstarts
  refine ⟨lastLineStart (bytes.take offset), ?_, ?_, ?_, ?_, ?_⟩
  · rw [UInt32.lt_iff_toNat_lt, hline]
    exact Nat.succ_pos _
  · rw [UInt32.lt_iff_toNat_lt, hcolumn]
    exact Nat.succ_pos _
  · rw [hline, hstarts, List.getElem?_append_left (by omega), ← getLast?_lineStarts,
      List.getLast?_eq_getElem?, hcount]
  · omega
  · intro next hnext
    rw [hline, hstarts, List.getElem?_append_right (by omega)] at hnext
    obtain ⟨newline, hnewline, rfl⟩ := List.mem_map.1 (List.mem_of_getElem? hnext)
    have := List.ge_of_mem_findIdxs newline hnewline
    omega

theorem lex_positionIn (hshort : bytes.length < 2 ^ 32 - 1) {start stop : Nat}
    (hlt : start < stop) (hstop : stop ≤ bytes.length) :
    Prod.Lex (· < ·) (· < ·) (positionIn bytes start) (positionIn bytes stop) := by
  obtain ⟨first, hfirst⟩ := exists_locates_positionIn hshort (by omega : start ≤ bytes.length)
  obtain ⟨last, hlast⟩ := exists_locates_positionIn hshort hstop
  have hlines : (positionIn bytes start).1.toNat ≤ (positionIn bytes stop).1.toNat := by
    rw [(toNat_positionIn hshort start).1, (toNat_positionIn hshort stop).1]
    exact Nat.succ_le_succ ((List.take_sublist_take_left (Nat.le_of_lt hlt)).count_le 10)
  rw [Prod.lex_def]
  rcases Nat.lt_or_eq_of_le hlines with hline | hline
  · exact .inl hline
  · have hsame : first = last := by
      have hstart := hfirst.line_start
      rw [hline, hlast.line_start] at hstart
      exact (Option.some.inj hstart).symm
    refine .inr ⟨UInt32.toNat_inj.1 hline, ?_⟩
    have := hfirst.offset_eq
    have := hlast.offset_eq
    rw [UInt32.lt_iff_toNat_lt]
    omega

/-! ### Locations -/

section Source

variable {source : String} (hshort : source.utf8ByteSize < 2 ^ 32 - 1)

include hshort

theorem exists_locates_position {offset : Nat} (hoffset : offset ≤ source.utf8ByteSize) :
    ∃ start, Locates source.toByteArray.data.toList (position source offset) start offset :=
  exists_locates_positionIn hshort hoffset

theorem lex_position {start stop : Nat} (hlt : start < stop) (hstop : stop ≤ source.utf8ByteSize) :
    Prod.Lex (· < ·) (· < ·) (position source start) (position source stop) :=
  lex_positionIn hshort hlt hstop

theorem position_inj {offset offset' : Nat} (hoffset : offset ≤ source.utf8ByteSize)
    (hoffset' : offset' ≤ source.utf8ByteSize)
    (h : position source offset = position source offset') : offset = offset' := by
  obtain ⟨start, hlocates⟩ := exists_locates_position hshort hoffset
  obtain ⟨start', hlocates'⟩ := exists_locates_position hshort hoffset'
  rw [h] at hlocates
  exact hlocates.unique hlocates'

end Source

theorem position_min (source : String) (offset : Nat) :
    position source (min offset source.utf8ByteSize) = position source offset := by
  have htake := List.take_eq_take_min (l := source.toByteArray.data.toList) (i := offset)
  rw [position, position, positionIn, positionIn, htake]
  rfl

/-- A nonempty range of a text has its start before its end, and the positions of both name their
offsets, so that different offsets have different positions.  An offset behind the text has the
position of its end. -/
theorem ofByteRange_locates {source : String} (hshort : source.utf8ByteSize < 2 ^ 32 - 1)
    (file : String) :
    let bytes := source.toByteArray.data.toList
    (∀ start stop, start < stop → stop ≤ source.utf8ByteSize →
      let location := ofByteRange file source start stop
      ∃ endLine endColumn first last,
        location.endLine = some endLine ∧ location.endColumn = some endColumn ∧
          Prod.Lex (· < ·) (· < ·) (location.line, location.column) (endLine, endColumn) ∧
          Locates bytes (location.line, location.column) first start ∧
          Locates bytes (endLine, endColumn) last stop) ∧
    (∀ offset offset', offset ≤ source.utf8ByteSize → offset' ≤ source.utf8ByteSize →
      position source offset = position source offset' → offset = offset') ∧
    ∀ start stop,
      let location := ofByteRange file source start stop
      let within := ofByteRange file source (min start source.utf8ByteSize)
        (min stop source.utf8ByteSize)
      location.line = within.line ∧ location.column = within.column ∧
        location.endLine = within.endLine ∧ location.endColumn = within.endColumn := by
  intro bytes
  refine ⟨fun start stop hlt hstop => ?_, fun _ _ => position_inj hshort, fun start stop => ?_⟩
  · have hstart : start ≤ source.utf8ByteSize := by omega
    obtain ⟨first, hfirst⟩ := exists_locates_position hshort hstart
    obtain ⟨last, hlast⟩ := exists_locates_position hshort hstop
    exact ⟨_, _, first, last, rfl, rfl, lex_position hshort hlt hstop, hfirst, hlast⟩
  · simp only [ofByteRange, position_min, and_self]

/-- The second line of a text, from its second byte to the line break at its end. -/
theorem ofByteRange_locates_second_line :
    let source := "int a;\n\tint b;\n"
    let location := ofByteRange "a.sol" source 8 14
    source.utf8ByteSize < 2 ^ 32 - 1 ∧
      (location.line, location.column) = (2, 2) ∧
      (location.endLine, location.endColumn) = (some 2, some 8) ∧
      (∃ start, Locates source.toByteArray.data.toList (2, 2) start 8) ∧
      ∃ start, Locates source.toByteArray.data.toList (2, 8) start 14 := by
  intro source location
  have hshort : source.utf8ByteSize < 2 ^ 32 - 1 := by decide
  obtain ⟨endLine, endColumn, first, last, hline, hcolumn, -, hfirst, hlast⟩ :=
    (ofByteRange_locates hshort "a.sol").1 8 14 (by decide) (by decide)
  cases hline
  cases hcolumn
  exact ⟨hshort, rfl, rfl, ⟨first, hfirst⟩, last, hlast⟩

end SolidityEncoding.SourceLocation
