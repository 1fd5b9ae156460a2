import Mathlib.Data.List.Basic
import SolidityEncoding.Source.TypeName
import SolidityEncoding.Proofs.Fallible
import SolidityEncoding.Proofs.Text.Numeral

/-!
# Which texts are names of types

The names of the elementary types are their texts and three aliases (`IsNameOf`).  The reader takes
all of them, and besides them the texts in which a plus sign or zeros stand in front of the size
(`IsPaddedNameOf`): a size is read as a count, and a count may be written so.  Nothing else is read
(`parse_eq_ok_iff`).
-/

namespace SolidityEncoding.SourceType

/-! ### Names -/

/-- The numbers of bits of integers. -/
def IsIntegerSize (bits : Nat) : Prop := 8 ≤ bits ∧ bits ≤ 256 ∧ bits % 8 = 0

/-- The numbers of bytes of byte strings of a fixed size. -/
def IsBytesSize (count : Nat) : Prop := 1 ≤ count ∧ count ≤ 32

/-- The types that have a name. -/
def IsElementary : SourceType → Prop
  | .bool | .address | .bytes | .string => True
  | .uint bits | .int bits => IsIntegerSize bits.toNat
  | .fixedBytes count => IsBytesSize count.toNat
  | _ => False

/-- Further names of three of the types. -/
inductive IsAlias : String → SourceType → Prop
  | uint : IsAlias "uint" (.uint 256)
  | int : IsAlias "int" (.int 256)
  | addressPayable : IsAlias "address payable" .address

/-- A text is a name of a type: the text of an elementary type, or an alias. -/
def IsNameOf (name : String) (type : SourceType) : Prop :=
  type.IsElementary ∧ name = type.render ∨ IsAlias name type

/-- What stands before the size in the name of a type, and the size. -/
def nameParts? : SourceType → Option (String × Nat)
  | .uint bits => some ("uint", bits.toNat)
  | .int bits => some ("int", bits.toNat)
  | .fixedBytes count => some ("bytes", count.toNat)
  | _ => none

/-- A text is the text of an elementary type, but for characters that the reader of the size skips:
a plus sign, zeros, or both. -/
def IsPaddedNameOf (name : String) (type : SourceType) : Prop :=
  type.IsElementary ∧ ∃ stem size padding, type.nameParts? = some (stem, size) ∧
    Text.IsPadding padding ∧ padding ≠ [] ∧
      name.toList = stem.toList ++ (padding ++ (toString size).toList)

theorem render_of_nameParts? {type : SourceType} {stem : String} {size : Nat}
    (h : type.nameParts? = some (stem, size)) : type.render = stem ++ toString size := by
  cases type <;> cases h <;> rfl

/-- What the reader of names accepts for a type: its names, padded or not. -/
def IsSpellingOf (name : String) (type : SourceType) : Prop :=
  IsNameOf name type ∨ IsPaddedNameOf name type

section Spellings

variable {name stem : String} {type : SourceType} {size : Nat}

theorem isSpellingOf_iff_of_nameParts? (hparts : type.nameParts? = some (stem, size)) :
    IsSpellingOf name type ↔ IsAlias name type ∨ type.IsElementary ∧
      ∃ padding, Text.IsPadding padding ∧
        name.toList = stem.toList ++ (padding ++ (toString size).toList) := by
  constructor
  · rintro ((⟨helementary, rfl⟩ | halias) | ⟨helementary, _, _, padding, hparts', h⟩)
    · refine .inr ⟨helementary, [], ⟨0, .inl rfl⟩, ?_⟩
      rw [render_of_nameParts? hparts, String.toList_append, List.nil_append]
    · exact .inl halias
    · cases hparts.symm.trans hparts'
      exact .inr ⟨helementary, padding, h.1, h.2.2⟩
  · rintro (halias | ⟨helementary, padding, hpadding, hname⟩)
    · exact .inl (.inr halias)
    · by_cases hnil : padding = []
      · subst hnil
        refine .inl (.inl ⟨helementary, String.toList_inj.1 ?_⟩)
        rw [hname, render_of_nameParts? hparts, String.toList_append, List.nil_append]
      · exact .inr ⟨helementary, stem, size, padding, hparts, hpadding, hnil, hname⟩

theorem IsSpellingOf.exists_append (hparts : type.nameParts? = some (stem, size))
    (h : IsSpellingOf name type) : ∃ suffix, name = stem ++ suffix := by
  rcases (isSpellingOf_iff_of_nameParts? hparts).1 h with halias | ⟨-, padding, -, hname⟩
  · cases halias <;> cases hparts <;> exact ⟨"", rfl⟩
  · refine ⟨String.ofList (padding ++ (toString size).toList), String.toList_inj.1 ?_⟩
    rw [hname, String.toList_append, String.toList_ofList]

theorem IsSpellingOf.isNameOf (hparts : type.nameParts? = none) (h : IsSpellingOf name type) :
    IsNameOf name type := by
  rcases h with hname | ⟨-, stem, size, -, hparts', -⟩
  · exact hname
  · cases hparts.symm.trans hparts'

theorem isAlias_uint_iff {bits : UInt16} :
    IsAlias name (.uint bits) ↔ name = "uint" ∧ bits = 256 := by
  constructor
  · rintro ⟨⟩
    exact ⟨rfl, rfl⟩
  · rintro ⟨rfl, rfl⟩
    exact .uint

theorem isAlias_int_iff {bits : UInt16} :
    IsAlias name (.int bits) ↔ name = "int" ∧ bits = 256 := by
  constructor
  · rintro ⟨⟩
    exact ⟨rfl, rfl⟩
  · rintro ⟨rfl, rfl⟩
    exact .int

theorem not_isAlias_fixedBytes (count : UInt8) : ¬ IsAlias name (.fixedBytes count) := nofun

end Spellings

/-! ### Sizes -/

theorem parseBits_eq_ok_iff {whole : String} {suffix : List Char} {bits : UInt16} :
    parseBits whole suffix = .ok bits ↔ suffix = [] ∧ bits = 256 ∨
      IsIntegerSize bits.toNat ∧
        ∃ padding, Text.IsPadding padding ∧ suffix = padding ++ (toString bits.toNat).toList := by
  constructor
  · intro h
    unfold parseBits at h
    split at h
    · next hempty =>
      cases h
      exact .inl ⟨List.isEmpty_iff.1 hempty, rfl⟩
    · split at h
      · cases h
      · next n hcount =>
        split at h
        · next hsize =>
          cases h
          have hn : n.toUInt16.toNat = n := Nat.mod_eq_of_lt (by omega)
          rw [Text.countBelow?_eq_some_iff hsize.1] at hcount
          rw [hn]
          exact .inr ⟨⟨by omega, hsize.2⟩, hcount.2⟩
        · cases h
  · rintro (⟨rfl, rfl⟩ | ⟨hsize, hsuffix⟩)
    · rfl
    · have hpos : 0 < bits.toNat := Nat.lt_of_lt_of_le (by decide) hsize.1
      have hcount := (Text.countBelow?_eq_some_iff hpos).2 ⟨bits.toNat_lt, hsuffix⟩
      have hne : suffix.isEmpty = false := by
        obtain ⟨padding, -, rfl⟩ := hsuffix
        exact List.isEmpty_eq_false_iff.2
          (List.append_ne_nil_of_right_ne_nil _ (Text.toList_toString_ne_nil _))
      simp only [parseBits, hne, hcount]
      rw [if_neg Bool.false_ne_true, if_pos ⟨hpos, hsize.2⟩]
      exact congrArg Except.ok (UInt16.ofNat_toNat)

theorem parseByteCount_eq_ok_iff {suffix : List Char} {count : UInt8} :
    parseByteCount suffix = .ok count ↔ IsBytesSize count.toNat ∧
      ∃ padding, Text.IsPadding padding ∧ suffix = padding ++ (toString count.toNat).toList := by
  constructor
  · intro h
    unfold parseByteCount at h
    split at h
    · cases h
    · next n hcount =>
      split at h
      · next hsize =>
        cases h
        have hn : n.toUInt8.toNat = n := Nat.mod_eq_of_lt (by omega)
        rw [Text.countBelow?_eq_some_iff hsize.1] at hcount
        rw [hn]
        exact ⟨hsize, hcount.2⟩
      · cases h
  · rintro ⟨hsize, hsuffix⟩
    have hcount := (Text.countBelow?_eq_some_iff hsize.1).2 ⟨count.toNat_lt, hsuffix⟩
    simp only [parseByteCount, hcount]
    rw [if_pos ⟨hsize.1, hsize.2⟩]
    exact congrArg Except.ok UInt8.ofNat_toNat

theorem parseBits_eq_ok_iff_isSpellingOf {stem : String} {make : UInt16 → SourceType}
    (hparts : ∀ bits, (make bits).nameParts? = some (stem, bits.toNat))
    (helementary : ∀ bits, (make bits).IsElementary ↔ IsIntegerSize bits.toNat)
    (halias : ∀ name bits, IsAlias name (make bits) ↔ name = stem ∧ bits = 256)
    {whole suffix : String} {bits : UInt16} :
    parseBits whole suffix.toList = .ok bits ↔ IsSpellingOf (stem ++ suffix) (make bits) := by
  rw [isSpellingOf_iff_of_nameParts? (hparts bits), parseBits_eq_ok_iff, halias, helementary,
    String.append_eq_left_iff, String.toList_append, String.toList_eq_nil_iff]
  simp only [List.append_cancel_left_eq]

theorem parseBits_eq_ok_iff_uint {whole suffix : String} {bits : UInt16} :
    parseBits whole suffix.toList = .ok bits ↔ IsSpellingOf ("uint" ++ suffix) (.uint bits) :=
  parseBits_eq_ok_iff_isSpellingOf (fun _ => rfl) (fun _ => Iff.rfl) fun _ _ => isAlias_uint_iff

theorem parseBits_eq_ok_iff_int {whole suffix : String} {bits : UInt16} :
    parseBits whole suffix.toList = .ok bits ↔ IsSpellingOf ("int" ++ suffix) (.int bits) :=
  parseBits_eq_ok_iff_isSpellingOf (fun _ => rfl) (fun _ => Iff.rfl) fun _ _ => isAlias_int_iff

theorem parseByteCount_eq_ok_iff_isSpellingOf {suffix : String} {count : UInt8} :
    parseByteCount suffix.toList = .ok count ↔
      IsSpellingOf ("bytes" ++ suffix) (.fixedBytes count) := by
  rw [isSpellingOf_iff_of_nameParts? rfl, parseByteCount_eq_ok_iff, String.toList_append]
  simp only [List.append_cancel_left_eq, not_isAlias_fixedBytes, false_or]
  rfl

/-! ### Reading a name -/

theorem restAfter?_eq_some_iff {beginning : String} {text suffix : List Char} :
    restAfter? beginning text = some suffix ↔ text = beginning.toList ++ suffix :=
  List.isPrefixOf?_eq_some_iff_append_eq.trans eq_comm

theorem restAfter?_append (beginning suffix : String) :
    restAfter? beginning (beginning ++ suffix).toList = some suffix.toList :=
  restAfter?_eq_some_iff.2 String.toList_append

theorem parseTrimmed_uint (suffix : String) :
    parseTrimmed ("uint" ++ suffix) =
      (parseBits ("uint" ++ suffix) suffix.toList).map .uint := by
  rw [parseTrimmed, restAfter?_append]

theorem parseTrimmed_int (suffix : String) :
    parseTrimmed ("int" ++ suffix) = (parseBits ("int" ++ suffix) suffix.toList).map .int := by
  have huint : restAfter? "uint" ("int" ++ suffix).toList = none := by
    rw [String.toList_append]
    rfl
  rw [parseTrimmed, huint, restAfter?_append]

theorem parseTrimmed_bytes {suffix : String} (h : suffix ≠ "") :
    parseTrimmed ("bytes" ++ suffix) = (parseByteCount suffix.toList).map .fixedBytes := by
  have huint : restAfter? "uint" ("bytes" ++ suffix).toList = none := by
    rw [String.toList_append]
    rfl
  have hint : restAfter? "int" ("bytes" ++ suffix).toList = none := by
    rw [String.toList_append]
    rfl
  have hne : ∀ other, "bytes".toList.isPrefixOf other.toList = false →
      "bytes" ++ suffix ≠ other := by
    rintro _ hother rfl
    rw [String.toList_append, List.isPrefixOf_iff_prefix.2 (List.prefix_append _ _)] at hother
    cases hother
  have hbytes : "bytes" ++ suffix ≠ "bytes" := fun heq => h (String.append_eq_left_iff.1 heq)
  rw [parseTrimmed, huint, hint, restAfter?_append]
  simp only [if_neg (hne "bool" rfl), if_neg hbytes, if_neg (hne "string" rfl),
    if_neg (not_or.2 ⟨hne "address" rfl, hne "address payable" rfl⟩)]

theorem eq_append_of_restAfter? {beginning name : String} {suffix : List Char}
    (h : restAfter? beginning name.toList = some suffix) :
    name = beginning ++ String.ofList suffix := by
  rw [← String.toList_inj, String.toList_append, String.toList_ofList]
  exact restAfter?_eq_some_iff.1 h

theorem isSpellingOf_of_parseTrimmed {name : String} {type : SourceType}
    (h : parseTrimmed name = .ok type) : IsSpellingOf name type := by
  unfold parseTrimmed at h
  split at h
  · next suffix hname =>
    obtain ⟨bits, hbits, rfl⟩ := map_eq_ok_iff.1 h
    rw [eq_append_of_restAfter? hname, ← parseBits_eq_ok_iff_uint, String.toList_ofList]
    exact hbits
  split at h
  · next suffix hname =>
    obtain ⟨bits, hbits, rfl⟩ := map_eq_ok_iff.1 h
    rw [eq_append_of_restAfter? hname, ← parseBits_eq_ok_iff_int, String.toList_ofList]
    exact hbits
  split at h
  · next hname =>
    cases h
    exact .inl (.inl ⟨trivial, hname⟩)
  split at h
  · next hname =>
    cases h
    rcases hname with rfl | rfl
    · exact .inl (.inl ⟨trivial, rfl⟩)
    · exact .inl (.inr .addressPayable)
  split at h
  · next hname =>
    cases h
    exact .inl (.inl ⟨trivial, hname⟩)
  split at h
  · next hname =>
    cases h
    exact .inl (.inl ⟨trivial, hname⟩)
  split at h
  · next suffix hname =>
    obtain ⟨count, hcount, rfl⟩ := map_eq_ok_iff.1 h
    rw [eq_append_of_restAfter? hname, ← parseByteCount_eq_ok_iff_isSpellingOf,
      String.toList_ofList]
    exact hcount
  · cases h

theorem parseTrimmed_of_isSpellingOf {name : String} {type : SourceType}
    (h : IsSpellingOf name type) : parseTrimmed name = .ok type := by
  cases type with
  | uint bits =>
    obtain ⟨suffix, rfl⟩ := h.exists_append rfl
    rw [parseTrimmed_uint, parseBits_eq_ok_iff_uint.2 h]
    rfl
  | int bits =>
    obtain ⟨suffix, rfl⟩ := h.exists_append rfl
    rw [parseTrimmed_int, parseBits_eq_ok_iff_int.2 h]
    rfl
  | fixedBytes count =>
    obtain ⟨suffix, rfl⟩ := h.exists_append rfl
    have hcount := parseByteCount_eq_ok_iff_isSpellingOf.2 h
    rw [parseTrimmed_bytes, hcount]
    · rfl
    · rintro rfl
      cases hcount
  | bool | address | bytes | string =>
    rcases h.isNameOf rfl with ⟨-, rfl⟩ | halias
    · rfl
    · cases halias <;> rfl
  | array | mapping | enum | tuple | contract =>
    rcases h.isNameOf rfl with ⟨helementary, -⟩ | halias
    · exact helementary.elim
    · cases halias

theorem parse_eq_ok_iff {text : String} {type : SourceType} :
    parse text = .ok type ↔ IsSpellingOf (Text.trim text) type :=
  ⟨isSpellingOf_of_parseTrimmed, parseTrimmed_of_isSpellingOf⟩

/-- A padded name is no name of the same type. -/
theorem IsPaddedNameOf.not_isNameOf {name : String} {type : SourceType}
    (h : IsPaddedNameOf name type) : ¬ IsNameOf name type := by
  obtain ⟨-, stem, size, padding, hparts, -, hne, hname⟩ := h
  rintro (⟨-, rfl⟩ | halias)
  · rw [render_of_nameParts? hparts, String.toList_append, List.append_cancel_left_eq] at hname
    exact hne (List.self_eq_append_left.1 hname)
  · -- an alias ends where a size would begin
    have hstem : name = stem := by
      cases halias <;> cases hparts <;> rfl
    rw [hstem, List.self_eq_append_right, List.append_eq_nil_iff] at hname
    exact Text.toList_toString_ne_nil size hname.2

theorem exists_message_eq (error : TypeNameError) :
    ∃ detail, error.message = "Type error: " ++ detail := by
  cases error with
  | unknown text => exact ⟨"Unknown type: " ++ text, rfl⟩
  | badIntegerSize bits => exact ⟨"Invalid integer size: " ++ toString bits, rfl⟩
  | badBytesSize text => exact ⟨"Invalid bytes size: " ++ text, rfl⟩
  | bytesSizeOutOfRange count =>
    exact ⟨"Bytes size must be between 1 and 32, got " ++ toString count, rfl⟩

/-- A text is read as a type exactly if, without the blanks at its ends, it is a name of the type or
such a name with a plus sign or zeros in front of the size; all other texts are refused with a type
error.  So just the names of the types are read unless the text is a padded one. -/
theorem parse_accepts_names_iff (text : String) :
    ((∀ type, parse text = .ok type ↔ IsNameOf (Text.trim text) type) ↔
      ∀ type, ¬ IsPaddedNameOf (Text.trim text) type) ∧
    (∀ type, parse text = .ok type ↔
      IsNameOf (Text.trim text) type ∨ IsPaddedNameOf (Text.trim text) type) ∧
    ((∃ error detail, parse text = .error error ∧ error.message = "Type error: " ++ detail) ↔
      ∀ type, ¬ IsNameOf (Text.trim text) type ∧ ¬ IsPaddedNameOf (Text.trim text) type) := by
  refine ⟨⟨fun h type hpadded => ?_, fun h type => ?_⟩, fun type => parse_eq_ok_iff, ?_⟩
  · exact hpadded.not_isNameOf ((h type).1 (parse_eq_ok_iff.2 (.inr hpadded)))
  · rw [parse_eq_ok_iff]
    exact or_iff_left (h type)
  · simp only [← not_or]
    constructor
    · rintro ⟨error, -, herror, -⟩ type hspelling
      cases herror.symm.trans (parse_eq_ok_iff.2 hspelling)
    · intro h
      cases hparse : parse text with
      | ok type => exact absurd (parse_eq_ok_iff.1 hparse) (h type)
      | error error =>
        obtain ⟨detail, hmessage⟩ := exists_message_eq error
        exact ⟨error, detail, rfl, hmessage⟩

/-- A zero in front of a size is skipped, so that a text is read that is no name of any type. -/
theorem parse_zero_before_size :
    parse "uint08" = .ok (.uint 8) ∧ ∀ type, ¬ IsNameOf (Text.trim "uint08") type := by
  refine ⟨rfl, fun type hname => ?_⟩
  -- What is read is the only type that the text could name.
  have hread : parse "uint08" = .ok type := parse_eq_ok_iff.2 (.inl hname)
  cases hread
  rcases hname with ⟨-, hrender⟩ | halias
  · exact absurd hrender (by decide)
  · exact absurd (isAlias_uint_iff.1 halias).2 (by decide)

end SolidityEncoding.SourceType
