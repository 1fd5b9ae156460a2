import Mathlib.Data.List.Induction
import SolidityEncoding.Text.Numeral

/-!
# Printed numerals are read back

The decimal text of a natural number consists of digits, is not empty and stands for the number, and
the text of an integer is read back as that integer (`integer?_toString`).  A positive count is read
from its decimal text and from that with padding in front, and from nothing else
(`countList?_eq_some_iff`).  A row of characters of one kind is cut off a text where the kind ends
(`takeWhile_append_of_head`, `dropWhile_append_of_head`), so that only one row can be
(`append_inj_of_head`).
-/

namespace SolidityEncoding.Text

/-! ### Rows of characters -/

section Rows

variable {kind : Char → Bool} {row rest : List Char}
  (hrow : ∀ c ∈ row, kind c = true) (hrest : ∀ c ∈ rest.head?, kind c = false)

include hrow hrest

theorem takeWhile_append_of_head : (row ++ rest).takeWhile kind = row := by
  rw [List.takeWhile_append_of_pos hrow]
  cases rest with
  | nil => rw [List.takeWhile_nil, List.append_nil]
  | cons c cs => rw [List.takeWhile_cons_of_neg (by simp [hrest c rfl]), List.append_nil]

theorem dropWhile_append_of_head : (row ++ rest).dropWhile kind = rest := by
  rw [List.dropWhile_append_of_pos hrow]
  cases rest with
  | nil => rfl
  | cons c cs => exact List.dropWhile_cons_of_neg (by simp [hrest c rfl])

theorem append_inj_of_head {row' rest' : List Char} (hrow' : ∀ c ∈ row', kind c = true)
    (hrest' : ∀ c ∈ rest'.head?, kind c = false) (h : row ++ rest = row' ++ rest') :
    row = row' ∧ rest = rest' := by
  have hrows := congrArg (List.takeWhile kind) h
  rw [takeWhile_append_of_head hrow hrest, takeWhile_append_of_head hrow' hrest'] at hrows
  exact ⟨hrows, List.append_cancel_left (hrows ▸ h)⟩

end Rows

/-! ### Digits -/

theorem isDigit_eq (c : Char) : isDigit c = c.isDigit := rfl

theorem isDigit_of_mem_toString {n : Nat} {c : Char} (h : c ∈ (toString n).toList) :
    isDigit c = true := by
  rw [Nat.toString_eq_repr, Nat.toList_repr] at h
  exact Nat.isDigit_of_mem_toDigits (by decide) (by decide) h

theorem toList_toString_ne_nil (n : Nat) : (toString n).toList ≠ [] := by
  rw [Nat.toString_eq_repr, Nat.toList_repr]
  exact Nat.toDigits_ne_nil

theorem digitsValue_toString (n : Nat) : digitsValue (toString n).toList = n := by
  rw [Nat.toString_eq_repr, Nat.toList_repr]
  exact Nat.ofDigitChars_eq_foldl.symm.trans Nat.ofDigitChars_ten_toDigits

theorem digitsValue_toString_word (width : UInt32) :
    (digitsValue (toString width.toNat).toList).toUInt32 = width := by
  rw [digitsValue_toString]
  exact UInt32.ofNat_toNat

/-! ### Integers -/

/-- The characters of integers. -/
def isNumeralChar (c : Char) : Bool := isDigit c || c == '-'

theorem toList_toString_negSucc (n : Nat) :
    (toString (Int.negSucc n)).toList = '-' :: (toString (n + 1)).toList :=
  String.toList_append

theorem toList_toString_int_ne_nil (i : Int) : (toString i).toList ≠ [] := by
  cases i with
  | ofNat n => exact toList_toString_ne_nil n
  | negSucc n =>
    rw [toList_toString_negSucc]
    exact List.cons_ne_nil _ _

theorem isNumeralChar_of_mem_toString {i : Int} {c : Char} (h : c ∈ (toString i).toList) :
    isNumeralChar c = true := by
  rw [isNumeralChar, Bool.or_eq_true, beq_iff_eq]
  cases i with
  | ofNat n => exact .inl (isDigit_of_mem_toString h)
  | negSucc n =>
    rw [toList_toString_negSucc] at h
    rcases List.mem_cons.1 h with hminus | h
    · exact .inr hminus
    · exact .inl (isDigit_of_mem_toString h)

theorem groupedDigits?_toString (n : Nat) : groupedDigits? (toString n).toList = some n := by
  have hdigits : ∀ c ∈ (toString n).toList, isDigit c = true := fun _ => isDigit_of_mem_toString
  have hvalue := digitsValue_toString n
  cases hn : (toString n).toList with
  | nil => exact absurd hn (toList_toString_ne_nil n)
  | cons c cs =>
    rw [hn] at hdigits hvalue
    have hgrouped : (isDigit c && cs.all fun d => isDigit d || d == '_') = true := by
      simp only [Bool.and_eq_true, List.all_eq_true, Bool.or_eq_true]
      exact ⟨hdigits c List.mem_cons_self, fun d hd => .inl (hdigits d (List.mem_cons_of_mem c hd))⟩
    rw [groupedDigits?, if_pos hgrouped, List.filter_eq_self.2 hdigits, hvalue]

theorem integer?_toString (i : Int) : integer? (toString i) = some i := by
  cases i with
  | negSucc n =>
    rw [integer?, toList_toString_negSucc, integerList?, groupedDigits?_toString]
    rfl
  | ofNat n =>
    -- a digit is not a sign
    have hsign : ∀ c ∈ (toString n).toList.head?, c ≠ '-' ∧ c ≠ '+' := by
      intro c hc
      have hdigit := isDigit_of_mem_toString (List.mem_of_mem_head? hc)
      constructor
      all_goals
        rintro rfl
        exact absurd hdigit (by decide)
    change integerList? (toString n).toList = some (n : Int)
    unfold integerList?
    split
    · next h => exact absurd rfl (hsign '-' (by rw [h]; rfl)).1
    · next h => exact absurd rfl (hsign '+' (by rw [h]; rfl)).2
    · rw [groupedDigits?_toString]
      rfl

/-! ### Counts -/

section Counts

variable {cs : List Char} {n : Nat}

theorem digitsValue_concat (cs : List Char) (c : Char) :
    digitsValue (cs ++ [c]) = 10 * digitsValue cs + digitValue c := by
  simp only [digitsValue, List.foldl_append, List.foldl_cons, List.foldl_nil]

theorem digitsValue_zeros_append (zeros : Nat) (cs : List Char) :
    digitsValue (List.replicate zeros '0' ++ cs) = digitsValue cs := by
  rw [digitsValue, List.foldl_append]
  congr 1
  induction zeros with
  | zero => rfl
  | succ zeros ih => rwa [List.replicate_succ, List.foldl_cons]

theorem digitValue_lt_and_digitChar {c : Char} (h : isDigit c = true) :
    digitValue c < 10 ∧ (digitValue c).digitChar = c := by
  have hrange : 48 ≤ c.toNat ∧ c.toNat ≤ 57 := by
    simpa [isDigit, Char.le_def, UInt32.le_iff_toNat_le] using h
  have hvalue : digitValue c = c.toNat - 48 := rfl
  have hlt : digitValue c < 10 := by omega
  refine ⟨hlt, Char.toNat_inj.1 ?_⟩
  rw [Nat.toNat_digitChar_of_lt_ten hlt]
  omega

theorem eq_zeros_of_digitsValue_eq_zero (hdigits : ∀ c ∈ cs, isDigit c = true)
    (h : digitsValue cs = 0) : cs = List.replicate cs.length '0' := by
  induction cs using List.reverseRecOn with
  | nil => rfl
  | append_singleton cs c ih =>
    rw [List.forall_mem_append, List.forall_mem_singleton] at hdigits
    rw [digitsValue_concat] at h
    have hc : c = '0' := by
      rw [← (digitValue_lt_and_digitChar hdigits.2).2, Nat.digitChar_eq_zero]
      omega
    have hcs := ih hdigits.1 (by omega)
    rw [List.length_append, List.length_singleton, List.replicate_succ', ← hcs, hc]

/-- A row of digits is zeros and then the decimal text of the number it stands for, if that is not
zero. -/
theorem exists_zeros_append (hdigits : ∀ c ∈ cs, isDigit c = true) (hpos : 0 < digitsValue cs) :
    ∃ zeros, cs = List.replicate zeros '0' ++ (toString (digitsValue cs)).toList := by
  induction cs using List.reverseRecOn with
  | nil => cases hpos
  | append_singleton cs c ih =>
    rw [List.forall_mem_append, List.forall_mem_singleton] at hdigits
    obtain ⟨hlt, hchar⟩ := digitValue_lt_and_digitChar hdigits.2
    have hlast : Nat.toDigits 10 (digitValue c) = [c] := by
      rw [Nat.toDigits_of_lt_base hlt, hchar]
    rw [digitsValue_concat] at hpos ⊢
    simp only [Nat.toString_eq_repr, Nat.toList_repr] at ih ⊢
    rcases Nat.eq_zero_or_pos (digitsValue cs) with hzero | hinit
    · refine ⟨cs.length, ?_⟩
      rw [hzero, Nat.mul_zero, Nat.zero_add, hlast,
        ← eq_zeros_of_digitsValue_eq_zero hdigits.1 hzero]
    · obtain ⟨zeros, hcs⟩ := ih hdigits.1 hinit
      refine ⟨zeros, ?_⟩
      rw [← Nat.toDigits_append_toDigits (by decide) hinit hlt, hlast, ← List.append_assoc, ← hcs]

theorem isDigit_of_mem_zeros_append {zeros : Nat} {c : Char}
    (h : c ∈ List.replicate zeros '0' ++ (toString n).toList) : isDigit c = true := by
  rcases List.mem_append.1 h with h | h
  · rw [List.eq_of_mem_replicate h]
    rfl
  · exact isDigit_of_mem_toString h

theorem digits?_eq_some_iff (hn : 0 < n) :
    digits? cs = some n ↔ ∃ zeros, cs = List.replicate zeros '0' ++ (toString n).toList := by
  constructor
  · intro h
    rw [digits?] at h
    split at h
    · next hdigits =>
      cases h
      rw [Bool.and_eq_true, List.all_eq_true] at hdigits
      exact exists_zeros_append hdigits.2 hn
    · cases h
  · rintro ⟨zeros, rfl⟩
    have hdigits : (List.replicate zeros '0' ++ (toString n).toList).all isDigit = true :=
      List.all_eq_true.2 fun c => isDigit_of_mem_zeros_append
    have hne : List.replicate zeros '0' ++ (toString n).toList ≠ [] :=
      List.append_ne_nil_of_right_ne_nil _ (toList_toString_ne_nil n)
    rw [digits?, hdigits, List.isEmpty_eq_false_iff.2 hne, digitsValue_zeros_append,
      digitsValue_toString]
    rfl

/-- What may stand in front of the digits of a count: at most one plus sign, and then zeros. -/
def IsPadding (cs : List Char) : Prop :=
  ∃ zeros, cs = List.replicate zeros '0' ∨ cs = '+' :: List.replicate zeros '0'

theorem countList?_eq_some_iff (hn : 0 < n) :
    countList? cs = some n ↔
      ∃ padding, IsPadding padding ∧ cs = padding ++ (toString n).toList := by
  unfold countList?
  split
  · next cs =>
    rw [digits?_eq_some_iff hn]
    constructor
    · rintro ⟨zeros, rfl⟩
      exact ⟨_, ⟨zeros, .inr rfl⟩, rfl⟩
    · rintro ⟨padding, ⟨zeros, rfl | rfl⟩, h⟩
      · have hplus : '+' ∈ List.replicate zeros '0' ++ (toString n).toList :=
          h ▸ List.mem_cons_self
        exact absurd (isDigit_of_mem_zeros_append hplus) (by decide)
      · exact ⟨zeros, List.tail_eq_of_cons_eq h⟩
  · next hplus =>
    rw [digits?_eq_some_iff hn]
    constructor
    · rintro ⟨zeros, rfl⟩
      exact ⟨_, ⟨zeros, .inl rfl⟩, rfl⟩
    · rintro ⟨padding, ⟨zeros, rfl | rfl⟩, rfl⟩
      · exact ⟨zeros, rfl⟩
      · exact absurd rfl (hplus _)

theorem countBelow?_eq_some_iff {bound : Nat} (hn : 0 < n) :
    countBelow? bound (String.ofList cs) = some n ↔
      n < bound ∧ ∃ padding, IsPadding padding ∧ cs = padding ++ (toString n).toList := by
  rw [countBelow?, count?, String.toList_ofList, Option.filter_eq_some_iff,
    countList?_eq_some_iff hn, and_comm, decide_eq_true_eq]

end Counts

end SolidityEncoding.Text
