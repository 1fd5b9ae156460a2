import SolidityEncoding.Encoding.Transfer
import SolidityEncoding.Proofs.Simulation
import SolidityEncoding.Proofs.Value.TotalMap

/-!
# Words and balances

Balances and amounts are words: values of the word type of an encoding, in range if the encoding is
the modular one.  Every number has a word, and under the encodings that reduce, the word is all that
is left of the residue of the number.
-/

namespace SolidityEncoding

open Transfer

/-! ### Words -/

/-- The number that a value is, read without a sign. -/
def Value.number : Value → Int
  | .int n => n
  | .bv n _ => n
  | _ => 0

namespace Encoding

/-- The word of a number, reduced unless integers are unbounded. -/
def word (encoding : Encoding) (n : Int) : Value :=
  match encoding with
  | .mathematical => .int n
  | .bitvector => .bvOf n 256
  | .modular => .int (uint256.wrap n)

/-- A value of the word type, which is in range under the modular encoding. -/
structure IsWord (encoding : Encoding) (value : Value) : Prop where
  hasTy : value.HasTy (encoding.wordTy 256)
  inRange : encoding = .modular → uint256.Contains value.number

variable {encoding : Encoding}

theorem isWord_int {n : Int} (h : uint256.Contains n) : modular.IsWord (.int n) :=
  ⟨.int n, fun _ => h⟩

theorem isWord_modular_iff {value : Value} :
    modular.IsWord value ↔ ∃ n, value = .int n ∧ uint256.Contains n := by
  constructor
  · intro h
    obtain ⟨n, rfl⟩ := h.hasTy.exists_int
    exact ⟨n, rfl, h.inRange rfl⟩
  · rintro ⟨n, rfl, hn⟩
    exact isWord_int hn

theorem uint256_bits_pos : 0 < uint256.bits := by decide

theorem contains_wrap_uint256 (n : Int) : uint256.Contains (uint256.wrap n) :=
  Shape.contains_wrap uint256_bits_pos n

theorem eq_wrap_uint256 {n : Int} (h : uint256.Contains n) : n = uint256.wrap n :=
  (Shape.eq_wrap_iff uint256_bits_pos).2 h

theorem contains_sub {m a : Int} (hm : uint256.Contains m) (ha : uint256.Contains a) (h : a ≤ m) :
    uint256.Contains (m - a) := by
  rw [uint256, Shape.contains_unsigned_iff] at hm ha ⊢
  omega

theorem number_bvOf (n : Int) : (Value.bvOf n 256).number = uint256.wrap n := by
  rw [Shape.wrap_eq_emod]
  exact Word.natCast_ofInt n 256

theorem isWord_word (encoding : Encoding) (n : Int) : encoding.IsWord (encoding.word n) := by
  cases encoding with
  | mathematical => exact ⟨.int n, nofun⟩
  | bitvector => exact ⟨.bv (Word.ofInt_lt n 256), nofun⟩
  | modular => exact isWord_int (contains_wrap_uint256 n)

theorem number_word_modEq (encoding : Encoding) (n : Int) :
    (encoding.word n).number ≡ n [ZMOD pow2 256] := by
  cases encoding with
  | mathematical => rfl
  | bitvector =>
    rw [word, number_bvOf]
    exact Shape.wrap_modEq uint256 n
  | modular => exact Shape.wrap_modEq uint256 n

/-- A number that needs no reduction is the number of its word. -/
theorem number_word {n : Int} (h : encoding ≠ .mathematical → uint256.Contains n) :
    (encoding.word n).number = n := by
  cases encoding with
  | mathematical => rfl
  | bitvector =>
    rw [word, number_bvOf]
    exact (eq_wrap_uint256 (h nofun)).symm
  | modular => exact (eq_wrap_uint256 (h nofun)).symm

namespace IsWord

variable {value : Value}

theorem contains (h : encoding.IsWord value) (hencoding : encoding ≠ .mathematical) :
    uint256.Contains value.number := by
  cases encoding with
  | mathematical => exact absurd rfl hencoding
  | bitvector =>
    obtain ⟨x, rfl⟩ := h.hasTy.exists_ofBits
    exact Shape.contains_read uint256_bits_pos x
  | modular => exact h.inRange rfl

/-- A word is the word of its number. -/
theorem word_number (h : encoding.IsWord value) : encoding.word value.number = value := by
  cases encoding with
  | mathematical =>
    obtain ⟨n, rfl⟩ := h.hasTy.exists_int
    rfl
  | bitvector =>
    obtain ⟨x, rfl⟩ := h.hasTy.exists_ofBits
    rw [word, Value.bvOf_eq_ofBits]
    exact congrArg Value.ofBits (Shape.ofInt_toNat x)
  | modular =>
    obtain ⟨n, rfl, hn⟩ := isWord_modular_iff.1 h
    exact congrArg Value.int (eq_wrap_uint256 hn).symm

end IsWord

/-- A word only depends on the residue of its number, unless integers are unbounded. -/
theorem word_eq_word {m n : Int} (hencoding : encoding ≠ .mathematical)
    (h : m ≡ n [ZMOD pow2 256]) : encoding.word m = encoding.word n := by
  have hwrap : uint256.wrap m = uint256.wrap n := Shape.wrap_eq_wrap h
  cases encoding with
  | mathematical => exact absurd rfl hencoding
  | bitvector =>
    show Value.bvOf m uint256.bits = .bvOf n uint256.bits
    rw [← Value.bvOf_wrap uint256 m, hwrap, Value.bvOf_wrap]
  | modular => exact congrArg Value.int hwrap

/-- What was added to a word can be taken away again. -/
theorem word_number_add_sub (encoding : Encoding) (m a : Int) :
    encoding.word ((encoding.word (m + a)).number - a) = encoding.word m := by
  by_cases hencoding : encoding = .mathematical
  · subst hencoding
    show Value.int (m + a - a) = .int m
    rw [Int.add_sub_cancel]
  · refine word_eq_word hencoding ?_
    have h := (number_word_modEq encoding (m + a)).sub_right a
    rwa [Int.add_sub_cancel] at h

end Encoding

/-! ### Balances -/

namespace TotalMap

/-- The default and all entries of a map are words. -/
structure HoldsWords (b : TotalMap) (encoding : Encoding) : Prop where
  canonical : b.Canonical
  default : encoding.IsWord b.default
  entries : ∀ entry ∈ b.entries, encoding.IsWord entry.2

theorem holdsWords_const {encoding : Encoding} {value : Value} (h : encoding.IsWord value) :
    (const value).HoldsWords encoding :=
  ⟨canonical_const value, h, List.forall_mem_nil _⟩

namespace HoldsWords

variable {b : TotalMap} {encoding : Encoding}

theorem get (h : b.HoldsWords encoding) (account : Value) : encoding.IsWord (b.get account) := by
  unfold TotalMap.get
  cases hfind : findIn account b.entries with
  | none => exact h.default
  | some value =>
    obtain ⟨other, hmem⟩ := exists_mem_of_findIn hfind
    exact h.entries _ hmem

theorem set (h : b.HoldsWords encoding) (account : Value) {value : Value}
    (hvalue : encoding.IsWord value) : (b.set account value).HoldsWords encoding := by
  refine ⟨h.canonical.set account value, ?_, ?_⟩
  · rw [default_set]
    exact h.default
  intro entry hentry
  unfold TotalMap.set at hentry
  split at hentry
  · exact h.entries entry (mem_of_mem_eraseIn hentry)
  · rcases mem_insertIn hentry with rfl | hentry
    · exact hvalue
    · exact h.entries entry hentry

end HoldsWords

/-- The balances after an amount was credited to `t`. -/
def credit (b : TotalMap) (encoding : Encoding) (t a : Value) : TotalMap :=
  b.set t (encoding.word ((b.get t).number + a.number))

/-- The balances after an amount was moved from `s` to `t`. -/
def moved (b : TotalMap) (encoding : Encoding) (t s a : Value) : TotalMap :=
  if t = s then b
  else (b.credit encoding t a).set s (encoding.word ((b.get s).number - a.number))

theorem HoldsWords.credit {b : TotalMap} {encoding : Encoding} (h : b.HoldsWords encoding)
    (t a : Value) : (b.credit encoding t a).HoldsWords encoding :=
  h.set t (Encoding.isWord_word _ _)

theorem HoldsWords.moved {b : TotalMap} {encoding : Encoding} (h : b.HoldsWords encoding)
    (t s a : Value) : (b.moved encoding t s a).HoldsWords encoding := by
  unfold TotalMap.moved
  split
  · exact h
  · exact (h.credit t a).set s (Encoding.isWord_word _ _)

/-- The debit undoes the credit if both concern one account. -/
theorem debit_credit {encoding : Encoding} {b : TotalMap} {t s a : Value}
    (hb : b.Canonical) (ht : encoding.IsWord (b.get t)) :
    (b.credit encoding t a).set s (encoding.word
      (((b.credit encoding t a).get s).number - a.number)) =
    b.moved encoding t s a := by
  rw [moved, credit]
  by_cases heq : t = s
  · rw [if_pos heq, ← heq, get_set_self hb, Encoding.word_number_add_sub, ht.word_number]
    exact set_set_get hb _ _
  · rw [if_neg heq, get_set_of_ne hb heq]

/-- Balances `b'` are those of `b` after `a` was moved from `s` to `t`. -/
structure MovedTo (b : TotalMap) (encoding : Encoding) (t s a : Value) (b' : TotalMap) : Prop where
  others : ∀ account, account ≠ t → account ≠ s → b'.get account = b.get account
  receiver : t ≠ s → b'.get t = encoding.word ((b.get t).number + a.number)
  sender : t ≠ s → b'.get s = encoding.word ((b.get s).number - a.number)
  self : t = s → b' = b

theorem movedTo_moved {b : TotalMap} (hb : b.Canonical) (encoding : Encoding) (t s a : Value) :
    b.MovedTo encoding t s a (b.moved encoding t s a) := by
  rw [moved]
  by_cases heq : t = s
  · rw [if_pos heq]
    exact ⟨fun _ _ _ => rfl, fun hne => absurd heq hne, fun hne => absurd heq hne, fun _ => rfl⟩
  have hcredit : (b.credit encoding t a).Canonical := hb.set _ _
  rw [if_neg heq]
  constructor
  · intro account ht hs
    rw [get_set_of_ne hcredit hs.symm, credit, get_set_of_ne hb ht.symm]
  · intro _
    rw [get_set_of_ne hcredit (Ne.symm heq), credit, get_set_self hb]
  · intro _
    rw [get_set_self hcredit]
  · exact fun h => absurd h heq

end TotalMap

end SolidityEncoding
