/-!
# Words

A word of `width` bits is a natural number below `2 ^ width`.  This module holds the SMT-LIB
functions of words in terms of natural numbers and powers of two, and the two readings of a word
as an integer.

Some functions subtract.  On words the difference always exists; on a number that does not fit its
width it may not, and then the function has no value.

Remainders of integers come from divisions that round towards zero, and are corrected where they are
negative (`repeatedRemainder`, `euclideanDivision`).
-/

namespace SolidityEncoding

/-! ### Division of integers -/

/-- The remainder of a division that rounds towards zero, made positive and reduced again. -/
def repeatedRemainder (value modulus : Int) : Int := (value.tmod modulus + modulus).tmod modulus

theorem repeatedRemainder_eq_emod {modulus : Int} (hpos : 0 < modulus) (value : Int) :
    repeatedRemainder value modulus = value % modulus := by
  have hlow : -modulus < value.tmod modulus := by
    have h := Int.lt_tmod_of_pos value hpos
    omega
  have hnonneg : 0 ≤ value.tmod modulus + modulus := by omega
  have hsplit : value.tmod modulus = value - modulus * value.tdiv modulus :=
    Int.tmod_def value modulus
  rw [repeatedRemainder, Int.tmod_eq_emod_of_nonneg hnonneg, Int.add_emod_right, hsplit,
    Int.sub_mul_emod_self_left]

/-- A quotient and a remainder that is not negative.  The remainder of a division that rounds
towards zero is corrected by the divisor, and the quotient is what is left of the dividend. -/
def euclideanDivision (a b : Int) : Int × Int :=
  let truncated := a.tmod b
  let remainder := if truncated < 0 then truncated + b.natAbs else truncated
  ((a - remainder).tdiv b, remainder)

theorem euclideanDivision_eq (a b : Int) : euclideanDivision a b = (a / b, a % b) := by
  by_cases hzero : b = 0
  · subst hzero
    simp [euclideanDivision]
  have hnonneg := Int.emod_nonneg a hzero
  have hlt := Int.emod_lt a hzero
  have hremainder :
      (if a.tmod b < 0 then a.tmod b + b.natAbs else a.tmod b) = a % b := by
    rw [Int.tmod_eq_emod]
    split <;> split <;> omega
  have hmultiple : a - a % b = b * (a / b) := by
    rw [Int.emod_def]
    omega
  simp only [euclideanDivision, hremainder, hmultiple, Int.mul_tdiv_cancel_left _ hzero]

namespace Word

/-! ### Words and integers -/

/-- A power of two. -/
def twoPow (n : Nat) : Nat := Nat.pow 2 n

theorem twoPow_pos (n : Nat) : 0 < twoPow n := Nat.two_pow_pos n

/-- The number of words of a width. -/
def modulus (width : UInt32) : Nat := twoPow width.toNat

theorem modulus_pos (width : UInt32) : 0 < modulus width := twoPow_pos _

/-- The difference of two natural numbers, if there is one. -/
def difference? (a b : Nat) : Option Nat := if b ≤ a then some (a - b) else none

/-- The word that is congruent to an integer: its two's complement. -/
def ofInt (value : Int) (width : UInt32) : Nat :=
  (repeatedRemainder value (modulus width)).natAbs

theorem ofInt_eq_emod (value : Int) (width : UInt32) :
    (ofInt value width : Int) = value % modulus width := by
  have hpos : (0 : Int) < modulus width := Int.natCast_pos.2 (modulus_pos width)
  rw [ofInt, repeatedRemainder_eq_emod hpos]
  exact Int.natAbs_of_nonneg (Int.emod_nonneg value (Int.ne_of_gt hpos))

theorem ofInt_lt (value : Int) (width : UInt32) : ofInt value width < modulus width := by
  have hlt := Int.emod_lt_of_pos value (Int.natCast_pos.2 (modulus_pos width))
  rw [← ofInt_eq_emod] at hlt
  exact Int.ofNat_lt.1 hlt

/-- Whether the sign bit is set. -/
def isNegative (value : Nat) (width : UInt32) : Bool :=
  width != 0 && value.testBit (width.toNat - 1)

/-- The two's-complement reading. -/
def toInt (value : Nat) (width : UInt32) : Int :=
  if isNegative value width then (value : Int) - (modulus width : Int) else (value : Int)

/-- The additive inverse. -/
def neg? (value : Nat) (width : UInt32) : Option Nat :=
  (difference? (modulus width) value).map (· % modulus width)

/-- The word with every bit flipped. -/
def not? (value : Nat) (width : UInt32) : Option Nat := difference? (modulus width - 1) value

/-- The sum. -/
def add (a b : Nat) (width : UInt32) : Nat := (a + b) % modulus width

/-- The difference. -/
def sub? (a b : Nat) (width : UInt32) : Option Nat :=
  (difference? (a + modulus width) b).map (· % modulus width)

/-- The product. -/
def mul (a b : Nat) (width : UInt32) : Nat := a * b % modulus width

/-- The quotient; all bits are set if the divisor is zero. -/
def udiv (a b : Nat) (width : UInt32) : Nat := if b = 0 then modulus width - 1 else a / b

/-- The remainder; the dividend if the divisor is zero. -/
def urem (a b : Nat) : Nat := if b = 0 then a else a % b

/-- The word itself, or its additive inverse if `flip` is set. -/
def negIf? (flip : Bool) (value : Nat) (width : UInt32) : Option Nat :=
  if flip then neg? value width else some value

/-- The absolute value of the two's-complement reading. -/
def abs? (value : Nat) (width : UInt32) : Option Nat :=
  negIf? (isNegative value width) value width

/-- The quotient of the two's-complement readings, rounded towards zero. -/
def sdiv? (a b : Nat) (width : UInt32) : Option Nat := do
  let quotient := udiv (← abs? a width) (← abs? b width) width
  negIf? (isNegative a width != isNegative b width) quotient width

/-- The remainder of the two's-complement readings, with the sign of the dividend. -/
def srem? (a b : Nat) (width : UInt32) : Option Nat := do
  let remainder := urem (← abs? a width) (← abs? b width)
  negIf? (isNegative a width) remainder width

/-- The word shifted to the left; zero if no bit is left. -/
def shl (a b : Nat) (width : UInt32) : Nat :=
  if b < width.toNat then (a <<< b) % modulus width else 0

/-- The word shifted to the right; zero if no bit is left. -/
def lshr (a b : Nat) (width : UInt32) : Nat := if b < width.toNat then a >>> b else 0

/-- The word shifted to the right, filled up with copies of the sign bit. -/
def ashr (a b : Nat) (width : UInt32) : Nat :=
  let signed := toInt a width
  let shifted : Int :=
    if b < width.toNat then (euclideanDivision signed (twoPow b)).1
    else if signed < 0 then -1 else 0
  ofInt shifted width

/-- The number of the bits `hi` down to `lo`, if it is a 32-bit number. -/
def sliceWidth? (hi lo : UInt32) : Option UInt32 :=
  if lo ≤ hi ∧ (hi - lo).toNat + 1 < UInt32.size then some (hi - lo + 1) else none

/-- The bits `lo` to `lo + width - 1`. -/
def slice (value : Nat) (lo width : UInt32) : Nat := (value >>> lo.toNat) % modulus width

end Word

end SolidityEncoding
