import SolidityEncoding.Proofs.Simulation

/-!
# Byte strings

A byte string of `size` bytes is an unsigned number of `8 * size` bits whose leading byte is the
first one.  Resizing it multiplies by a power of two, or divides by one and drops the remainder
(`resizedNumber`), so that the leading bytes stay and the bytes after them are zero
(`resizes_resizedNumber`).  In each encoding the resized expression has this number as its value
(`Encoding.eval_resizedBytes`).

A literal takes part in this only if the number of bytes changes: of equal sizes the resized
expression is the expression itself, and a literal stays an integer under every encoding.
-/

namespace SolidityEncoding

/-! ### Numbers of byte strings -/

/-- Only two byte string types have numbers of bits to resize between. -/
theorem eq_fixedBytes_of_byteStringBits? {source target : SourceType}
    {sourceBits targetBits : UInt32}
    (h : byteStringBits? source target = some (sourceBits, targetBits)) :
    ∃ m n, source = .fixedBytes m ∧ target = .fixedBytes n ∧ sourceBits = m.toUInt32 * 8 ∧
      targetBits = n.toUInt32 * 8 := by
  cases source with
  | fixedBytes m =>
    cases target with
    | fixedBytes n =>
      cases h
      exact ⟨m, n, rfl, rfl, rfl, rfl⟩
    | _ => cases h
  | _ => cases h

theorem shape?_of_byteStringBits? {source target : SourceType} {sourceBits targetBits : UInt32}
    (h : byteStringBits? source target = some (sourceBits, targetBits)) :
    source.shape? = some ⟨sourceBits, false⟩ ∧ target.shape? = some ⟨targetBits, false⟩ := by
  obtain ⟨m, n, rfl, rfl, rfl, rfl⟩ := eq_fixedBytes_of_byteStringBits? h
  exact ⟨rfl, rfl⟩

theorem toNat_byteBits (count : UInt8) : (count.toUInt32 * 8).toNat = 8 * count.toNat := by
  have hlt := count.toNat_lt
  rw [UInt32.toNat_mul, UInt8.toNat_toUInt32]
  change count.toNat * 8 % 2 ^ 32 = 8 * count.toNat
  omega

theorem byteBits_injective {m n : UInt8} (h : m.toUInt32 * 8 = n.toUInt32 * 8) : m = n := by
  have hbits := congrArg UInt32.toNat h
  rw [toNat_byteBits, toNat_byteBits] at hbits
  exact UInt8.toNat_inj.1 (by omega)

/-- The number that a byte string of `source` bits becomes at `target` bits. -/
def resizedNumber (source target : UInt32) (value : Int) : Int :=
  if source < target then value * pow2 (target - source) else value / pow2 (source - target)

theorem resizedNumber_of_le {source target : UInt32} (hle : source ≤ target) (value : Int) :
    resizedNumber source target value = value * 2 ^ (target.toNat - source.toNat) := by
  unfold resizedNumber
  by_cases hlt : source < target
  · rw [if_pos hlt, pow2_eq, UInt32.toNat_sub_of_le _ _ hle]
  · obtain rfl := UInt32.le_antisymm hle (UInt32.not_lt.1 hlt)
    rw [if_neg hlt, pow2_eq, UInt32.sub_self, Nat.sub_self]
    exact (Int.ediv_one value).trans (Int.mul_one value).symm

theorem resizedNumber_self (bits : UInt32) (value : Int) :
    resizedNumber bits bits value = value := by
  rw [resizedNumber_of_le UInt32.le_rfl, Nat.sub_self, Int.pow_zero, Int.mul_one]

theorem resizedNumber_of_ge {source target : UInt32} (hle : target ≤ source) (value : Int) :
    resizedNumber source target value = value / 2 ^ (source.toNat - target.toNat) := by
  rw [resizedNumber, if_neg (UInt32.not_lt.2 hle), pow2_eq, UInt32.toNat_sub_of_le _ _ hle]

/-- A resized byte string is in range. -/
theorem contains_resizedNumber {source target : UInt32} {value : Int}
    (hc : Shape.Contains ⟨source, false⟩ value) :
    Shape.Contains ⟨target, false⟩ (resizedNumber source target value) := by
  obtain ⟨hnonneg, hlt⟩ := Shape.contains_unsigned_iff.1 hc
  rw [Shape.contains_unsigned_iff, pow2_eq]
  rw [pow2_eq] at hlt
  have hpos (bits : Nat) : (0 : Int) < 2 ^ bits := Int.pow_pos (by decide)
  rcases UInt32.le_total source target with hle | hle
  · rw [resizedNumber_of_le hle]
    have hsplit : (2 : Int) ^ target.toNat =
        2 ^ source.toNat * 2 ^ (target.toNat - source.toNat) := by
      rw [← Int.pow_add, Nat.add_sub_cancel' (UInt32.le_iff_toNat_le.1 hle)]
    rw [hsplit]
    exact ⟨Int.mul_nonneg hnonneg (hpos _).le, Int.mul_lt_mul_of_pos_right hlt (hpos _)⟩
  · rw [resizedNumber_of_ge hle]
    refine ⟨Int.ediv_nonneg hnonneg (hpos _).le, Int.ediv_lt_of_lt_mul (hpos _) ?_⟩
    rwa [← Int.pow_add, Nat.add_sub_cancel' (UInt32.le_iff_toNat_le.1 hle)]

/-- The byte of a byte string at a position, counted from the leading byte. -/
def byteAt (size : Nat) (value : Int) (position : Nat) : Int :=
  value / 2 ^ (8 * (size - 1 - position)) % 256

section Leading

variable {m n position : Nat} (value : Int)

/-- Widening adds zero bytes on the right. -/
theorem byteAt_mul (hle : m ≤ n) (hn : position < n) :
    byteAt n (value * 2 ^ (8 * (n - m))) position =
      if position < m then byteAt m value position else 0 := by
  unfold byteAt
  have hpos (bits : Nat) : (0 : Int) < 2 ^ bits := Int.pow_pos (by decide)
  by_cases hm : position < m
  · have hsplit : 8 * (n - 1 - position) = 8 * (m - 1 - position) + 8 * (n - m) := by omega
    rw [if_pos hm, hsplit, Int.pow_add, Int.mul_ediv_mul_of_pos_left _ _ (hpos _)]
  · have hsplit : 8 * (n - m) = 8 * (position - m) + 8 + 8 * (n - 1 - position) := by omega
    rw [if_neg hm, hsplit, Int.pow_add, ← Int.mul_assoc, Int.mul_ediv_cancel _ (hpos _).ne',
      Int.pow_add, ← Int.mul_assoc]
    exact Int.mul_emod_left _ _

/-- Narrowing keeps the leading bytes. -/
theorem byteAt_div (hle : n ≤ m) (hn : position < n) :
    byteAt n (value / 2 ^ (8 * (m - n))) position = byteAt m value position := by
  have hsplit : 8 * (m - 1 - position) = 8 * (m - n) + 8 * (n - 1 - position) := by omega
  unfold byteAt
  rw [hsplit, Int.pow_add, Int.ediv_ediv_of_nonneg (Int.pow_pos (by decide)).le]

end Leading

/-- A number of `n` bytes holds a number of `m` bytes from the left: the leading bytes are the same,
and all other bytes are zero. -/
structure Resizes (m n : Nat) (value resized : Int) : Prop where
  widened : m ≤ n → resized = value * 2 ^ (8 * (n - m))
  narrowed : n < m → resized = value / 2 ^ (8 * (m - n))
  leading : ∀ position < n,
    byteAt n resized position = if position < m then byteAt m value position else 0

theorem resizes_resizedNumber (m n : UInt8) (value : Int) :
    Resizes m.toNat n.toNat value
      (resizedNumber (m.toUInt32 * 8) (n.toUInt32 * 8) value) := by
  have hwidened (hle : m.toNat ≤ n.toNat) :
      resizedNumber (m.toUInt32 * 8) (n.toUInt32 * 8) value =
        value * 2 ^ (8 * (n.toNat - m.toNat)) := by
    have hbits : m.toUInt32 * 8 ≤ n.toUInt32 * 8 := by
      rw [UInt32.le_iff_toNat_le, toNat_byteBits, toNat_byteBits]
      omega
    rw [resizedNumber_of_le hbits, toNat_byteBits, toNat_byteBits, Nat.mul_sub]
  have hnarrowed (hlt : n.toNat < m.toNat) :
      resizedNumber (m.toUInt32 * 8) (n.toUInt32 * 8) value =
        value / 2 ^ (8 * (m.toNat - n.toNat)) := by
    have hbits : n.toUInt32 * 8 ≤ m.toUInt32 * 8 := by
      rw [UInt32.le_iff_toNat_le, toNat_byteBits, toNat_byteBits]
      omega
    rw [resizedNumber_of_ge hbits, toNat_byteBits, toNat_byteBits, Nat.mul_sub]
  refine ⟨hwidened, hnarrowed, fun position hn => ?_⟩
  rcases Nat.lt_or_ge n.toNat m.toNat with hlt | hle
  · rw [hnarrowed hlt, byteAt_div value hlt.le hn, if_pos (hn.trans hlt)]
  · rw [hwidened hle, byteAt_mul value hle hn]

/-! ### Resized expressions -/

/-- The expression that a byte string is resized to. -/
def Encoding.resizedBytes (encoding : Encoding) (source target : UInt32) (e : Expr) : Expr :=
  if source = target then e
  else match e.intLit?, encoding with
  | some value, _ => encoding.convertedLiteral (resizedNumber source target value) target
  | none, .bitvector =>
    if source < target then
      .bvBinary .shl target (.extend .zero source target e) (.bvOf (target - source).toNat target)
    else .extract e (source - 1) (source - target)
  | none, _ =>
    if source < target then .binary .mul e (.int (pow2 (target - source)))
    else .binary .div e (.int (pow2 (source - target)))

theorem Session.yields_resizeBytes (s : Session) (e : Expr) (source target : UInt32) :
    s.Yields (resizeBytes e source target) (s.encoding.resizedBytes source target e) := by
  unfold resizeBytes Encoding.resizedBytes
  by_cases hsame : source = target
  · rw [if_pos hsame, if_pos hsame]
    exact .pure s e
  rw [if_neg hsame, if_neg hsame]
  by_cases hlt : source < target
  · rw [if_pos hlt]
    unfold widenBytes
    refine .withEncoding ?_
    cases hlit : e.intLit? with
    | some value =>
      simp only [resizedNumber, if_pos hlt]
      exact s.yields_convertedLiteral _ target
    | none =>
      simp only [if_pos hlt]
      cases s.encoding with
      | mathematical | modular => exact .pure s _
      | bitvector =>
        refine (s.yields_extend .zero (UInt32.le_of_lt hlt) e).bind fun s' _ => ?_
        exact .lift rfl (config_declare s' _)
  · rw [if_neg hlt]
    unfold narrowBytes
    refine .withEncoding ?_
    cases hlit : e.intLit? with
    | some value =>
      simp only [resizedNumber, if_neg hlt]
      exact s.yields_convertedLiteral _ target
    | none =>
      simp only [if_neg hlt]
      cases s.encoding <;> exact .pure s _

/-! ### Values of resized expressions -/

/-- The slice of a number that starts at a bit is the quotient by a power of two. -/
theorem extractLsb'_ofInt {source target lo : Nat} {value : Int} (hnonneg : 0 ≤ value)
    (hlt : value < 2 ^ source) :
    (BitVec.ofInt source value).extractLsb' lo target = BitVec.ofInt target (value / 2 ^ lo) := by
  obtain ⟨n, rfl⟩ := Int.eq_ofNat_of_zero_le hnonneg
  have hn : n < 2 ^ source := by exact_mod_cast hlt
  have hquotient : (n : Int) / 2 ^ lo = ((n / 2 ^ lo : Nat) : Int) := by push_cast; rfl
  apply BitVec.eq_of_toNat_eq
  rw [hquotient, BitVec.ofInt_natCast, BitVec.ofInt_natCast, BitVec.extractLsb'_toNat,
    BitVec.toNat_ofNat, BitVec.toNat_ofNat, Nat.mod_eq_of_lt hn, Nat.shiftRight_eq_div_pow]

section Values

variable {store : Store} {source target : UInt32} {e : Expr} {value : Int}

theorem eval_bvOf (store : Store) (value : Nat) (width : UInt32) :
    (Expr.bvOf value width).eval store = .ok (.ofBits (BitVec.ofNat width.toNat value)) := rfl

/-- Extended by zero bits and shifted, a number is multiplied by a power of two. -/
theorem eval_widened (hsource : 0 < source) (hle : source ≤ target)
    (h : e.eval store = .ok (.bvOf value source)) (hc : Shape.Contains ⟨source, false⟩ value) :
    (Expr.bvBinary .shl target (.extend .zero source target e)
        (.bvOf (target - source).toNat target)).eval store =
      .ok (.bvOf (value * 2 ^ (target.toNat - source.toNat)) target) := by
  have hextended := eval_extension hsource hle h hc
  rw [Value.bvOf_eq_ofBits] at hextended
  have hadded : (target - source).toNat % 2 ^ target.toNat = target.toNat - source.toNat := by
    rw [UInt32.toNat_sub_of_le _ _ hle]
    exact Nat.mod_eq_of_lt ((Nat.sub_le _ _).trans_lt Nat.lt_two_pow_self)
  refine (Expr.eval_bvBinary_of_bits hextended (eval_bvOf store _ target)).trans ?_
  rw [BvBinaryOp.smtLib, BitVec.toNat_ofNat, hadded, Value.bvOf_eq_ofBits, ofInt_mul_two_pow]

/-- The leading bits of a number are its quotient by a power of two. -/
theorem eval_narrowed (hpos : 0 < target) (hle : target ≤ source)
    (h : e.eval store = .ok (.bvOf value source)) (hc : Shape.Contains ⟨source, false⟩ value) :
    (Expr.extract e (source - 1) (source - target)).eval store =
      .ok (.bvOf (value / 2 ^ (source.toNat - target.toNat)) target) := by
  obtain ⟨hnonneg, hlt⟩ := Shape.contains_unsigned_iff.1 hc
  rw [pow2_eq] at hlt
  rw [Value.bvOf_eq_ofBits] at h ⊢
  rw [Expr.eval_extract_of_bits (sliceWidth?_leading hpos hle) h, extractLsb'_ofInt hnonneg hlt,
    UInt32.toNat_sub_of_le _ _ hle]

theorem Encoding.eval_convertedLiteral (encoding : Encoding) (store : Store) (value : Int)
    (bits : UInt32) :
    (encoding.convertedLiteral value bits).eval store = .ok (encoding.represent value bits) := by
  cases encoding with
  | mathematical | modular => rfl
  | bitvector =>
    rw [convertedLiteral, represent, Value.bvOf_eq_ofBits]
    have hmagnitude := eval_bvOf store value.natAbs bits
    by_cases hneg : value < 0
    · have hvalue : -(value.natAbs : Int) = value := by omega
      rw [if_pos hneg, Expr.eval_bvUnary_of_bits hmagnitude, BvUnaryOp.smtLib,
        ← BitVec.ofInt_natCast, ← BitVec.ofInt_neg, hvalue]
    · have hvalue : (value.natAbs : Int) = value := by omega
      rw [if_neg hneg, hmagnitude, ← BitVec.ofInt_natCast, hvalue]

theorem Encoding.eval_resizedBytes_literal (encoding : Encoding) (store : Store) (value : Int)
    (hne : source ≠ target) :
    (encoding.resizedBytes source target (.int value)).eval store =
      .ok (encoding.represent (resizedNumber source target value) target) := by
  unfold resizedBytes
  rw [if_neg hne]
  exact encoding.eval_convertedLiteral store _ target

/-- A byte string that is no literal is resized to its resized number. -/
theorem Encoding.eval_resizedBytes (encoding : Encoding) (hsource : 0 < source)
    (htarget : 0 < target) (hlit : e.intLit? = none)
    (h : e.eval store = .ok (encoding.represent value source))
    (hc : Shape.Contains ⟨source, false⟩ value) :
    (encoding.resizedBytes source target e).eval store =
      .ok (encoding.represent (resizedNumber source target value) target) := by
  unfold resizedBytes
  by_cases hsame : source = target
  · subst hsame
    rw [if_pos rfl, h, resizedNumber_self]
  rw [if_neg hsame, hlit]
  by_cases hlt : source < target
  · have hle := UInt32.le_of_lt hlt
    simp only [if_pos hlt, resizedNumber_of_le hle]
    cases encoding with
    | bitvector => exact eval_widened hsource hle h hc
    | mathematical | modular =>
      rw [← UInt32.toNat_sub_of_le _ _ hle, ← pow2_eq]
      exact Expr.eval_binary_of_int rfl h (Expr.eval_int _ _)
  · have hle := UInt32.not_lt.1 hlt
    simp only [if_neg hlt, resizedNumber_of_ge hle]
    cases encoding with
    | bitvector => exact eval_narrowed htarget hle h hc
    | mathematical | modular =>
      rw [← UInt32.toNat_sub_of_le _ _ hle, ← pow2_eq]
      exact Expr.eval_div_of_int h (Expr.eval_int _ _) (pow2_pos _).ne'

end Values

end SolidityEncoding
