import SolidityEncoding.Encoding.Conversion
import SolidityEncoding.Proofs.Arithmetic.Modular

/-!
# Casts of numbers

A cast between two types that have shapes leaves an expression of the mathematical encoding as it
is, wraps one of the modular encoding into the target, and resizes one of the bitvector encoding to
the bits of the target.  In the modular and in the bitvector encoding it therefore yields the
number of the target that is congruent to the operand.  Byte strings, which are aligned to the
left, are not numbers in this sense.
-/

namespace SolidityEncoding

/-! ### Positions of bits -/

section Positions

variable {source target : UInt32}

theorem one_le_of_pos (hpos : 0 < target) : 1 ≤ target :=
  UInt32.le_iff_toNat_le.2 (toNat_pos_of_pos hpos)

theorem sub_one_lt_of_pos (hpos : 0 < target) : target - 1 < target := by
  rw [UInt32.lt_iff_toNat_lt, UInt32.toNat_sub_of_le _ _ (one_le_of_pos hpos)]
  exact Nat.sub_one_lt_of_lt (toNat_pos_of_pos hpos)

theorem sub_le_sub_one (hpos : 0 < target) (hle : target ≤ source) :
    source - target ≤ source - 1 := by
  have hone := one_le_of_pos hpos
  rw [UInt32.le_iff_toNat_le, UInt32.toNat_sub_of_le _ _ hle,
    UInt32.toNat_sub_of_le _ _ (UInt32.le_trans hone hle)]
  exact Nat.sub_le_sub_left (UInt32.le_iff_toNat_le.1 hone) _

/-- There are `target` positions from the leading one on. -/
theorem leading_count (source target : UInt32) : source - 1 - (source - target) + 1 = target := by
  grind

/-- The leading `target` bits of `source` bits are a slice of `target` bits. -/
theorem sliceWidth?_leading (hpos : 0 < target) (hle : target ≤ source) :
    Word.sliceWidth? (source - 1) (source - target) = some target := by
  have hlast := sub_one_lt_of_pos (UInt32.lt_of_lt_of_le hpos hle)
  rw [(Word.sliceWidth?_of_le_of_lt (sub_le_sub_one hpos hle) hlast).1, leading_count]

/-- The low `target` bits are a slice of `target` bits. -/
theorem sliceWidth?_trailing (hpos : 0 < target) :
    Word.sliceWidth? (target - 1) 0 = some target := by
  rw [(Word.sliceWidth?_of_le_of_lt UInt32.zero_le (sub_one_lt_of_pos hpos)).1, UInt32.sub_zero,
    UInt32.sub_add_cancel]

end Positions

/-! ### Resizing bitvectors -/

/-- The extension that keeps the numbers of a shape. -/
def Shape.extension (shape : Shape) : Extension := if shape.signed then .sign else .zero

theorem Shape.smtLib_extension (shape : Shape) (target : Nat) (x : BitVec shape.bits.toNat) :
    shape.extension.smtLib target x = BitVec.ofInt target (shape.read x) := by
  obtain ⟨bits, _ | _⟩ := shape
  · exact (BitVec.ofNat_toNat target x).symm.trans (BitVec.ofInt_natCast target x.toNat).symm
  · rfl

theorem extractLsb'_zero_ofInt {source target : Nat} (h : target ≤ source) (value : Int) :
    (BitVec.ofInt source value).extractLsb' 0 target = BitVec.ofInt target value := by
  have hpos (bits : Nat) : ((2 ^ bits : Nat) : Int) ≠ 0 :=
    Int.natCast_ne_zero.2 (Nat.two_pow_pos bits).ne'
  have hdvd : ((2 ^ target : Nat) : Int) ∣ ((2 ^ source : Nat) : Int) :=
    Int.natCast_dvd_natCast.2 (Nat.pow_dvd_pow 2 h)
  apply BitVec.eq_of_toNat_eq
  rw [BitVec.extractLsb'_toNat, Nat.shiftRight_zero, BitVec.toNat_ofInt, BitVec.toNat_ofInt]
  apply Int.ofNat_inj.1
  rw [Int.natCast_emod, Int.toNat_of_nonneg (Int.emod_nonneg _ (hpos source)),
    Int.toNat_of_nonneg (Int.emod_nonneg _ (hpos target)), Int.emod_emod_of_dvd value hdvd]

section Resizing

variable {store : Store} {shape : Shape} {target : UInt32} {e : Expr} {value : Int}

/-- An extension by the sign rule of a shape keeps the number. -/
theorem eval_extension (hbits : 0 < shape.bits) (hle : shape.bits ≤ target)
    (h : e.eval store = .ok (.bvOf value shape.bits)) (hc : shape.Contains value) :
    (Expr.extend shape.extension shape.bits target e).eval store = .ok (.bvOf value target) := by
  rw [Value.bvOf_eq_ofBits] at h ⊢
  rw [Expr.eval_extend_of_bits hle h, Shape.smtLib_extension, Shape.read_ofInt hbits hc]

/-- The low bits of a number are those of the congruent number of fewer bits. -/
theorem eval_extract_low {source : UInt32} (hpos : 0 < target) (hlt : target ≤ source)
    (h : e.eval store = .ok (.bvOf value source)) :
    (Expr.extract e (target - 1) 0).eval store = .ok (.bvOf value target) := by
  rw [Value.bvOf_eq_ofBits] at h ⊢
  rw [Expr.eval_extract_of_bits (sliceWidth?_trailing hpos) h]
  exact congrArg (Except.ok ∘ Value.ofBits)
    (extractLsb'_zero_ofInt (UInt32.le_iff_toNat_le.1 hlt) value)

end Resizing

/-! ### Numbers that need no cast -/

theorem Shape.not_needsCast_iff {source target : Shape} :
    source.needsCast target = false ↔ source.bits ≤ target.bits ∧
      (source.signed = true → target.signed = true) ∧
      (source.bits = target.bits → source.signed = target.signed) := by
  simp only [needsCast, Bool.or_eq_false_iff, Bool.and_eq_false_iff, decide_eq_false_iff_not,
    UInt32.not_lt, beq_eq_false_iff_ne, ne_comm]
  cases source.signed <;> cases target.signed <;> simp

theorem Shape.contains_of_not_needsCast {source target : Shape}
    (h : source.needsCast target = false) {value : Int} (hc : source.Contains value) :
    target.Contains value := by
  obtain ⟨hle, hsigned, heq⟩ := not_needsCast_iff.1 h
  obtain ⟨bits, signed⟩ := source
  obtain ⟨bits', signed'⟩ := target
  dsimp only at hle
  have hpow2 := pow2_le_pow2 hle
  have hhalf := half_le_half hle
  cases signed <;> cases signed'
  · rw [contains_unsigned_iff] at hc ⊢
    omega
  · have hlt : bits < bits' := UInt32.lt_of_le_of_ne hle fun h => nomatch heq h
    have hstrict := pow2_le_half hlt
    have hpos := half_pos bits'
    rw [contains_unsigned_iff] at hc
    rw [contains_signed_iff]
    omega
  · exact nomatch hsigned rfl
  · rw [contains_signed_iff] at hc ⊢
    omega

/-- A shape of at least as many bits, with a sign if the source has one. -/
structure Shape.Widens (source target : Shape) : Prop where
  bits : source.bits ≤ target.bits
  signed : source.signed = true → target.signed = true

/-! ### Results of conversions -/

theorem implicitConversion_of_shape {target : SourceType} {shape : Shape}
    (h : target.shape? = some shape) (e : Expr) (source : SourceType) :
    implicitConversion e source target = convertScalar e source target shape := by
  cases target with
  | tuple targets => cases h
  | _ => simp only [implicitConversion, h]

theorem explicitConversion_of_shape {target : SourceType} {shape : Shape}
    (h : target.shape? = some shape) (e : Expr) (source : SourceType) :
    explicitConversion e (some source) (some target) = castConversion e source target shape := by
  simp only [explicitConversion, h]

/-- The expression that an integer literal is converted to. -/
def Encoding.convertedLiteral (encoding : Encoding) (value : Int) (bits : UInt32) : Expr :=
  match encoding with
  | .bitvector =>
    if value < 0 then .bvUnary .neg bits (.bvOf value.natAbs bits) else .bvOf value.natAbs bits
  | .mathematical | .modular => .int value

theorem Session.yields_convertedLiteral (s : Session) (value : Int) (bits : UInt32) :
    s.Yields (liftM (convertedLiteral value bits)) (s.encoding.convertedLiteral value bits) := by
  cases hs : s.encoding with
  | bitvector =>
    rw [Encoding.convertedLiteral]
    by_cases hneg : value < 0
    · refine .lift ?_ (config_declare s (BvUnaryOp.neg.declaration bits))
      simp only [convertedLiteral, StateT.run_bind, run_getEncoding, hs, bvLiteral, if_pos hneg]
      rfl
    · refine .lift ?_ rfl
      simp only [convertedLiteral, StateT.run_bind, run_getEncoding, hs, bvLiteral, if_neg hneg]
      rfl
  | mathematical | modular =>
    refine .lift ?_ rfl
    simp only [convertedLiteral, StateT.run_bind, run_getEncoding, hs]
    rfl

/-- The expression that a cast of an integer literal to a shape yields. -/
def Encoding.castLiteral (encoding : Encoding) (value : Int) (target : Shape) : Expr :=
  match encoding with
  | .modular => .int (target.wrap value)
  | .mathematical | .bitvector => encoding.convertedLiteral value target.bits

/-- The expression that a cast of any other expression between two shapes yields. -/
def Shape.resize (source target : Shape) (encoding : Encoding) (e : Expr) : Expr :=
  match encoding with
  | .mathematical => e
  | .modular => if source.needsCast target then target.wrapExpr e else e
  | .bitvector =>
    if source.bits = target.bits then e
    else if source.bits < target.bits then .extend source.extension source.bits target.bits e
    else .extract e (target.bits - 1) 0

/-- The expression that an implicit conversion of any other expression between two shapes yields, if
there is one. -/
def Shape.widen (source target : Shape) (encoding : Encoding) (e : Expr) : Expr :=
  match encoding with
  | .mathematical | .modular => e
  | .bitvector =>
    if source.bits = target.bits then e else .extend source.extension source.bits target.bits e

/-- Where no cast is needed, an implicit conversion yields the same as a cast. -/
theorem Shape.widen_eq_resize {source target : Shape} (h : source.needsCast target = false)
    (encoding : Encoding) (e : Expr) :
    source.widen target encoding e = source.resize target encoding e := by
  cases encoding with
  | mathematical => rfl
  | modular => rw [widen, resize, h, if_neg Bool.false_ne_true]
  | bitvector =>
    rw [widen, resize]
    by_cases hbits : source.bits = target.bits
    · rw [if_pos hbits, if_pos hbits]
    · have hlt := UInt32.lt_of_le_of_ne (Shape.not_needsCast_iff.1 h).1 hbits
      rw [if_neg hbits, if_neg hbits, if_pos hlt]

/-- The expression that a cast of an expression between two shapes yields. -/
def Shape.castValue (source target : Shape) (encoding : Encoding) (e : Expr) : Expr :=
  match e.intLit? with
  | some value => encoding.castLiteral value target
  | none => source.resize target encoding e

theorem Shape.castValue_of_not_literal {e : Expr} (h : e.intLit? = none) (source target : Shape)
    (encoding : Encoding) :
    source.castValue target encoding e = source.resize target encoding e := by
  rw [castValue, h]

/-- Where a cast is needed and a bitvector becomes wider, it has a sign. -/
theorem Session.yields_castExpr {sourceShape targetShape : Shape}
    (hcast : sourceShape.needsCast targetShape = true) (hpos : 0 < targetShape.bits) (e : Expr)
    (s : Session) :
    s.Yields (castExpr e sourceShape targetShape)
      (sourceShape.resize targetShape s.encoding e) := by
  simp only [castExpr, Shape.resize, hcast, if_true]
  refine .withEncoding ?_
  cases s.encoding with
  | bitvector =>
    by_cases hbits : sourceShape.bits = targetShape.bits
    · simp only [if_pos hbits, if_pos hbits.symm]
      exact .pure s e
    simp only [if_neg hbits, if_neg (Ne.symm hbits)]
    by_cases hlt : sourceShape.bits < targetShape.bits
    · have hsigned : sourceShape.signed = true := by
        simp only [Shape.needsCast, Bool.or_eq_true, Bool.and_eq_true, decide_eq_true_eq,
          beq_iff_eq] at hcast
        rcases hcast with (hnarrow | hsign) | hsame
        · exact absurd hnarrow (UInt32.lt_asymm hlt)
        · exact hsign.1
        · exact absurd hsame.1.1 (Ne.symm hbits)
      have hextension : sourceShape.extension = .sign := if_pos hsigned
      simp only [if_pos hlt, hextension]
      exact s.yields_extend _ (UInt32.le_of_lt hlt) e
    · have hzero : targetShape.bits ≠ 0 := (UInt32.ne_of_lt hpos).symm
      simp only [if_neg hlt, if_neg hzero]
      exact .pure s _
  | mathematical | modular => exact .pure s _

section Scalars

variable {source target : SourceType} {sourceShape targetShape : Shape}
  (hsource : source.shape? = some sourceShape) (htarget : target.shape? = some targetShape)
  (hbytes : byteStringBits? source target = none)

include hbytes

/-- An implicit conversion of a literal to a number has a result for all types. -/
theorem Session.yields_convertScalar_literal (value : Int) (s : Session) :
    s.Yields (convertScalar (.int value) source target targetShape)
      (s.encoding.convertedLiteral value targetShape.bits) := by
  simp only [convertScalar, hbytes, Expr.intLit?]
  exact s.yields_convertedLiteral value targetShape.bits

include hsource

/-- An implicit conversion between numbers has a result where it does not narrow and drops no
sign. -/
theorem Session.yields_convertScalar (hwidens : sourceShape.Widens targetShape) {e : Expr}
    (hlit : e.intLit? = none) (s : Session) :
    s.Yields (convertScalar e source target targetShape)
      (sourceShape.widen targetShape s.encoding e) := by
  obtain ⟨hle, hsigned⟩ := hwidens
  have hkept : ¬ (sourceShape.signed = true ∧ ¬ targetShape.signed = true) :=
    fun h => h.2 (hsigned h.1)
  simp only [convertScalar, Shape.widen, hbytes, hlit, hsource]
  by_cases hsame : sourceShape = targetShape
  · have hbits : sourceShape.bits = targetShape.bits := congrArg Shape.bits hsame
    rw [if_pos hsame, if_pos hbits]
    cases s.encoding <;> exact .pure s e
  rw [if_neg hsame, if_neg (UInt32.not_lt.2 hle), if_neg hkept]
  refine .withEncoding ?_
  cases s.encoding with
  | mathematical | modular => exact .pure s e
  | bitvector =>
    by_cases hbits : sourceShape.bits = targetShape.bits
    · simp only [if_pos hbits]
      exact .pure s e
    · simp only [if_neg hbits]
      exact s.yields_extend _ hle e

/-- An implicit conversion between numbers is refused where it narrows or drops a sign. -/
theorem exists_inconsistent_of_not_widens (hwidens : ¬ sourceShape.Widens targetShape) {e : Expr}
    (hlit : e.intLit? = none) :
    ∃ cause, ∀ s : Session, (convertScalar e source target targetShape).run.run s =
      (.error (.inconsistent cause), s) := by
  have hne : sourceShape ≠ targetShape := by
    intro hsame
    exact hwidens ⟨hsame ▸ UInt32.le_rfl, fun hsigned => hsame ▸ hsigned⟩
  simp only [convertScalar, hbytes, hlit, hsource, if_neg hne]
  by_cases hnarrow : targetShape.bits < sourceShape.bits
  · rw [if_pos hnarrow]
    exact ⟨.narrowing source target, fun _ => rfl⟩
  rw [if_neg hnarrow]
  by_cases hdrop : sourceShape.signed = true ∧ ¬ targetShape.signed = true
  · rw [if_pos hdrop]
    exact ⟨.droppedSign source target, fun _ => rfl⟩
  · refine absurd ⟨UInt32.not_lt.1 hnarrow, fun hsigned => ?_⟩ hwidens
    exact Classical.byContradiction fun hunsigned => hdrop ⟨hsigned, hunsigned⟩

include htarget

/-- Every cast between numbers has a result. -/
theorem Session.yields_explicitConversion (hpos : 0 < targetShape.bits) (e : Expr) (s : Session) :
    s.Yields (explicitConversion e (some source) (some target))
      (sourceShape.castValue targetShape s.encoding e) := by
  rw [explicitConversion_of_shape htarget]
  simp only [castConversion, hbytes, hsource, implicitConversion_of_shape htarget]
  cases hlit : e.intLit? with
  | some value =>
    obtain rfl := Expr.eq_int_of_intLit? hlit
    have himplicit : s.Yields (convertScalar (.int value) source target targetShape) _ :=
      Session.yields_convertScalar_literal hbytes value s
    change s.Yields _ (s.encoding.castLiteral value targetShape)
    refine .withEncoding ?_
    cases hs : s.encoding with
    | modular => exact .pure s _
    | mathematical | bitvector => rwa [hs] at himplicit
  | none =>
    rw [Shape.castValue_of_not_literal hlit]
    cases hcast : sourceShape.needsCast targetShape with
    | true =>
      simp only [hcast, if_true]
      exact Session.yields_castExpr hcast hpos e s
    | false =>
      have hwidens : sourceShape.Widens targetShape :=
        ⟨(Shape.not_needsCast_iff.1 hcast).1, (Shape.not_needsCast_iff.1 hcast).2.1⟩
      simp only [hcast, Bool.false_eq_true, if_false]
      rw [← Shape.widen_eq_resize hcast]
      exact Session.yields_convertScalar hsource hbytes hwidens hlit s

end Scalars

/-! ### Values of casts -/

namespace Shape

variable {source target : Shape} {store : Store} {e : Expr} {value : Int}

theorem castValue_mathematical (source target : Shape) (e : Expr) :
    source.castValue target .mathematical e = e := by
  cases e <;> rfl

theorem eval_castValue_modular (hpos : 0 < target.bits) (h : e.eval store = .ok (.int value))
    (hc : source.Contains value) :
    (source.castValue target .modular e).eval store = .ok (.int (target.wrap value)) := by
  cases hlit : e.intLit? with
  | some literal =>
    obtain rfl := Expr.eq_int_of_intLit? hlit
    rw [Expr.eval_int] at h
    cases h
    exact Expr.eval_int _ _
  | none =>
    simp only [castValue_of_not_literal hlit, resize]
    by_cases hcast : source.needsCast target = true
    · rw [if_pos hcast]
      exact Modular.eval_wrapExpr target h
    · have hkept := contains_of_not_needsCast (Bool.not_eq_true _ ▸ hcast) hc
      rw [if_neg hcast, h, ← eq_wrap hpos hkept rfl]

theorem eval_castValue_bitvector (hsource : 0 < source.bits) (hpos : 0 < target.bits)
    (h : e.eval store = .ok (.bvOf value source.bits)) (hc : source.Contains value) :
    (source.castValue target .bitvector e).eval store = .ok (.bvOf value target.bits) := by
  cases hlit : e.intLit? with
  | some literal =>
    rw [Expr.eq_int_of_intLit? hlit, Expr.eval_int] at h
    cases h
  | none =>
    simp only [castValue_of_not_literal hlit, resize]
    by_cases hbits : source.bits = target.bits
    · rw [if_pos hbits, ← hbits, h]
    rw [if_neg hbits]
    by_cases hlt : source.bits < target.bits
    · rw [if_pos hlt]
      exact eval_extension hsource (UInt32.le_of_lt hlt) h hc
    · rw [if_neg hlt]
      exact eval_extract_low hpos (UInt32.not_lt.1 hlt) h

end Shape

end SolidityEncoding
