import SolidityEncoding.Proofs.Conversion.Bytes

/-!
# The reductions of an integer agree

Literals, implicit conversions, values and wrapped integers each reduce an integer to its bits in
their own way: by a remainder that is taken twice, as the negation of a magnitude that lost its
leading bits, or by moving the upper half of the remainders below zero.  All of them give the
bitvector that is congruent to the integer (`reductions_agree`).  Its two readings are the two
wrapped integers (`Shape.read_eq_wrap`), so none of the ways loses what another one keeps.
-/

namespace SolidityEncoding

/-- What the bitvector of an integer reads as is the wrapped integer. -/
theorem Shape.read_eq_wrap {shape : Shape} (hbits : 0 < shape.bits) (value : Int) :
    shape.read (BitVec.ofInt shape.bits.toNat value) = shape.wrap value :=
  eq_wrap hbits (contains_read hbits _) (shape.read_modEq value)

theorem Word.natCast_ofInt_eq_repeatedRemainder (value : Int) (bits : UInt32) :
    (Word.ofInt value bits : Int) = repeatedRemainder value (pow2 bits) := by
  rw [Word.natCast_ofInt, repeatedRemainder_eq_emod (pow2_pos bits)]

section Readings

variable {bits : UInt32} (hbits : 0 < bits) (value : Int)

include hbits

theorem Word.natCast_ofInt_eq_wrap :
    (Word.ofInt value bits : Int) = Shape.wrap ⟨bits, false⟩ value := by
  rw [← Shape.read_eq_wrap hbits, Word.ofInt_eq]
  rfl

theorem Value.toSigned_bvOf :
    (Value.bvOf value bits).toSigned = .ok (Shape.wrap ⟨bits, true⟩ value) := by
  rw [← Shape.read_eq_wrap hbits, bvOf_eq_ofBits]
  exact congrArg Except.ok (Word.toInt_toNat (BitVec.ofInt bits.toNat value))

end Readings

/-- An implicit conversion of a literal to an integer type has a result under every encoding. -/
theorem Session.yields_implicitConversion_literal (s : Session) (value : Int) (source : SourceType)
    (type : IntegerType) :
    s.Yields (implicitConversion (.int value) source type.source)
      (s.encoding.convertedLiteral value type.shape.bits) := by
  rw [implicitConversion_of_shape type.shape?_source]
  exact s.yields_convertScalar_literal (type.byteStringBits?_source source) value

/-- All reductions of an integer give the same bitvector, for every number of bits.

These are the literal of a session of the bitvector encoding, the implicit conversion of an integer
literal from any type to an integer type of that size, the bitvector of the integer, and that of the
integer wrapped with either sign rule.  Read without a sign the bitvector is the integer wrapped
without one, which the remainder that is taken twice is as well; read as a two's complement it is
the integer wrapped with a sign.  Wrapping changes exactly the integers that are out of range. -/
theorem reductions_agree (bits : UInt16) (hbits : 0 < bits) (value : Int) (s : Session)
    (hs : s.encoding = .bitvector) (store : Store) :
    let width := bits.toUInt32
    let reduced := Value.ofBits (BitVec.ofInt width.toNat value)
    (s.encoding.literal value width).eval store = .ok reduced ∧
    (∀ source target, target = .uint bits ∨ target = .int bits →
      ∃ converted, s.Yields (implicitConversion (.int value) source target) converted ∧
        converted.eval store = .ok reduced) ∧
    Value.bvOf value width = reduced ∧
    (∀ signed, Value.bvOf (Shape.wrap ⟨width, signed⟩ value) width = reduced) ∧
    (∃ n, reduced.asBv = .ok (n, width) ∧ (n : Int) = Shape.wrap ⟨width, false⟩ value ∧
      (n : Int) = repeatedRemainder value (pow2 width)) ∧
    reduced.toSigned = .ok (Shape.wrap ⟨width, true⟩ value) ∧
    ∀ signed, Shape.wrap ⟨width, signed⟩ value = value ↔ Shape.Contains ⟨width, signed⟩ value := by
  intro width reduced
  have hwidth : 0 < width := IntegerType.shape_pos ⟨bits, false, hbits⟩
  have hbv : Value.bvOf value width = reduced := Value.bvOf_eq_ofBits value width
  have hconverted (signed : Bool) (source : SourceType) :
      ∃ converted, s.Yields (implicitConversion (.int value) source
        (IntegerType.source ⟨bits, signed, hbits⟩)) converted ∧
        converted.eval store = .ok reduced := by
    refine ⟨_, s.yields_implicitConversion_literal value source ⟨bits, signed, hbits⟩, ?_⟩
    rw [Encoding.eval_convertedLiteral, hs]
    exact congrArg Except.ok hbv
  refine ⟨?_, ?_, hbv, ?_, ?_, ?_, ?_⟩
  · rw [Encoding.eval_literal, hs]
    exact congrArg Except.ok hbv
  · rintro source target (rfl | rfl)
    · exact hconverted false source
    · exact hconverted true source
  · intro signed
    rw [Value.bvOf_wrap ⟨width, signed⟩, hbv]
  · rw [← hbv]
    exact ⟨Word.ofInt value width, rfl, Word.natCast_ofInt_eq_wrap hwidth value,
      Word.natCast_ofInt_eq_repeatedRemainder value width⟩
  · rw [← hbv]
    exact Value.toSigned_bvOf hwidth value
  · intro signed
    exact eq_comm.trans (Shape.eq_wrap_iff hwidth)

/-- The number below the least one of eight bits is the greatest one. -/
theorem reductions_agree_below_least :
    let s := Session.start ⟨.bitvector, false⟩
    (s.encoding.literal (-129) 8).eval .empty = .ok (.bv 127 8) ∧
      (∃ converted, s.Yields (implicitConversion (.int (-129)) (.int 256) (.int 8)) converted ∧
        converted.eval .empty = .ok (.bv 127 8)) ∧
      Value.bvOf (-129) 8 = .bv 127 8 ∧
      (Value.bv 127 8).toSigned = .ok (Shape.wrap ⟨8, true⟩ (-129)) := by
  intro s
  obtain ⟨hliteral, hconverted, hbv, -, -, hsigned, -⟩ :=
    reductions_agree 8 (by decide) (-129) s rfl .empty
  exact ⟨hliteral, hconverted (.int 256) (.int 8) (.inr rfl), hbv, hsigned⟩

end SolidityEncoding
