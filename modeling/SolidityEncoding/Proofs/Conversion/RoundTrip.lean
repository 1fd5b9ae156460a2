import SolidityEncoding.Proofs.Conversion.Implicit
import SolidityEncoding.Proofs.Conversion.Meaning

/-!
# Widening and casting back

A number that an implicit conversion takes to a type of more bits is the same number again after a
cast back (`Session.explicitConversion_undoes_widening`).  The two conversions have nothing in
common but the number in between, and that number is what the proof follows: the result of the
first stands for a number of the wide type (`Encoding.StandsFor`), and the cast back takes this
number to the one that went in.

The number in between is not always the one that went in.  Byte strings are multiplied by a power
of two, and under the bitvector encoding a negative literal of an unsigned type is its residue.
-/

namespace SolidityEncoding

/-! ### Numbers -/

/-- A byte string that is widened and narrowed again is the same. -/
theorem resizedNumber_resizedNumber {source target : UInt32} (hle : source ≤ target)
    (value : Int) : resizedNumber target source (resizedNumber source target value) = value := by
  have hpos : (0 : Int) < 2 ^ (target.toNat - source.toNat) := Int.pow_pos (by decide)
  rw [resizedNumber_of_le hle, resizedNumber_of_ge hle, Int.mul_ediv_cancel _ hpos.ne']

/-- The residue of a number at more bits is the same bitvector. -/
theorem Value.bvOf_wrap_of_le (shape : Shape) {bits : UInt32} (hle : bits ≤ shape.bits)
    (value : Int) : Value.bvOf (shape.wrap value) bits = .bvOf value bits := by
  have hdvd : pow2 bits ∣ pow2 shape.bits := by
    rw [pow2_eq, pow2_eq]
    exact pow_dvd_pow 2 (UInt32.le_iff_toNat_le.1 hle)
  exact bvOf_eq_bvOf_iff.2 ((shape.wrap_modEq value).of_dvd hdvd)

/-- A cast to a type that is no byte string keeps the numbers of this type. -/
theorem Encoding.castNumber_of_contains {source target : SourceType} {targetShape : Shape}
    (hbytes : byteStringBits? source target = none) (hpos : 0 < targetShape.bits)
    (encoding : Encoding) {value : Int} (hc : targetShape.Contains value) :
    encoding.castNumber source target targetShape value = value := by
  simp only [castNumber, hbytes]
  cases encoding with
  | mathematical | bitvector => rfl
  | modular => exact ((Shape.eq_wrap_iff hpos).2 hc).symm

/-! ### Expressions that stand for a number -/

/-- An expression stands for a number of a shape: it is the literal of the number, which is an
integer under every encoding, or its value represents the number, which then is in range. -/
inductive Encoding.StandsFor (encoding : Encoding) (store : Store) (shape : Shape) (value : Int) :
    Expr → Prop
  | literal : StandsFor encoding store shape value (.int value)
  | operand {e : Expr} (hlit : e.intLit? = none)
      (heval : e.eval store = .ok (encoding.represent value shape.bits))
      (hc : shape.Contains value) : StandsFor encoding store shape value e

namespace Encoding

variable {encoding : Encoding} {store : Store} {shape : Shape} {value : Int} {e : Expr}

theorem standsFor_of_value (hc : shape.Contains value)
    (h : e = .int value ∨ e.eval store = .ok (encoding.represent value shape.bits)) :
    encoding.StandsFor store shape value e := by
  rcases h with rfl | heval
  · exact .literal
  cases hlit : e.intLit? with
  | none => exact .operand hlit heval hc
  | some literal =>
    obtain rfl := Expr.eq_int_of_intLit? hlit
    rw [Expr.eval_int] at heval
    cases encoding with
    | bitvector => cases heval
    | mathematical | modular =>
      cases heval
      exact .literal

/-- The number that a converted literal stands for: a bitvector is its residue. -/
def literalNumber (encoding : Encoding) (shape : Shape) (value : Int) : Int :=
  match encoding with
  | .bitvector => shape.wrap value
  | .mathematical | .modular => value

theorem literalNumber_of_contains (hpos : 0 < shape.bits) (hc : shape.Contains value) :
    encoding.literalNumber shape value = value := by
  cases encoding with
  | bitvector => exact ((Shape.eq_wrap_iff hpos).2 hc).symm
  | mathematical | modular => rfl

theorem standsFor_convertedLiteral (encoding : Encoding) (store : Store) (hpos : 0 < shape.bits)
    (value : Int) :
    encoding.StandsFor store shape (encoding.literalNumber shape value)
      (encoding.convertedLiteral value shape.bits) := by
  have heval := encoding.eval_convertedLiteral store value shape.bits
  cases encoding with
  | mathematical | modular => exact .literal
  | bitvector =>
    have hlit : (convertedLiteral .bitvector value shape.bits).intLit? = none := by
      rw [convertedLiteral]
      split <;> rfl
    refine .operand hlit (heval.trans ?_) (Shape.contains_wrap hpos value)
    exact congrArg Except.ok (Value.bvOf_wrap shape value).symm

/-- A cast to another number of bits takes the number that an expression stands for to the cast
number. -/
theorem StandsFor.eval_castBetween {source target : SourceType} {targetShape : Shape}
    (hsource : source.shape? = some shape) (htarget : target.shape? = some targetShape)
    (hpos : 0 < shape.bits) (htargetPos : 0 < targetShape.bits)
    (hne : shape.bits ≠ targetShape.bits) (h : encoding.StandsFor store shape value e) :
    (encoding.castBetween source target shape targetShape e).eval store =
      .ok (encoding.represent (encoding.castNumber source target targetShape value)
        targetShape.bits) := by
  cases h with
  | operand hlit heval hc =>
    exact encoding.eval_castBetween hsource htarget hpos htargetPos hlit heval hc
  | literal =>
    refine encoding.eval_castBetween_literal hsource htarget store value ?_
    rintro - count rfl rfl
    cases hsource
    cases htarget
    exact hne rfl

end Encoding

/-! ### Widening -/

section Widening

variable {source target : UInt32} {encoding : Encoding} {store : Store} {value : Int} {e : Expr}

/-- A widened byte string stands for its resized number. -/
theorem Encoding.StandsFor.resizedBytes (hpos : 0 < source) (hlt : source < target)
    (hc : Shape.Contains ⟨source, false⟩ value)
    (h : encoding.StandsFor store ⟨source, false⟩ value e) :
    encoding.StandsFor store ⟨target, false⟩ (resizedNumber source target value)
      (encoding.resizedBytes source target e) := by
  have hne := UInt32.ne_of_lt hlt
  have htarget : 0 < target := UInt32.lt_trans hpos hlt
  have hresized : Shape.Contains ⟨target, false⟩ (resizedNumber source target value) :=
    contains_resizedNumber hc
  cases h with
  | literal =>
    have hstands : encoding.StandsFor store ⟨target, false⟩ _
        (encoding.convertedLiteral (resizedNumber source target value) target) :=
      encoding.standsFor_convertedLiteral store htarget _
    rw [Encoding.literalNumber_of_contains htarget hresized] at hstands
    unfold Encoding.resizedBytes
    rwa [if_neg hne]
  | operand hlit heval _ =>
    refine .operand ?_ (encoding.eval_resizedBytes hpos htarget hlit heval hc) hresized
    unfold Encoding.resizedBytes
    rw [if_neg hne, hlit]
    simp only [if_pos hlt]
    cases encoding <;> rfl

end Widening

/-- An expression that is widened stands for the same number. -/
theorem Shape.Widens.standsFor_widen {source target : Shape} (hwidens : source.Widens target)
    (hpos : 0 < source.bits) (hlt : source.bits < target.bits) (encoding : Encoding)
    {store : Store} {e : Expr} {value : Int} (hlit : e.intLit? = none)
    (heval : e.eval store = .ok (encoding.represent value source.bits))
    (hc : source.Contains value) :
    encoding.StandsFor store target value (source.widen target encoding e) := by
  have hne := UInt32.ne_of_lt hlt
  have htarget : target.Contains value := (hwidens.contains_iff hc).2 fun h => hne h.1
  refine .operand ?_ (Shape.eval_widen hpos hwidens encoding heval hc) htarget
  cases encoding with
  | mathematical | modular => exact hlit
  | bitvector =>
    rw [widen, if_neg hne]
    rfl

theorem byteStringBits?_eq_none_comm {source target : SourceType}
    (h : byteStringBits? source target = none) : byteStringBits? target source = none := by
  cases source with
  | fixedBytes m =>
    cases target with
    | fixedBytes n => cases h
    | _ => rfl
  | _ => cases target <;> rfl

section RoundTrip

variable {source target : SourceType} {sourceShape targetShape : Shape}
  (hsource : source.shape? = some sourceShape) (htarget : target.shape? = some targetShape)
  (hpos : 0 < sourceShape.bits) (hlt : sourceShape.bits < targetShape.bits)

include hsource htarget hpos hlt

/-- An accepted implicit conversion to more bits results in an expression that stands for some
number of the target, and the cast of this number back is the number that went in. -/
theorem Session.standsFor_of_accepted (s : Session) {store : Store} {e : Expr} {value : Int}
    (hc : sourceShape.Contains value)
    (h : s.encoding.StandsFor store sourceShape value e) {r : Expr} {s' : Session}
    (hrun : (implicitConversion e source target).run.run s = (.ok r, s')) :
    s'.config = s.config ∧ ∃ number, s.encoding.StandsFor store targetShape number r ∧
      s.encoding.represent (s.encoding.castNumber target source sourceShape number)
        sourceShape.bits = s.encoding.represent value sourceShape.bits := by
  have htargetPos : 0 < targetShape.bits := UInt32.lt_trans hpos hlt
  rcases hbytes : byteStringBits? source target with _ | ⟨sourceBits, targetBits⟩
  · have hback := byteStringBits?_eq_none_comm hbytes
    have hkept := s.encoding.castNumber_of_contains hback hpos hc
    cases h with
    | operand hlit heval _ =>
      obtain ⟨hwidens, rfl, hconfig⟩ :=
        s.widens_of_accepted hsource htarget hbytes hlit hrun
      exact ⟨hconfig, value, hwidens.standsFor_widen hpos hlt s.encoding hlit heval hc,
        by rw [hkept]⟩
    | literal =>
      rw [implicitConversion_of_shape htarget] at hrun
      obtain ⟨rfl, hconfig⟩ :=
        (Session.yields_convertScalar_literal hbytes value s).eq_of_run hrun
      refine ⟨hconfig, _, s.encoding.standsFor_convertedLiteral store htargetPos value, ?_⟩
      cases hs : s.encoding with
      | mathematical | modular =>
        rw [hs] at hkept
        rw [Encoding.literalNumber, hkept]
      | bitvector =>
        simp only [Encoding.literalNumber, Encoding.castNumber, hback]
        exact Value.bvOf_wrap_of_le targetShape (UInt32.le_of_lt hlt) value
  · obtain ⟨m, n, rfl, rfl, rfl, rfl⟩ := eq_fixedBytes_of_byteStringBits? hbytes
    cases hsource
    cases htarget
    have hnarrow := UInt32.lt_asymm hlt
    rw [implicitConversion_of_shape rfl] at hrun
    simp only [convertScalar, byteStringBits?, if_neg hnarrow] at hrun
    obtain ⟨rfl, hconfig⟩ := (s.yields_resizeBytes e _ _).eq_of_run hrun
    refine ⟨hconfig, _, h.resizedBytes hpos hlt hc, ?_⟩
    simp only [Encoding.castNumber, byteStringBits?]
    rw [resizedNumber_resizedNumber (UInt32.le_of_lt hlt)]

/-- Widening is undone by casting back.  Where an implicit conversion to a type of more bits is
accepted, the cast of its result to the type it came from has a result too, and the value of this
result represents the number that went in.  It makes no difference whether the operand is a
literal. -/
theorem Session.explicitConversion_undoes_widening (s : Session) {store : Store} {e : Expr}
    {value : Int}
    (h : e = .int value ∨ e.eval store = .ok (s.encoding.represent value sourceShape.bits))
    (hc : sourceShape.Contains value) {widened : Expr} {s' : Session}
    (hrun : (implicitConversion e source target).run.run s = (.ok widened, s')) :
    ∃ r s'', (explicitConversion widened (some target) (some source)).run.run s' = (.ok r, s'') ∧
      r.eval store = .ok (s.encoding.represent value sourceShape.bits) := by
  have htargetPos : 0 < targetShape.bits := UInt32.lt_trans hpos hlt
  obtain ⟨hconfig, number, hstands, hback⟩ := s.standsFor_of_accepted hsource htarget hpos hlt hc
    (Encoding.standsFor_of_value hc h) hrun
  have hencoding : s'.encoding = s.encoding := congrArg EncodingConfig.encoding hconfig
  obtain ⟨s'', hcast, -⟩ := s'.yields_castBetween htarget hsource hpos widened
  refine ⟨_, s'', hcast, ?_⟩
  rw [hencoding, ← hback]
  exact hstands.eval_castBetween htarget hsource htargetPos hpos (UInt32.ne_of_lt hlt).symm

end RoundTrip

/-- The literal `-1` of eight signed bits comes back from sixteen unsigned ones, where it is 65535,
and two bytes come back from four. -/
theorem Session.explicitConversion_undoes_widening_of_minus_one :
    let s := Session.start ⟨.bitvector, false⟩
    let store : Store := Table.empty.insert "x" (.bvOf 0x0102 16)
    let literal := Expr.bvUnary .neg 16 (.bvOf 1 16)
    let padded := Expr.bvBinary .shl 32 (.extend .zero 16 32 (.ident "x")) (.bvOf 16 32)
    (∃ s' r s'', (implicitConversion (.int (-1)) (.int 8) (.uint 16)).run.run s =
        (.ok literal, s') ∧
      (explicitConversion literal (some (.uint 16)) (some (.int 8))).run.run s' = (.ok r, s'') ∧
      r.eval store = .ok (.bvOf (-1) 8)) ∧
    ∃ s' r s'', (implicitConversion (.ident "x") (.fixedBytes 2) (.fixedBytes 4)).run.run s =
        (.ok padded, s') ∧
      (explicitConversion padded (some (.fixedBytes 4)) (some (.fixedBytes 2))).run.run s' =
        (.ok r, s'') ∧
      r.eval store = .ok (.bvOf 0x0102 16) := by
  intro s store literal padded
  constructor
  · have hrun : (implicitConversion (.int (-1)) (.int 8) (.uint 16)).run.run s =
        (.ok literal, s.declare (BvUnaryOp.neg.declaration 16)) := rfl
    have hliteral : Expr.int (-1) = .int (-1) ∨
        (Expr.int (-1)).eval store = .ok (s.encoding.represent (-1) 8) := .inl rfl
    obtain ⟨r, s'', hcast, hvalue⟩ := s.explicitConversion_undoes_widening rfl rfl (by decide)
      (by decide) hliteral (by decide) hrun
    exact ⟨_, r, s'', hrun, hcast, hvalue⟩
  · have hrun : (implicitConversion (.ident "x") (.fixedBytes 2) (.fixedBytes 4)).run.run s =
        (.ok padded, (s.declare ((Extension.declaration? .zero 16 32).get rfl)).declare
          (BvBinaryOp.shl.declaration 32)) := rfl
    have hbytes : Expr.ident "x" = .int 0x0102 ∨
        (Expr.ident "x").eval store = .ok (s.encoding.represent 0x0102 16) := .inr rfl
    obtain ⟨r, s'', hcast, hvalue⟩ := s.explicitConversion_undoes_widening rfl rfl (by decide)
      (by decide) hbytes (by decide) hrun
    exact ⟨_, r, s'', hrun, hcast, hvalue⟩

end SolidityEncoding
