import SolidityEncoding.Proofs.Simulation

/-!
# Implicit conversions between integers

An implicit conversion between integer types is refused where it would narrow or drop a sign.  All
other pairs of types are accepted, and what results represents the number of the operand with the
bits of the target.  That number is one of the target for all accepted pairs but those that add a
sign to the same number of bits: there the upper half of the unsigned numbers is accepted as well,
although no signed number of as many bits is equal to them
(`Session.implicitConversion_keeps_iff`).
-/

namespace SolidityEncoding

/-! ### Ranges -/

/-- All accepted conversions keep the numbers in range but those that only add a sign. -/
theorem Shape.Widens.contains_iff {source target : Shape} (h : source.Widens target) {value : Int}
    (hc : source.Contains value) :
    target.Contains value ↔
      ¬ (source.bits = target.bits ∧ source.signed = false ∧ target.signed = true ∧
        half source.bits ≤ value) := by
  obtain ⟨hle, hkept⟩ := h
  obtain ⟨bits, signed⟩ := source
  obtain ⟨bits', signed'⟩ := target
  dsimp only at hle hkept ⊢
  have hpow2 := pow2_le_pow2 hle
  have hhalf := half_le_half hle
  have hpos := half_pos bits'
  cases signed <;> cases signed'
  · rw [contains_unsigned_iff] at hc ⊢
    simp only [Bool.false_eq_true, false_and, and_false, not_false_eq_true, iff_true]
    omega
  · rw [contains_unsigned_iff] at hc
    rw [contains_signed_iff]
    by_cases hbits : bits = bits'
    · subst hbits
      simp only [true_and]
      omega
    · have hstrict := pow2_le_half (UInt32.lt_of_le_of_ne hle hbits)
      simp only [hbits, false_and, not_false_eq_true, iff_true]
      omega
  · exact absurd (hkept rfl) Bool.false_ne_true
  · rw [contains_signed_iff] at hc ⊢
    simp only [Bool.true_eq_false, false_and, and_false, not_false_eq_true, iff_true]
    omega

/-! ### Accepted conversions -/

theorem Shape.eval_widen {source target : Shape} (hpos : 0 < source.bits)
    (h : source.Widens target) (encoding : Encoding) {store : Store} {e : Expr} {value : Int}
    (hvalue : e.eval store = .ok (encoding.represent value source.bits))
    (hc : source.Contains value) :
    (source.widen target encoding e).eval store =
      .ok (encoding.represent value target.bits) := by
  cases encoding with
  | mathematical | modular => exact hvalue
  | bitvector =>
    unfold widen
    by_cases hbits : source.bits = target.bits
    · rw [if_pos hbits, ← hbits, hvalue]
    · rw [if_neg hbits]
      exact eval_extension hpos h.bits hvalue hc

/-- A conversion between numbers that is not refused neither narrows nor drops a sign, and it
results in the widened expression. -/
theorem Session.widens_of_accepted (s : Session) {source target : SourceType}
    {sourceShape targetShape : Shape} (hsource : source.shape? = some sourceShape)
    (htarget : target.shape? = some targetShape) (hbytes : byteStringBits? source target = none)
    {e : Expr} (hlit : e.intLit? = none) {r : Expr} {s' : Session}
    (hrun : (implicitConversion e source target).run.run s = (.ok r, s')) :
    sourceShape.Widens targetShape ∧ r = sourceShape.widen targetShape s.encoding e ∧
      s'.config = s.config := by
  rw [implicitConversion_of_shape htarget] at hrun
  by_cases hwidens : sourceShape.Widens targetShape
  · exact ⟨hwidens, (s.yields_convertScalar hsource hbytes hwidens hlit).eq_of_run hrun⟩
  obtain ⟨cause, hrefused⟩ := exists_inconsistent_of_not_widens hsource hbytes hwidens hlit
  rw [hrefused] at hrun
  cases hrun

/-- A conversion between integer types that is not refused neither narrows nor drops a sign. -/
theorem Session.widens_of_run (s : Session) (source target : IntegerType) {e : Expr}
    (hlit : e.intLit? = none) {r : Expr} {s' : Session}
    (hrun : (implicitConversion e source.source target.source).run.run s = (.ok r, s')) :
    source.shape.Widens target.shape ∧ r = source.shape.widen target.shape s.encoding e := by
  obtain ⟨hwidens, hr, -⟩ := s.widens_of_accepted source.shape?_source target.shape?_source
    (target.byteStringBits?_source source.source) hlit hrun
  exact ⟨hwidens, hr⟩

/-! ### Kept numbers -/

/-- An expression has a number of an integer type as its value.  A bitvector reads as this number,
and an integer satisfies the constraint of the type. -/
structure IntegerType.Keeps (type : IntegerType) (encoding : Encoding) (store : Store) (e : Expr)
    (value : Int) : Prop where
  contains : type.shape.Contains value
  eval_eq : e.eval store = .ok (encoding.represent value type.shape.bits)
  reads : encoding = .bitvector → ∃ x : BitVec type.shape.bits.toNat,
    e.eval store = .ok (.ofBits x) ∧ type.shape.read x = value
  constraint : encoding ≠ .bitvector →
    (rangeConstraint e type.source).eval store = .ok (.bool true)

theorem IntegerType.source_ne_enum (type : IntegerType) (name : String) (members : List String) :
    type.source ≠ .enum name members := by
  obtain ⟨bits, _ | _, _⟩ := type <;> nofun

theorem IntegerType.keeps_of_eval (type : IntegerType) {encoding : Encoding} {store : Store}
    {e : Expr} {value : Int} (hc : type.shape.Contains value)
    (h : e.eval store = .ok (encoding.represent value type.shape.bits)) :
    type.Keeps encoding store e value where
  contains := hc
  eval_eq := h
  reads := by
    rintro rfl
    refine ⟨_, h.trans (congrArg Except.ok (Value.bvOf_eq_ofBits _ _)), ?_⟩
    exact Shape.read_ofInt type.shape_pos hc
  constraint := by
    intro hinteger
    have hint : e.eval store = .ok (.int value) := by
      cases encoding with
      | bitvector => exact absurd rfl hinteger
      | mathematical | modular => exact h
    rw [Expr.eval_rangeConstraint type.shape?_source type.source_ne_enum hint, decide_eq_true hc]

/-- Whatever an implicit conversion between integer types results in has the number of the operand
as its value, represented with the bits of the target.  It is a number of the target if and only if
it is not the case that the conversion adds a sign to the same number of bits and the number is in
the upper half of the unsigned ones. -/
theorem Session.implicitConversion_keeps_iff (s : Session) (source target : IntegerType)
    {store : Store} {e : Expr} {value : Int} (hlit : e.intLit? = none)
    (h : e.eval store = .ok (s.encoding.represent value source.shape.bits))
    (hc : source.shape.Contains value) {r : Expr} {s' : Session}
    (hrun : (implicitConversion e source.source target.source).run.run s = (.ok r, s')) :
    r.eval store = .ok (s.encoding.represent value target.shape.bits) ∧
      (target.Keeps s.encoding store r value ↔
        ¬ (source.shape.bits = target.shape.bits ∧ source.signed = false ∧
          target.signed = true ∧ half source.shape.bits ≤ value)) := by
  obtain ⟨hwidens, rfl⟩ := s.widens_of_run source target hlit hrun
  have heval := Shape.eval_widen source.shape_pos hwidens s.encoding h hc
  refine ⟨heval, ?_⟩
  refine Iff.trans ⟨fun hkeeps => hkeeps.contains, fun htarget => ?_⟩ (hwidens.contains_iff hc)
  exact target.keeps_of_eval htarget heval

/-- A number of eight signed bits is kept in sixteen of them, by an extension of the sign. -/
theorem Session.implicitConversion_keeps_iff_extension :
    let s := Session.start ⟨.bitvector, true⟩
    let byte : IntegerType := ⟨8, true, by decide⟩
    let word : IntegerType := ⟨16, true, by decide⟩
    let e := Expr.ident "x"
    let store : Store := Table.empty.insert "x" (.bvOf (-3) 8)
    ∃ r s', (implicitConversion e byte.source word.source).run.run s = (.ok r, s') ∧
      word.Keeps .bitvector store r (-3) := by
  intro s byte word e store
  have hvalue : e.eval store = .ok (s.encoding.represent (-3) byte.shape.bits) := rfl
  have hrun : (implicitConversion e byte.source word.source).run.run s =
      (.ok (.extend .sign 8 16 e), s.declare ((Extension.declaration? .sign 8 16).get rfl)) := rfl
  have hkeeps := (s.implicitConversion_keeps_iff byte word rfl hvalue (by decide) hrun).2
  exact ⟨_, _, hrun, hkeeps.2 fun h => nomatch h.2.1⟩

/-- The unsigned number 200 is accepted as a signed one of eight bits, which it is not. -/
theorem implicitConversion_adds_sign :
    let s := Session.start ⟨.modular, true⟩
    let e := Expr.ident "x"
    let store : Store := Table.empty.insert "x" (.int 200)
    (implicitConversion e (.uint 8) (.int 8)).run.run s = (.ok e, s) ∧
      e.eval store = .ok (.int 200) ∧ Shape.Contains ⟨8, false⟩ 200 ∧
      ¬ Shape.Contains ⟨8, true⟩ 200 ∧
      (rangeConstraint e (.int 8)).eval store = .ok (.bool false) := by
  intro s e store
  exact ⟨rfl, rfl, by decide, by decide, rfl⟩

end SolidityEncoding
