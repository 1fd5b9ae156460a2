import SolidityEncoding.Proofs.Simulation

/-!
# Powers of literals in the three encodings

The power of two literals is computed while it is encoded: exactly, exactly and then reduced, or
modulo a power of two on the unsigned reading of the base.  The product of so many factors stays
symbolic, and every encoding reduces it step by step.  Both are the exact power as a value of the
encoding (`SourceBinaryOp.encode_literal_power`), as reducing a factor does not change the residue
of a product.
-/

namespace SolidityEncoding

/-- An exact number as the result of an operation of an encoding: the modular encoding reduces it
into the shape. -/
def Encoding.result (encoding : Encoding) (shape : Shape) (exact : Int) : Value :=
  match encoding with
  | .mathematical => .int exact
  | .modular => .int (shape.wrap exact)
  | .bitvector => .bvOf exact shape.bits

variable {encoding : Encoding} {shape : Shape} {store : Store} {s : Session} {base : Int}
  {exponent : Nat}

theorem Encoding.result_of_contains (encoding : Encoding) (hbits : 0 < shape.bits) {value : Int}
    (h : shape.Contains value) :
    encoding.result shape value = encoding.represent value shape.bits := by
  cases encoding with
  | modular => exact congrArg Value.int ((Shape.eq_wrap_iff hbits).2 h).symm
  | mathematical | bitvector => rfl

/-! ### Products -/

/-- One factor more, whether or not the product so far has been reduced. -/
theorem WrappedOp.eval_encoded_mul (hbits : 0 < shape.bits) {lhs rhs : Expr} {product factor : Int}
    (hl : lhs.eval store = .ok (encoding.result shape product))
    (hr : rhs.eval store = .ok (encoding.represent factor shape.bits))
    (hfactor : shape.Contains factor) :
    (WrappedOp.mul.encoded encoding shape lhs rhs).value.eval store =
      .ok (encoding.result shape (product * factor)) := by
  have hreduced : shape.wrap product * factor ≡ product * factor [ZMOD pow2 shape.bits] :=
    (shape.wrap_modEq product).mul_right factor
  have hwrap : shape.Contains (shape.wrap product) := Shape.contains_wrap hbits product
  cases encoding with
  | mathematical => exact TranslatedTerm.eval_arithmetic .mul hl hr nofun
  | modular =>
    have hwraps := WrappedOp.mul.modular_wraps hbits hl hr hwrap hfactor nofun
    exact (hwraps.value_eq hbits).trans
      (congrArg (fun n => Except.ok (Value.int n)) (Shape.wrap_eq_wrap hreduced))
  | bitvector =>
    have hproduct : lhs.eval store = .ok (.bvOf (shape.wrap product) shape.bits) := by
      rw [hl, Value.bvOf_wrap]
      rfl
    exact (TranslatedTerm.eval_bvFunction .mul hbits nofun hproduct hr hwrap hfactor nofun).trans
      (congrArg Except.ok (Value.bvOf_eq_bvOf_iff.2 hreduced))

/-- The product of one and `count` factors, encoded one by one. -/
def repeatedProduct (shape : Shape) (factor : Expr) (node : Option NodeId) : Nat → Encode Expr
  | 0 => do return (← Session.getEncoding).literal 1 shape.bits
  | count + 1 => do
    let product ← repeatedProduct shape factor node count
    return (← SourceBinaryOp.mul.encode shape product factor node).value

theorem Shape.contains_one (hbits : 2 ≤ shape.bits) : shape.Contains 1 := by
  have hhalf : 2 ≤ half shape.bits := half_le_half hbits
  have hpow2 := pow2_eq_two_mul_half (UInt32.lt_of_lt_of_le (by decide) hbits)
  obtain ⟨bits, _ | _⟩ := shape
  · rw [contains_unsigned_iff]
    dsimp only at hhalf hpow2
    omega
  · rw [contains_signed_iff]
    dsimp only at hhalf
    omega

/-- The encoded product is the power of the factor. -/
theorem exists_repeatedProduct (hbits : 2 ≤ shape.bits) (s : Session) {factor : Expr}
    (hfactor : ∀ store, factor.eval store = .ok (s.encoding.represent base shape.bits))
    (hbase : shape.Contains base) (node : Option NodeId) (count : Nat) :
    ∃ product s', (repeatedProduct shape factor node count).run s = (product, s') ∧
      s'.config = s.config ∧
      ∀ store, product.eval store = .ok (s.encoding.result shape (base ^ count)) := by
  have hpos : 0 < shape.bits := UInt32.lt_of_lt_of_le (by decide) hbits
  induction count with
  | zero =>
    refine ⟨_, s, rfl, rfl, fun store => (s.encoding.eval_literal store 1 shape.bits).trans ?_⟩
    rw [pow_zero, s.encoding.result_of_contains hpos (Shape.contains_one hbits)]
  | succ count ih =>
    obtain ⟨product, s₁, hrun₁, hconfig₁, hproduct⟩ := ih
    have hencoding : s₁.encoding = s.encoding := congrArg EncodingConfig.encoding hconfig₁
    obtain ⟨s₂, hrun₂, hconfig₂⟩ :=
      (WrappedOp.mul.yields_encode s₁ shape product factor node).exists_run
    rw [hencoding] at hrun₂
    refine ⟨(WrappedOp.mul.encoded s.encoding shape product factor).value, s₂, ?_,
      hconfig₂.trans hconfig₁, fun store => ?_⟩
    · rw [repeatedProduct, StateT.run_bind, hrun₁]
      exact congrArg (fun r : Encoded × Session => (r.1.value, r.2)) hrun₂
    · rw [pow_succ]
      exact WrappedOp.eval_encoded_mul hpos (hproduct store) (hfactor store) hbase

/-! ### Powers -/

theorem literalPower?_literal (hsize : exponent < UInt32.size) :
    literalPower? (.int base) (.int exponent) = some (base ^ exponent) := by
  have hexponent : (0 : Int) ≤ exponent ∧ (exponent : Int) < UInt32.size := by omega
  rw [literalPower?, Expr.intLit?, Expr.intLit?]
  dsimp only
  rw [if_pos hexponent, Int.toNat_natCast]
  rfl

/-- The unsigned reading of the base has the same power modulo the number of words. -/
theorem Word.pow_ofInt (base : Int) (exponent : Nat) (bits : UInt32) :
    Nat.pow (Word.ofInt base bits) exponent % Word.modulus bits =
      Word.ofInt (base ^ exponent) bits := by
  have hbase : (Word.ofInt base bits : Int) ≡ base [ZMOD pow2 bits] := by
    rw [Word.natCast_ofInt]
    exact Int.mod_modEq _ _
  have hpower : (Word.ofInt base bits : Int) ^ exponent % pow2 bits = base ^ exponent % pow2 bits :=
    hbase.pow exponent
  rw [← Int.natCast_inj, Word.natCast_ofInt, ← hpower]
  norm_cast

theorem Word.ofInt_natCast {n : Nat} {bits : UInt32} (h : n < Word.modulus bits) :
    Word.ofInt n bits = n := by
  rw [← Int.natCast_inj, Word.natCast_ofInt]
  exact Int.emod_eq_of_lt (Int.natCast_nonneg n) (Int.ofNat_lt.2 h)

/-- The encoded power of literals. -/
def Encoding.power (encoding : Encoding) (shape : Shape) (exact : Int) : Encoded :=
  match encoding with
  | .mathematical => .exact (.int exact)
  | .modular => Modular.power shape exact
  | .bitvector => .exact (.bv (Word.ofInt exact shape.bits) shape.bits)

theorem Encoding.eval_power (encoding : Encoding) (store : Store) (shape : Shape) (exact : Int) :
    (encoding.power shape exact).value.eval store = .ok (encoding.result shape exact) := by
  cases encoding <;> rfl

namespace SourceBinaryOp

theorem run_encode_power (s : Session) (hsize : exponent < UInt32.size)
    (hword : exponent < Word.modulus shape.bits) (base : Int) (node : Option NodeId) :
    (exp.encode shape (s.encoding.literal base shape.bits) (s.encoding.literal exponent shape.bits)
      node).run s = (s.encoding.power shape (base ^ exponent), s) := by
  cases hs : s.encoding with
  | mathematical =>
    simp only [run_encode_mathematical hs, mathematical?, Encoding.literal,
      literalPower?_literal hsize]
    rfl
  | modular =>
    simp only [run_encode_modular hs, modular?, Encoding.literal, literalPower?_literal hsize]
    rfl
  | bitvector =>
    have hpower : literalBvPower? (.bv (Word.ofInt base shape.bits) shape.bits)
        (.bv exponent shape.bits) shape.bits =
        some (.bv (Word.ofInt (base ^ exponent) shape.bits) shape.bits) := by
      rw [literalBvPower?_bv, Word.pow_ofInt]
    simp only [encode, StateT.run_bind, Session.run_getEncoding, hs, bvFunction?,
      Encoding.literal_bitvector, Word.ofInt_natCast hword, hpower]
    rfl

/-- Raising a literal to a literal power gives the same power in every encoding, without a
diagnostic: the exact power, the power reduced into the shape with the condition that the exact one
is a number of the shape, and the bitvector of the power.  It is the value of the product of so many
factors, too. -/
theorem encode_literal_power (hbits : 2 ≤ shape.bits) (hbase : shape.Contains base)
    (hsize : exponent < UInt32.size) (hword : exponent < Word.modulus shape.bits)
    {sessions : Encoding → Session}
    (hsessions : ∀ encoding, (sessions encoding).encoding = encoding) (node : Option NodeId) :
    ∃ encoded : Encoding → Encoded,
      (∀ encoding, (exp.encode shape (encoding.literal base shape.bits)
        (encoding.literal exponent shape.bits) node).run (sessions encoding) =
          (encoded encoding, sessions encoding)) ∧
      encoded .mathematical = .exact (.int (base ^ exponent)) ∧
      (∃ reduced condition, encoded .modular = ⟨.int reduced, some condition⟩ ∧
        shape.Reduces (base ^ exponent) reduced ∧
        ∀ store, condition.eval store =
          .ok (.bool (decide (shape.Contains (base ^ exponent))))) ∧
      (∃ word : Nat, encoded .bitvector = .exact (.bv word shape.bits) ∧
        (word : Int) = base ^ exponent % 2 ^ shape.bits.toNat) ∧
      ∀ encoding, ∃ product s',
        (repeatedProduct shape (encoding.literal base shape.bits) node exponent).run
          (sessions encoding) = (product, s') ∧
        ∀ store, ∃ value, (encoded encoding).value.eval store = .ok value ∧
          product.eval store = .ok value := by
  have hpos : 0 < shape.bits := UInt32.lt_of_lt_of_le (by decide) hbits
  refine ⟨fun encoding => encoding.power shape (base ^ exponent), fun encoding => ?_, rfl, ?_, ?_,
    fun encoding => ?_⟩
  · have hrun := run_encode_power (sessions encoding) hsize hword base node
    rwa [hsessions] at hrun
  · refine ⟨_, _, rfl, Shape.reduces_wrap hpos _, fun store => ?_⟩
    have hwraps : (Modular.power shape (base ^ exponent)).Wraps store shape (base ^ exponent) :=
      Encoded.wraps_wrapping hpos (Expr.eval_int _ _) (Expr.eval_int _ _)
    obtain ⟨condition, hsome, hcondition⟩ := hwraps.condition
    obtain rfl := Option.some.inj hsome
    exact hcondition
  · refine ⟨_, rfl, ?_⟩
    rw [Word.natCast_ofInt, pow2_eq]
  · have hfactor : ∀ store, (encoding.literal base shape.bits).eval store =
        .ok ((sessions encoding).encoding.represent base shape.bits) := fun store => by
      rw [hsessions, encoding.eval_literal]
    obtain ⟨product, s', hrun, -, hproduct⟩ :=
      exists_repeatedProduct hbits (sessions encoding) hfactor hbase node exponent
    rw [hsessions] at hproduct
    exact ⟨product, s', hrun, fun store => ⟨_, encoding.eval_power store _ _, hproduct store⟩⟩

/-- With eight signed bits the third power of `-7` is out of range. -/
theorem encode_literal_power_out_of_range :
    let sessions encoding := Session.start ⟨encoding, true⟩
    ∃ encoded : Encoding → Encoded,
      (∀ encoding, (SourceBinaryOp.exp.encode ⟨8, true⟩ (Encoding.literal encoding (-7) 8)
        (Encoding.literal encoding 3 8) none).run (sessions encoding) =
          (encoded encoding, sessions encoding)) ∧
      encoded .mathematical = .exact (.int (-343)) ∧
      (∃ condition, encoded .modular = ⟨.int (-87), some condition⟩ ∧
        ∀ store, condition.eval store = .ok (.bool false)) ∧
      encoded .bitvector = .exact (.bv 169 8) ∧
      ∀ encoding, ∃ product s',
        (repeatedProduct ⟨8, true⟩ (Encoding.literal encoding (-7) 8) none 3).run
          (sessions encoding) = (product, s') ∧
        ∀ store, product.eval store = (encoded encoding).value.eval store := by
  intro sessions
  have hsessions : ∀ encoding, (sessions encoding).encoding = encoding := fun _ => rfl
  have hbase : (⟨8, true⟩ : Shape).Contains (-7) := by decide
  have hsize : 3 < UInt32.size := by decide
  obtain ⟨encoded, hrun, hmathematical, ⟨reduced, condition, hmodular, hreduces, hcondition⟩,
      ⟨word, hbitvector, hword⟩, hproducts⟩ :=
    encode_literal_power (by decide) hbase hsize (by decide) hsessions none
  refine ⟨encoded, hrun, hmathematical, ⟨condition, ?_, hcondition⟩, ?_, fun encoding => ?_⟩
  · rw [hmodular, ← hreduces.unique (-87) (by decide) (by decide)]
  · obtain rfl : word = 169 := Int.natCast_inj.1 hword
    exact hbitvector
  · obtain ⟨product, s', hproduct, hvalues⟩ := hproducts encoding
    refine ⟨product, s', hproduct, fun store => ?_⟩
    obtain ⟨value, hpower, hvalue⟩ := hvalues store
    rw [hpower, hvalue]

end SourceBinaryOp

end SolidityEncoding
