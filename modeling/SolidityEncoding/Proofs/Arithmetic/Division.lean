import SolidityEncoding.Proofs.Simulation

/-!
# Division in the three encodings

Bitvectors round a quotient towards zero, and integers leave a remainder that is not negative.  The
two quotients differ by one, and the two remainders by the divisor, exactly if the dividend is
negative and no multiple of the divisor.  Neither difference is a multiple of the modulus, so the
encodings disagree there and nowhere else (`Division.encodings_agree_iff`).
-/

namespace SolidityEncoding

/-- The two results of a division. -/
inductive Division where
  | quotient
  | remainder

namespace Division

/-- The operator of the source language. -/
def source : Division → SourceBinaryOp
  | .quotient => .div
  | .remainder => .mod

/-- The result of a division with a remainder that is not negative. -/
def euclidean (op : Division) (a b : Int) : Int :=
  match op with
  | .quotient => a / b
  | .remainder => a % b

/-- The result of a division with a quotient that is rounded towards zero. -/
def truncated (op : Division) (a b : Int) : Int :=
  match op with
  | .quotient => a.tdiv b
  | .remainder => a.tmod b

/-! ### The two divisions -/

variable {a b : Int} {shape : Shape}

theorem truncated_eq_euclidean (op : Division) (h : 0 ≤ a ∨ b ∣ a) :
    op.truncated a b = op.euclidean a b := by
  cases op with
  | quotient => rw [truncated, euclidean, Int.tdiv_eq_ediv, if_pos h, Int.add_zero]
  | remainder =>
    rw [truncated, euclidean, Int.tmod_eq_emod, if_pos h, Int.natCast_zero, Int.sub_zero]

/-- Where the two divisions differ, they differ by one or by the divisor. -/
theorem abs_euclidean_sub_truncated (op : Division) (hzero : b ≠ 0) (h : ¬ (0 ≤ a ∨ b ∣ a)) :
    0 < |op.euclidean a b - op.truncated a b| ∧ |op.euclidean a b - op.truncated a b| ≤ |b| := by
  have hpos : 0 < |b| := abs_pos.2 hzero
  cases op with
  | quotient =>
    have hdiff : a / b - a.tdiv b = -b.sign := by
      rw [Int.tdiv_eq_ediv, if_neg h]
      omega
    rw [euclidean, truncated, hdiff, abs_neg, Int.abs_sign_of_ne_zero hzero]
    omega
  | remainder =>
    have hdiff : a % b - a.tmod b = b.natAbs := by
      rw [Int.tmod_eq_emod, if_neg h]
      omega
    rw [euclidean, truncated, hdiff, Int.natCast_natAbs, abs_abs]
    exact ⟨hpos, le_rfl⟩

/-- The difference is too small to be a multiple of the modulus. -/
theorem truncated_modEq_euclidean_iff (op : Division) (hbits : 0 < shape.bits)
    (hb : shape.Contains b) (hzero : b ≠ 0) :
    op.truncated a b ≡ op.euclidean a b [ZMOD pow2 shape.bits] ↔ 0 ≤ a ∨ b ∣ a := by
  constructor
  · intro hcongr
    by_contra h
    obtain ⟨hpos, hle⟩ := op.abs_euclidean_sub_truncated hzero h
    have hlt := hle.trans_lt (Shape.abs_lt_of_contains hbits hb)
    exact hpos.ne' (abs_eq_zero.2 (Int.eq_zero_of_abs_lt_dvd hcongr.dvd hlt))
  · intro h
    rw [op.truncated_eq_euclidean h]

theorem contains_euclidean (op : Division) (hunsigned : shape.signed = false)
    (ha : shape.Contains a) (hb : shape.Contains b) (hzero : b ≠ 0) :
    shape.Contains (op.euclidean a b) := by
  obtain ⟨bits, signed⟩ := shape
  obtain rfl : signed = false := hunsigned
  rw [Shape.contains_unsigned_iff] at ha hb ⊢
  cases op with
  | quotient =>
    have hnonneg : 0 ≤ a / b := Int.ediv_nonneg ha.1 hb.1
    have hle : a / b ≤ a := Int.ediv_le_self b ha.1
    exact ⟨hnonneg, hle.trans_lt ha.2⟩
  | remainder =>
    have hpos : 0 < b := lt_of_le_of_ne hb.1 hzero.symm
    exact ⟨Int.emod_nonneg a hzero, (Int.emod_lt_of_pos a hpos).trans hb.2⟩

/-! ### Encoded divisions -/

/-- The number that a division has in an encoding. -/
def number (op : Division) (encoding : Encoding) (shape : Shape) (a b : Int) : Int :=
  match encoding with
  | .mathematical => op.euclidean a b
  | .modular => shape.wrap (op.euclidean a b)
  | .bitvector => op.truncated a b

theorem number_modEq (op : Division) {encoding : Encoding} (hinteger : encoding ≠ .bitvector) :
    op.number encoding shape a b ≡ op.euclidean a b [ZMOD pow2 shape.bits] := by
  cases encoding with
  | mathematical => rfl
  | modular => exact shape.wrap_modEq _
  | bitvector => exact absurd rfl hinteger

/-- On unsigned operands the number is the same in all encodings. -/
theorem number_of_unsigned (op : Division) (encoding : Encoding) (hbits : 0 < shape.bits)
    (hunsigned : shape.signed = false) (ha : shape.Contains a) (hb : shape.Contains b)
    (hzero : b ≠ 0) : op.number encoding shape a b = op.euclidean a b := by
  cases encoding with
  | mathematical => rfl
  | modular =>
    exact ((Shape.eq_wrap_iff hbits).2 (op.contains_euclidean hunsigned ha hb hzero)).symm
  | bitvector =>
    obtain ⟨bits, signed⟩ := shape
    obtain rfl : signed = false := hunsigned
    exact op.truncated_eq_euclidean (.inl (Shape.contains_unsigned_iff.1 ha).1)

/-- An encoded division is the number that the division has in the encoding, or it is not
supported. -/
structure Yields (op : Division) (encoding : Encoding) (store : Store) (shape : Shape) (a b : Int)
    (encoded : Encoded) : Prop where
  isError_iff : encoded.isError = true ↔ op = .remainder ∧ encoding = .modular
  eval_eq : encoded.isError = false →
    encoded.value.eval store = .ok (encoding.represent (op.number encoding shape a b) shape.bits)

section Encodings

variable {s : Session} {store : Store} {lhs rhs : Expr} {node : Option NodeId}

/-- The operator on integers. -/
def arithmetic : Division → BinaryOp
  | .quotient => .div
  | .remainder => .mod

theorem eval_arithmetic (op : Division) (hl : lhs.eval store = .ok (.int a))
    (hr : rhs.eval store = .ok (.int b)) (hzero : b ≠ 0) :
    (Expr.binary op.arithmetic lhs rhs).eval store = .ok (.int (op.euclidean a b)) := by
  cases op with
  | quotient => exact Expr.eval_div_of_int hl hr hzero
  | remainder => exact Expr.eval_mod_of_int hl hr hzero

theorem yields_mathematical (op : Division) (hs : s.encoding = .mathematical)
    (hl : lhs.eval store = .ok (.int a)) (hr : rhs.eval store = .ok (.int b)) (hzero : b ≠ 0) :
    ∃ encoded s', (op.source.encode shape lhs rhs node).run s = (encoded, s') ∧
      op.Yields .mathematical store shape a b encoded := by
  have hsupported : op.source.mathematical? lhs rhs =
      some (.exact (.binary op.arithmetic lhs rhs)) := by
    cases op <;> rfl
  refine ⟨.exact (.binary op.arithmetic lhs rhs), s, ?_, ⟨nofun, nofun⟩, fun _ => ?_⟩
  · rw [SourceBinaryOp.run_encode_mathematical hs, hsupported]
    rfl
  · exact op.eval_arithmetic hl hr hzero

/-- There are no remainders in the modular encoding. -/
theorem yields_modular (op : Division) (hs : s.encoding = .modular) (hbits : 0 < shape.bits)
    (hl : lhs.eval store = .ok (.int a)) (hr : rhs.eval store = .ok (.int b))
    (ha : shape.Contains a) (hb : shape.Contains b) (hzero : b ≠ 0) :
    ∃ encoded s', (op.source.encode shape lhs rhs node).run s = (encoded, s') ∧
      op.Yields .modular store shape a b encoded := by
  cases op with
  | quotient =>
    have hwraps := Modular.div_wraps hbits hl hr ha hb hzero
    have hvalue : (Modular.div shape lhs rhs).isError = false := by
      obtain ⟨bits, _ | _⟩ := shape <;> rfl
    refine ⟨_, s, WrappedOp.div.run_encode_modular hs shape lhs rhs node, ⟨?_, nofun⟩, ?_⟩
    · intro herror
      exact absurd (hvalue.symm.trans herror) Bool.false_ne_true
    · exact fun _ => hwraps.value_eq hbits
  | remainder =>
    exact ⟨_, _, SourceBinaryOp.run_encode_modular hs, ⟨fun _ => ⟨rfl, rfl⟩, fun _ => rfl⟩, nofun⟩

theorem yields_bitvector (op : Division) (hs : s.encoding = .bitvector) (hbits : 0 < shape.bits)
    (hl : lhs.eval store = .ok (.bvOf a shape.bits))
    (hr : rhs.eval store = .ok (.bvOf b shape.bits))
    (ha : shape.Contains a) (hb : shape.Contains b) (hzero : b ≠ 0) :
    ∃ encoded s', (op.source.encode shape lhs rhs node).run s = (encoded, s') ∧
      op.Yields .bitvector store shape a b encoded := by
  have hsupported : op.source ≠ .exp := by cases op <;> nofun
  have hdefined : op.source.Defined b := by cases op <;> exact hzero
  have hmeaning : op.source.meaning shape.bits a b = .bvOf (op.truncated a b) shape.bits := by
    cases op <;> rfl
  obtain ⟨function, hfunction⟩ := SourceBinaryOp.exists_bvFunction? hsupported shape.signed
  refine ⟨_, _, SourceBinaryOp.run_encode_bitvector hfunction hs lhs rhs node, ⟨nofun, nofun⟩, ?_⟩
  intro _
  exact (SourceBinaryOp.eval_eq_meaning hfunction hbits hl hr ha hb hdefined).trans
    (congrArg Except.ok hmeaning)

theorem exists_yields (op : Division) {encoding : Encoding} (hs : s.encoding = encoding)
    (hbits : 0 < shape.bits) (hl : lhs.eval store = .ok (encoding.represent a shape.bits))
    (hr : rhs.eval store = .ok (encoding.represent b shape.bits)) (ha : shape.Contains a)
    (hb : shape.Contains b) (hzero : b ≠ 0) (node : Option NodeId) :
    ∃ encoded s', (op.source.encode shape lhs rhs node).run s = (encoded, s') ∧
      op.Yields encoding store shape a b encoded := by
  cases encoding with
  | mathematical => exact op.yields_mathematical hs hl hr hzero
  | modular => exact op.yields_modular hs hbits hl hr ha hb hzero
  | bitvector => exact op.yields_bitvector hs hbits hl hr ha hb hzero

end Encodings

/-- The three encodings divide alike exactly if the dividend is not negative or a multiple of the
divisor.  Then, and only then, the bitvector is the one of the number that another encoding has, for
quotients and for remainders; the modular encoding has no remainders.  Operands without a sign are
never negative, and on them all encodings have the same number. -/
theorem encodings_agree_iff (op : Division) (hbits : 0 < shape.bits) (ha : shape.Contains a)
    (hb : shape.Contains b) (hzero : b ≠ 0) {sessions : Encoding → Session}
    (hsessions : ∀ encoding, (sessions encoding).encoding = encoding) {stores : Encoding → Store}
    {lhs rhs : Encoding → Expr}
    (hl : ∀ encoding,
      (lhs encoding).eval (stores encoding) = .ok (encoding.represent a shape.bits))
    (hr : ∀ encoding,
      (rhs encoding).eval (stores encoding) = .ok (encoding.represent b shape.bits))
    (node : Option NodeId) :
    ∃ encoded : Encoding → Encoded,
      (∀ encoding, ∃ s', (op.source.encode shape (lhs encoding) (rhs encoding) node).run
        (sessions encoding) = (encoded encoding, s')) ∧
      (∀ encoding, (encoded encoding).isError = true ↔ op = .remainder ∧ encoding = .modular) ∧
      (∃ value, (encoded .bitvector).value.eval (stores .bitvector) = .ok value ∧
        ∀ encoding, encoding ≠ .bitvector → (encoded encoding).isError = false →
          ∃ n, (encoded encoding).value.eval (stores encoding) = .ok (.int n) ∧
            (value = .bvOf n shape.bits ↔ 0 ≤ a ∨ b ∣ a)) ∧
      (shape.signed = false → ∃ n, shape.Contains n ∧
        ∀ encoding, (encoded encoding).isError = false →
          (encoded encoding).value.eval (stores encoding) =
            .ok (encoding.represent n shape.bits)) := by
  choose encoded s' hrun hyields using fun encoding =>
    op.exists_yields (hsessions encoding) hbits (hl encoding) (hr encoding) ha hb hzero node
  have hbitvector : (encoded .bitvector).isError = false :=
    Bool.eq_false_iff.2 fun herror => nomatch ((hyields .bitvector).isError_iff.1 herror).2
  refine ⟨encoded, fun encoding => ⟨s' encoding, hrun encoding⟩,
    fun encoding => (hyields encoding).isError_iff,
    ⟨_, (hyields .bitvector).eval_eq hbitvector, ?_⟩,
    fun hunsigned => ⟨op.euclidean a b, op.contains_euclidean hunsigned ha hb hzero, ?_⟩⟩
  · intro encoding hinteger hsupported
    refine ⟨op.number encoding shape a b, ?_, ?_⟩
    · rw [(hyields encoding).eval_eq hsupported]
      cases encoding with
      | bitvector => exact absurd rfl hinteger
      | mathematical | modular => rfl
    · have hcongr : op.number encoding shape a b ≡ op.euclidean a b [ZMOD pow2 shape.bits] :=
        op.number_modEq hinteger
      rw [← op.truncated_modEq_euclidean_iff hbits hb hzero]
      refine Value.bvOf_eq_bvOf_iff.trans ⟨fun h => h.trans hcongr, fun h => h.trans hcongr.symm⟩
  · intro encoding hsupported
    rw [(hyields encoding).eval_eq hsupported,
      op.number_of_unsigned encoding hbits hunsigned ha hb hzero]

/-- With eight signed bits the quotient of `-7` by `2` is the bitvector of `-3`, and it is no
integer with this bitvector. -/
theorem encodings_agree_iff_negative_odd :
    let sessions encoding := Session.start ⟨encoding, true⟩
    let stores encoding := Table.empty.insert "x" (Encoding.represent encoding (-7) 8)
    ∃ encoded : Encoding → Encoded,
      (∀ encoding, ∃ s', (SourceBinaryOp.div.encode ⟨8, true⟩ (.ident "x")
        (Encoding.literal encoding 2 8) none).run (sessions encoding) = (encoded encoding, s')) ∧
      (encoded .bitvector).value.eval (stores .bitvector) = .ok (.bvOf (-3) 8) ∧
      ∀ encoding, encoding ≠ .bitvector → ∃ n : Int,
        (encoded encoding).value.eval (stores encoding) = .ok (.int n) ∧
          Value.bvOf (-3) 8 ≠ .bvOf n 8 := by
  intro sessions stores
  have hbits : 0 < (⟨8, true⟩ : Shape).bits := by decide
  have hsessions : ∀ encoding, (sessions encoding).encoding = encoding := fun _ => rfl
  have hl : ∀ encoding,
      (Expr.ident "x").eval (stores encoding) = .ok (encoding.represent (-7) 8) := by
    rintro (_ | _ | _) <;> rfl
  have hr : ∀ encoding, (Encoding.literal encoding 2 8).eval (stores encoding) =
      .ok (encoding.represent 2 8) :=
    fun encoding => encoding.eval_literal _ 2 8
  obtain ⟨encoded, hrun, hsupported, ⟨value, hvalue, hagrees⟩, -⟩ :=
    encodings_agree_iff .quotient hbits (by decide) (by decide) (by decide) hsessions hl hr none
  obtain ⟨s', hbitvector⟩ := hrun .bitvector
  have hquotient : encoded .bitvector =
      .exact (.bvBinary .sdiv 8 (.ident "x") (Encoding.literal .bitvector 2 8)) :=
    (congrArg Prod.fst hbitvector).symm
  obtain rfl : value = .bvOf (-3) 8 := by
    rw [hquotient] at hvalue
    exact Except.ok.inj (hvalue.symm.trans rfl)
  refine ⟨encoded, hrun, hvalue, fun encoding hinteger => ?_⟩
  have hencoded : (encoded encoding).isError = false :=
    Bool.eq_false_iff.2 fun herror => nomatch ((hsupported encoding).1 herror).1
  obtain ⟨n, heval, hiff⟩ := hagrees encoding hinteger hencoded
  exact ⟨n, heval, fun h => absurd (hiff.1 h) (by decide)⟩

end Division

end SolidityEncoding
