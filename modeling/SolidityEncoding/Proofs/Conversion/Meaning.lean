import SolidityEncoding.Proofs.Conversion.Bytes

/-!
# What casts mean

A cast between two types that have shapes always has a result, `Encoding.castBetween`, and at the
level of numbers it is one function (`Encoding.castNumber`): byte strings are resized, the modular
encoding reduces all other numbers into the target, and the other two encodings keep them, a
bitvector up to its residue.

* `explicitConversion_meaning`: an expression that is no literal is cast to the number that
  `castNumber` gives.
* `explicitConversion_literal_iff`: a literal is cast to an expression of the same value, with one
  exception.  Between byte strings of one size nothing is converted at all, so under the bitvector
  encoding the literal stays an integer there.
-/

namespace SolidityEncoding

/-! ### Casts between two types -/

namespace Encoding

/-- The expression that a cast between two types with shapes yields. -/
def castBetween (encoding : Encoding) (source target : SourceType)
    (sourceShape targetShape : Shape) (e : Expr) : Expr :=
  match byteStringBits? source target with
  | some (sourceBits, targetBits) => encoding.resizedBytes sourceBits targetBits e
  | none => sourceShape.castValue targetShape encoding e

/-- The number that a cast between two types makes of a number. -/
def castNumber (encoding : Encoding) (source target : SourceType) (targetShape : Shape)
    (value : Int) : Int :=
  match byteStringBits? source target with
  | some (sourceBits, targetBits) => resizedNumber sourceBits targetBits value
  | none =>
    match encoding with
    | .modular => targetShape.wrap value
    | .mathematical | .bitvector => value

end Encoding

section Casts

variable {source target : SourceType} {sourceShape targetShape : Shape}
  (hsource : source.shape? = some sourceShape) (htarget : target.shape? = some targetShape)
  (hsourceBits : 0 < sourceShape.bits) (htargetBits : 0 < targetShape.bits)

section Results

include hsource htarget htargetBits

theorem Session.yields_castBetween (s : Session) (e : Expr) :
    s.Yields (explicitConversion e (some source) (some target))
      (s.encoding.castBetween source target sourceShape targetShape e) := by
  unfold Encoding.castBetween
  rcases hbytes : byteStringBits? source target with _ | ⟨sourceBits, targetBits⟩
  · exact s.yields_explicitConversion hsource htarget hbytes htargetBits e
  · simp only [explicitConversion_of_shape htarget, castConversion, hbytes]
    exact s.yields_resizeBytes e sourceBits targetBits

end Results

namespace Encoding

variable (encoding : Encoding) {store : Store} {e : Expr} {value : Int}

include hsource htarget hsourceBits htargetBits

/-- An expression that is no literal is cast to the cast number. -/
theorem eval_castBetween (hlit : e.intLit? = none)
    (h : e.eval store = .ok (encoding.represent value sourceShape.bits))
    (hc : sourceShape.Contains value) :
    (encoding.castBetween source target sourceShape targetShape e).eval store =
      .ok (encoding.represent (encoding.castNumber source target targetShape value)
        targetShape.bits) := by
  unfold castBetween castNumber
  rcases hbytes : byteStringBits? source target with _ | ⟨sourceBits, targetBits⟩
  · cases encoding with
    | mathematical => rwa [Shape.castValue_mathematical]
    | modular => exact Shape.eval_castValue_modular htargetBits h hc
    | bitvector => exact Shape.eval_castValue_bitvector hsourceBits htargetBits h hc
  · obtain ⟨hsource', htarget'⟩ := shape?_of_byteStringBits? hbytes
    cases hsource.symm.trans hsource'
    cases htarget.symm.trans htarget'
    exact encoding.eval_resizedBytes hsourceBits htargetBits hlit h hc

omit hsourceBits htargetBits

/-- A literal is cast to the cast number, unless it stays as it is. -/
theorem eval_castBetween_literal (store : Store) (value : Int)
    (hchanges : encoding = .bitvector →
      ∀ count, source = .fixedBytes count → target ≠ .fixedBytes count) :
    (encoding.castBetween source target sourceShape targetShape (.int value)).eval store =
      .ok (encoding.represent (encoding.castNumber source target targetShape value)
        targetShape.bits) := by
  unfold castBetween castNumber
  rcases hbytes : byteStringBits? source target with _ | ⟨sourceBits, targetBits⟩
  · cases encoding with
    | modular => rfl
    | mathematical => exact eval_convertedLiteral .mathematical store value targetShape.bits
    | bitvector => exact eval_convertedLiteral .bitvector store value targetShape.bits
  obtain ⟨m, n, rfl, rfl, rfl, rfl⟩ := eq_fixedBytes_of_byteStringBits? hbytes
  cases htarget
  by_cases hsame : m.toUInt32 * 8 = n.toUInt32 * 8
  · obtain rfl := byteBits_injective hsame
    cases encoding with
    | bitvector => exact absurd rfl (hchanges rfl m rfl)
    | mathematical | modular =>
      simp only [resizedNumber_self]
      exact congrArg (Expr.eval store) (if_pos rfl)
  · exact encoding.eval_resizedBytes_literal store value hsame

end Encoding

/-! ### Meaning -/

include hsource htarget hsourceBits htargetBits

/-- Meaning of casts.  A cast of an expression that is no literal has a result, whatever the
session is.  Unless both types are byte strings, the result is the bitvector of the same residue
under the bitvector encoding, the only number of the target that is congruent under the modular
encoding, and the same number under the mathematical encoding.  Between byte strings every encoding
keeps the leading bytes and fills up with zero bytes. -/
theorem explicitConversion_meaning (s : Session) {store : Store} {e : Expr} {value : Int}
    (hlit : e.intLit? = none)
    (h : e.eval store = .ok (s.encoding.represent value sourceShape.bits))
    (hc : sourceShape.Contains value) :
    ∃ r s', (explicitConversion e (some source) (some target)).run.run s = (.ok r, s') ∧
      ((∀ m n, ¬ (source = .fixedBytes m ∧ target = .fixedBytes n)) →
        match s.encoding with
        | .bitvector => r.eval store = .ok (.bvOf value targetShape.bits)
        | .modular => ∃ reduced, r.eval store = .ok (.int reduced) ∧
          targetShape.Reduces value reduced ∧
          ((∀ name members, target ≠ .enum name members) →
            (rangeConstraint r target).eval store = .ok (.bool true))
        | .mathematical => r.eval store = .ok (.int value)) ∧
      ∀ m n, source = .fixedBytes m → target = .fixedBytes n →
        ∃ resized, r.eval store = .ok (s.encoding.represent resized targetShape.bits) ∧
          targetShape.Contains resized ∧ Resizes m.toNat n.toNat value resized := by
  obtain ⟨s', hrun, -⟩ := s.yields_castBetween hsource htarget htargetBits e
  have hvalue := s.encoding.eval_castBetween hsource htarget hsourceBits htargetBits hlit h hc
  refine ⟨_, s', hrun, fun hnumbers => ?_, ?_⟩
  · have hbytes : byteStringBits? source target = none := by
      rcases hbytes : byteStringBits? source target with _ | ⟨sourceBits, targetBits⟩
      · rfl
      · obtain ⟨m, n, hm, hn, -⟩ := eq_fixedBytes_of_byteStringBits? hbytes
        exact absurd ⟨hm, hn⟩ (hnumbers m n)
    simp only [Encoding.castNumber, hbytes] at hvalue
    generalize s.encoding.castBetween source target sourceShape targetShape e = r at hvalue
    cases hs : s.encoding with
    | mathematical | bitvector =>
      rw [hs] at hvalue
      exact hvalue
    | modular =>
      rw [hs] at hvalue
      have hreduces := Shape.reduces_wrap htargetBits value
      refine ⟨_, hvalue, hreduces, fun henum => ?_⟩
      rw [Expr.eval_rangeConstraint htarget henum hvalue, decide_eq_true hreduces.contains]
  · rintro m n rfl rfl
    cases hsource
    cases htarget
    exact ⟨_, hvalue, contains_resizedNumber hc, resizes_resizedNumber m n value⟩

end Casts

/-- The cast of `-3` from sixteen signed bits to eight unsigned ones, and four bytes cut to the
leading two. -/
theorem explicitConversion_meaning_narrowing :
    let modular := Session.start ⟨.modular, false⟩
    let bitvector := Session.start ⟨.bitvector, false⟩
    let e := Expr.ident "x"
    let number : Store := Table.empty.insert "x" (.int (-3))
    let bytes : Store := Table.empty.insert "x" (.bvOf 0x01020304 32)
    (∃ r s', (explicitConversion e (some (.int 16)) (some (.uint 8))).run.run modular =
      (.ok r, s') ∧ r.eval number = .ok (.int 253)) ∧
    ∃ r s', (explicitConversion e (some (.fixedBytes 4)) (some (.fixedBytes 2))).run.run
      bitvector = (.ok r, s') ∧
      ∃ resized, r.eval bytes = .ok (.bvOf resized 16) ∧ Resizes 4 2 0x01020304 resized := by
  intro modular bitvector e number bytes
  constructor
  · have hsource : (SourceType.int 16).shape? = some ⟨16, true⟩ := rfl
    have htarget : (SourceType.uint 8).shape? = some ⟨8, false⟩ := rfl
    have hvalue : e.eval number = .ok (modular.encoding.represent (-3) 16) := rfl
    obtain ⟨r, s', hrun, hmeaning, -⟩ := explicitConversion_meaning hsource htarget (by decide)
      (by decide) modular rfl hvalue (by decide)
    obtain ⟨reduced, heval, hreduces, -⟩ := hmeaning nofun
    have hreduced : (253 : Int) = reduced := hreduces.unique 253 (by decide) (by decide)
    exact ⟨r, s', hrun, hreduced ▸ heval⟩
  · have hsource : (SourceType.fixedBytes 4).shape? = some ⟨32, false⟩ := rfl
    have htarget : (SourceType.fixedBytes 2).shape? = some ⟨16, false⟩ := rfl
    have hvalue : e.eval bytes = .ok (bitvector.encoding.represent 0x01020304 32) := rfl
    obtain ⟨r, s', hrun, -, hbytes⟩ := explicitConversion_meaning hsource htarget (by decide)
      (by decide) bitvector rfl hvalue (by decide)
    obtain ⟨resized, heval, -, hresizes⟩ := hbytes 4 2 rfl rfl
    exact ⟨r, s', hrun, resized, heval, hresizes⟩

/-! ### Literals and variables -/

section Literals

variable {source target : SourceType} {sourceShape targetShape : Shape}
  (hsource : source.shape? = some sourceShape) (htarget : target.shape? = some targetShape)
  (hsourceBits : 0 < sourceShape.bits) (htargetBits : 0 < targetShape.bits)

include hsource htarget hsourceBits htargetBits

/-- A literal and a variable with its value are cast to expressions of one value if and only if it
is not the case that, under the bitvector encoding, both types are the same byte string type.  There
the variable has a bitvector as its value and the literal stays an integer. -/
theorem explicitConversion_literal_iff (s : Session) {store : Store} {name : String} {value : Int}
    (hc : sourceShape.Contains value)
    (hstore : store.find? name = some (s.encoding.represent value sourceShape.bits)) :
    ∃ folded symbolic s₁ s₂ number,
      (explicitConversion (.int value) (some source) (some target)).run.run s = (.ok folded, s₁) ∧
      (explicitConversion (.ident name) (some source) (some target)).run.run s =
        (.ok symbolic, s₂) ∧
      symbolic.eval store = .ok (s.encoding.represent number targetShape.bits) ∧
      (folded.eval store = symbolic.eval store ↔
        ¬ (s.encoding = .bitvector ∧
          ∃ count, source = .fixedBytes count ∧ target = .fixedBytes count)) := by
  obtain ⟨s₁, hfolded, -⟩ := s.yields_castBetween hsource htarget htargetBits (.int value)
  obtain ⟨s₂, hsymbolic, -⟩ := s.yields_castBetween hsource htarget htargetBits (.ident name)
  have hvalue := s.encoding.eval_castBetween hsource htarget hsourceBits htargetBits rfl
    (Expr.eval_ident_of_find? hstore) hc
  refine ⟨_, _, s₁, s₂, _, hfolded, hsymbolic, hvalue, ?_⟩
  rw [hvalue]
  constructor
  · rintro hagree ⟨hs, count, rfl, rfl⟩
    have hstays : s.encoding.castBetween (.fixedBytes count) (.fixedBytes count) sourceShape
        targetShape (.int value) = .int value := if_pos rfl
    rw [hstays, hs, Expr.eval_int] at hagree
    cases hagree
  · intro hchanges
    refine s.encoding.eval_castBetween_literal hsource htarget store value ?_
    rintro hs count rfl rfl
    exact hchanges ⟨hs, count, rfl, rfl⟩

end Literals

/-- The literal `-1` of 32 signed bits becomes the same bitvector of eight bits as a variable. -/
theorem explicitConversion_literal_iff_minus_one :
    let s := Session.start ⟨.bitvector, false⟩
    let store : Store := Table.empty.insert "x" (.bvOf (-1) 32)
    ∃ folded symbolic s₁ s₂,
      (explicitConversion (.int (-1)) (some (.int 32)) (some (.uint 8))).run.run s =
        (.ok folded, s₁) ∧
      (explicitConversion (.ident "x") (some (.int 32)) (some (.uint 8))).run.run s =
        (.ok symbolic, s₂) ∧
      folded.eval store = symbolic.eval store := by
  intro s store
  have hsource : (SourceType.int 32).shape? = some ⟨32, true⟩ := rfl
  have htarget : (SourceType.uint 8).shape? = some ⟨8, false⟩ := rfl
  have hstore : store.find? "x" = some (s.encoding.represent (-1) 32) := rfl
  obtain ⟨folded, symbolic, s₁, s₂, number, hfolded, hsymbolic, -, hagree⟩ :=
    explicitConversion_literal_iff hsource htarget (by decide) (by decide) s (by decide) hstore
  exact ⟨folded, symbolic, s₁, s₂, hfolded, hsymbolic, hagree.2 fun ⟨_, _, h, _⟩ => nomatch h⟩

/-- Between byte strings of one size a literal stays an integer, while a variable is a bitvector. -/
theorem explicitConversion_literal_same_bytes :
    let s := Session.start ⟨.bitvector, false⟩
    let bytes4 := some (SourceType.fixedBytes 4)
    let store : Store := Table.empty.insert "x" (.bvOf 5 32)
    (explicitConversion (.int 5) bytes4 bytes4).run.run s = (.ok (.int 5), s) ∧
      (explicitConversion (.ident "x") bytes4 bytes4).run.run s = (.ok (.ident "x"), s) ∧
      (Expr.int 5).eval store = .ok (.int 5) ∧
      (Expr.ident "x").eval store = .ok (.bvOf 5 32) ∧
      (Expr.int 5).eval store ≠ (Expr.ident "x").eval store := by
  intro s bytes4 store
  refine ⟨rfl, rfl, rfl, rfl, ?_⟩
  intro h
  cases h

end SolidityEncoding
