import SolidityEncoding.Proofs.Conversion.Bytes
import SolidityEncoding.Proofs.Typing.Operations

/-!
# Conversions are typed

A cast between two types that have shapes always has a result, and from a word of the source it
makes a word of the target.  An implicit conversion may be refused; what it results in has the type
that the target becomes, component by component in a tuple.  The one exception is a component that
is a tuple while its target is none: it has no shape and stays as it is.

Together with the operations of `SolidityEncoding.Proofs.Typing.Operations` these are all results
of a session (`Session.results_typed`).
-/

namespace SolidityEncoding

open Session

variable {typing : Typing} {fit : Prop}

/-! ### Words -/

theorem Encoding.encodeTy_of_shape (encoding : Encoding) {type : SourceType} {shape : Shape}
    (h : type.shape? = some shape) :
    encoding.encodeTy type = .ok (encoding.wordTy shape.bits) := by
  cases type <;> cases h <;> rfl

theorem Encoding.checks_convertedLiteral (encoding : Encoding) (value : Int) (bits : UInt32) :
    (encoding.convertedLiteral value bits).Checks typing fit (encoding.wordTy bits) := by
  cases encoding with
  | mathematical | modular => exact .int value
  | bitvector =>
    rw [convertedLiteral]
    split
    · exact .bvUnary .neg (.bvOf _)
    · exact .bvOf _

section Extracting

variable {source target : UInt32} {e : Expr}

theorem Expr.Checks.extract_leading (hpos : 0 < target) (hle : target ≤ source)
    (h : e.Checks typing fit (.bv source)) :
    (Expr.extract e (source - 1) (source - target)).Checks typing fit (.bv target) := by
  have hlast := sub_one_lt_of_pos (UInt32.lt_of_lt_of_le hpos hle)
  exact .extract (sub_le_sub_one hpos hle) hlast (leading_count source target) h

theorem Expr.Checks.extract_trailing (hpos : 0 < target) (hle : target ≤ source)
    (h : e.Checks typing fit (.bv source)) :
    (Expr.extract e (target - 1) 0).Checks typing fit (.bv target) := by
  have hlast := UInt32.lt_of_lt_of_le (sub_one_lt_of_pos hpos) hle
  exact .extract UInt32.zero_le hlast (by grind) h

end Extracting

/-! ### Byte strings -/

theorem Encoding.checks_resizedBytes (encoding : Encoding) {e : Expr} {source target : UInt32}
    (hpos : target < source → 0 < target)
    (h : e.Checks typing fit (encoding.wordTy source)) :
    (encoding.resizedBytes source target e).Checks typing fit (encoding.wordTy target) := by
  unfold resizedBytes
  by_cases hsame : source = target
  · rwa [if_pos hsame, ← hsame]
  rw [if_neg hsame]
  cases hlit : e.intLit? with
  | some value => exact encoding.checks_convertedLiteral _ target
  | none =>
    by_cases hlt : source < target
    · simp only [if_pos hlt]
      cases encoding with
      | mathematical | modular => exact .arithmetic rfl h (.int _)
      | bitvector => exact .bvBinary .shl (.extend .zero (UInt32.le_of_lt hlt) h) (.bvOf _)
    · have hgt : target < source := UInt32.lt_of_le_of_ne (UInt32.not_lt.1 hlt) (Ne.symm hsame)
      simp only [if_neg hlt]
      cases encoding with
      | mathematical | modular => exact .arithmetic rfl h (.int _)
      | bitvector => exact h.extract_leading (hpos hgt) (UInt32.le_of_lt hgt)

/-! ### Casts -/

theorem Shape.checks_wrapExpr (shape : Shape) {e : Expr} (h : e.Checks typing fit .int) :
    (shape.wrapExpr e).Checks typing fit .int := by
  have hwrapped := h.mod_pow2 shape.bits
  rw [wrapExpr]
  split
  · exact .ite (.ordering rfl hwrapped (.int _)) (.arithmetic rfl hwrapped (.int _)) hwrapped
  · exact hwrapped

theorem Shape.checks_castValue (source : Shape) {target : Shape} (encoding : Encoding) {e : Expr}
    (hpos : 0 < target.bits) (h : e.Checks typing fit (encoding.wordTy source.bits)) :
    (source.castValue target encoding e).Checks typing fit (encoding.wordTy target.bits) := by
  rw [castValue]
  split
  · next value _ =>
    cases encoding with
    | modular => exact .int _
    | mathematical => exact .int value
    | bitvector => exact Encoding.checks_convertedLiteral .bitvector value target.bits
  cases encoding with
  | mathematical => exact h
  | modular =>
    rw [resize]
    split
    · exact target.checks_wrapExpr h
    · exact h
  | bitvector =>
    rw [resize]
    split
    · next hbits => exact hbits ▸ h
    split
    · next hlt => exact .extend _ (UInt32.le_of_lt hlt) h
    · next hlt => exact h.extract_trailing hpos (UInt32.not_lt.1 hlt)

section Scalars

variable {source target : SourceType} {sourceShape targetShape : Shape}
  (hsource : source.shape? = some sourceShape) (htarget : target.shape? = some targetShape)

include hsource htarget

/-- A cast between types with shapes always has a result, whatever the expression is. -/
theorem typed_explicitConversion (s : Session) (e : Expr) (hpos : 0 < targetShape.bits) :
    ∃ r, s.Yields (explicitConversion e (some source) (some target)) r ∧
      (e.Checks typing fit (s.encoding.wordTy sourceShape.bits) →
        r.Checks typing fit (s.encoding.wordTy targetShape.bits)) := by
  rcases hbytes : byteStringBits? source target with _ | ⟨sourceBits, targetBits⟩
  · exact ⟨_, s.yields_explicitConversion hsource htarget hbytes hpos e,
      sourceShape.checks_castValue s.encoding hpos⟩
  · obtain ⟨hsource', htarget'⟩ := shape?_of_byteStringBits? hbytes
    cases hsource.symm.trans hsource'
    cases htarget.symm.trans htarget'
    simp only [explicitConversion_of_shape htarget, castConversion, hbytes]
    exact ⟨_, s.yields_resizeBytes e _ _, s.encoding.checks_resizedBytes fun _ => hpos⟩

/-- Where no cast is needed, whatever an implicit conversion results in is a word of the target. -/
theorem ensures_convertScalar (encoding : Encoding) {e : Expr}
    (h : e.Checks typing fit (encoding.wordTy sourceShape.bits)) :
    Ensures encoding (convertScalar e source target targetShape)
      (·.Checks typing fit (encoding.wordTy targetShape.bits)) := by
  rcases hbytes : byteStringBits? source target with _ | ⟨sourceBits, targetBits⟩
  · cases hlit : e.intLit? with
    | some value =>
      simp only [convertScalar, hbytes, hlit]
      refine .of_yields fun s hs => ⟨_, s.yields_convertedLiteral value targetShape.bits, ?_⟩
      rw [hs]
      exact encoding.checks_convertedLiteral value targetShape.bits
    | none =>
      simp only [convertScalar, hbytes, hlit, hsource]
      refine .ite (fun hsame => .pure (hsame ▸ h)) fun _ => ?_
      refine .ite (fun _ => .refused _ _) fun hwidens => ?_
      refine .ite (fun _ => .refused _ _) fun _ => ?_
      refine .withEncoding ?_
      cases encoding with
      | mathematical | modular => exact .pure h
      | bitvector =>
        refine .ite (fun hbits => .pure (hbits ▸ h)) fun _ => ?_
        have hle := UInt32.not_lt.1 hwidens
        exact .of_yields fun s _ => ⟨_, s.yields_extend _ hle e, .extend _ hle h⟩
  · obtain ⟨hsource', htarget'⟩ := shape?_of_byteStringBits? hbytes
    cases hsource.symm.trans hsource'
    cases htarget.symm.trans htarget'
    simp only [convertScalar, hbytes]
    refine .ite (fun _ => .refused _ _) fun hwidens => ?_
    refine .of_yields fun s hs => ⟨_, s.yields_resizeBytes e _ _, ?_⟩
    rw [hs]
    exact encoding.checks_resizedBytes (absurd · hwidens) h

end Scalars

/-! ### Tuples -/

namespace SourceType

mutual

/-- No component of a tuple is missing. -/
def isComplete : SourceType → Bool
  | .tuple components => allComplete components
  | _ => true

/-- No component of a list is missing. -/
def allComplete : List (Option SourceType) → Bool
  | [] => true
  | none :: _ => false
  | some type :: rest => type.isComplete && allComplete rest

end

mutual

/-- Wherever the source has a tuple, the target has a tuple too. -/
def keepsTuples (source : SourceType) : SourceType → Bool
  | .tuple targets =>
    match source with
    | .tuple sources => allKeepTuples sources targets
    | _ => true
  | _ => !source.isTuple

/-- Wherever one of the sources has a tuple, its target has a tuple too. -/
def allKeepTuples (sources : List (Option SourceType)) : List (Option SourceType) → Bool
  | [] => true
  | none :: targets => allKeepTuples sources.tail targets
  | some target :: targets =>
    match sources with
    | some source :: sources => source.keepsTuples target && allKeepTuples sources targets
    | _ => allKeepTuples sources.tail targets

end

end SourceType

/-- The expression has the components that the tuple types ask for. -/
theorem tupleParts_eq_ok {e : Expr} {source target : SourceType} {arity : Nat}
    {elements : List Expr} {sources : List (Option SourceType)}
    (h : tupleParts e source target arity = .ok (elements, sources)) :
    e = .tuple elements ∧ source = .tuple sources ∧ elements.length = arity ∧
      sources.length = arity := by
  cases source with
  | tuple sources' =>
    simp only [tupleParts] at h
    split at h
    · next hsources =>
      cases e with
      | tuple elements' =>
        simp only at h
        split at h
        · next helements =>
          cases h
          exact ⟨rfl, rfl, helements, hsources⟩
        · cases h
      | _ => cases h
    · cases h
  | _ => cases h

theorem Session.Ensures.of_except {α β : Type} {encoding : Encoding} {Q : β → Prop}
    {result : Except EncodingError α} {next : α → Convert β}
    (h : ∀ a, result = .ok a → Ensures encoding (next a) Q) :
    Ensures encoding (liftM result >>= next) Q := by
  cases result with
  | error error => exact .refused error next
  | ok a => exact h a rfl

theorem SourceType.exists_shape {type : SourceType} (hbits : type.isBitPrecise)
    (htuple : type.isTuple = false) : ∃ shape, type.shape? = some shape := by
  rw [← Option.isSome_iff_exists, isSome_shape?_iff, hbits, htuple]
  rfl

theorem SourceType.keepsTuples_of_not_tuple {source target : SourceType}
    (h : target.isTuple = false) : source.keepsTuples target = !source.isTuple := by
  cases target <;> try rfl
  cases h

theorem ensures_implicitConversion_scalar (encoding : Encoding) {target : SourceType}
    (htuple : target.isTuple = false) (htarget : target.isBitPrecise) (source : SourceType)
    (e : Expr) (ty : Ty) (hsource : source.isBitPrecise) (hkeeps : source.keepsTuples target)
    (hty : encoding.encodeTy source = .ok ty) (h : e.Checks typing fit ty) :
    Ensures encoding (implicitConversion e source target) fun r =>
      ∃ ty', encoding.encodeTy target = .ok ty' ∧ r.Checks typing fit ty' := by
  have hscalar : source.isTuple = false := by
    rwa [SourceType.keepsTuples_of_not_tuple htuple, Bool.not_eq_true'] at hkeeps
  obtain ⟨sourceShape, hsourceShape⟩ := SourceType.exists_shape hsource hscalar
  obtain ⟨targetShape, htargetShape⟩ := SourceType.exists_shape htarget htuple
  rw [encoding.encodeTy_of_shape hsourceShape] at hty
  cases hty
  simp only [encoding.encodeTy_of_shape htargetShape, implicitConversion_of_shape htargetShape,
    Except.ok.injEq, exists_eq_left']
  exact ensures_convertScalar hsourceShape htargetShape encoding h

mutual

/-- Whatever an implicit conversion results in has the type that the target becomes. -/
theorem ensures_implicitConversion (encoding : Encoding) :
    ∀ (target : SourceType), target.isBitPrecise → target.isComplete →
      ∀ (source : SourceType) (e : Expr) (ty : Ty), source.isBitPrecise →
        source.keepsTuples target → encoding.encodeTy source = .ok ty → e.Checks typing fit ty →
        Ensures encoding (implicitConversion e source target) fun r =>
          ∃ ty', encoding.encodeTy target = .ok ty' ∧ r.Checks typing fit ty'
  | .tuple targets => by
    intro htarget hcomplete source e ty hsource hkeeps hty h
    rw [implicitConversion]
    refine .of_except fun (elements, sources) hparts => ?_
    obtain ⟨rfl, rfl, helements, hsources⟩ := tupleParts_eq_ok hparts
    rw [Encoding.encodeTy] at hty
    obtain ⟨tys, htys, hty⟩ := bind_eq_ok_iff.1 hty
    cases hty
    obtain ⟨_, htuple, helems⟩ := h.exists_tuple
    cases htuple
    have hcomponents := ensures_convertComponents encoding targets htarget hcomplete sources
      elements tys helements hsources hsource hkeeps htys helems
    refine hcomponents.bind fun results hresults => .pure ?_
    obtain ⟨tys', htys', hresults⟩ := hresults
    refine ⟨.tuple tys', ?_, .tuple hresults⟩
    rw [Encoding.encodeTy, htys']
    rfl
  | .uint _ | .int _ | .fixedBytes _ | .enum _ _ => fun htarget _ =>
    ensures_implicitConversion_scalar encoding rfl htarget
  | .bool | .address | .bytes | .string | .array _ _ | .mapping _ _ | .contract _ =>
    fun htarget => absurd htarget Bool.false_ne_true

/-- Component by component. -/
theorem ensures_convertComponents (encoding : Encoding) :
    ∀ (targets : List (Option SourceType)), SourceType.allBitPrecise targets →
      SourceType.allComplete targets →
      ∀ (sources : List (Option SourceType)) (elements : List Expr) (tys : List Ty),
        elements.length = targets.length → sources.length = targets.length →
        SourceType.allBitPrecise sources → SourceType.allKeepTuples sources targets →
        encoding.encodeTys sources = .ok tys → Expr.AllCheck typing fit elements tys →
        Ensures encoding (convertComponents elements sources targets) fun results =>
          ∃ tys', encoding.encodeTys targets = .ok tys' ∧ Expr.AllCheck typing fit results tys'
  | [] => by
    intros
    rw [convertComponents]
    exact .pure ⟨[], rfl, .nil⟩
  | none :: _ => fun _ hcomplete => absurd hcomplete Bool.false_ne_true
  | some target :: targets => by
    intro htargets hcomplete sources elements tys helements hsources hbits hkeeps htys helems
    rw [SourceType.allBitPrecise, Bool.and_eq_true] at htargets
    rw [SourceType.allComplete, Bool.and_eq_true] at hcomplete
    obtain ⟨e, elements, rfl⟩ := List.exists_cons_of_length_eq_add_one helements
    obtain ⟨source?, sources, rfl⟩ := List.exists_cons_of_length_eq_add_one hsources
    cases source? with
    | none => cases htys
    | some source =>
      rw [SourceType.allBitPrecise, Bool.and_eq_true] at hbits
      rw [SourceType.allKeepTuples, Bool.and_eq_true] at hkeeps
      rw [Encoding.encodeTys] at htys
      simp only [bind_eq_ok_iff] at htys
      obtain ⟨ty, hty, rest, hrest, h⟩ := htys
      cases h
      obtain ⟨_, _, h, he, helems⟩ := helems.exists_cons
      cases h
      have hfirst := ensures_implicitConversion encoding target htargets.1 hcomplete.1 source e ty
        hbits.1 hkeeps.1 hty he
      have hothers := ensures_convertComponents encoding targets htargets.2 hcomplete.2 sources
        elements rest (Nat.succ.inj helements) (Nat.succ.inj hsources) hbits.2 hkeeps.2 hrest helems
      rw [convertComponents]
      refine hfirst.bind fun converted hconverted => hothers.bind fun results hresults => .pure ?_
      obtain ⟨ty', hty', hconverted⟩ := hconverted
      obtain ⟨tys', htys', hresults⟩ := hresults
      refine ⟨ty' :: tys', ?_, .cons hconverted hresults⟩
      rw [Encoding.encodeTys, hty', htys']
      rfl

end

/-! ### All results of a session -/

/-- Whatever a session encodes is typed: values of operations on words, unless they are the error
placeholder, their conditions, results of implicit conversions in which no tuple meets a scalar
target, and results of casts between types with shapes, which are never refused.  Bitvector literals
that fit their widths go on to do so. -/
theorem Session.results_typed (s : Session) (typing : Typing) :
    (∀ (op : SourceBinaryOp) (shape : Shape) (lhs rhs : Expr) (node : Option NodeId),
      lhs.infer typing = .ok (s.encoding.wordTy shape.bits) →
      rhs.infer typing = .ok (s.encoding.wordTy shape.bits) →
      ∃ encoded s', (op.encode shape lhs rhs node).run s = (encoded, s') ∧
        encoded.Typed typing (lhs.LiteralsFit ∧ rhs.LiteralsFit)
          (op.valueTy (s.encoding.wordTy shape.bits))) ∧
    (∀ (op : SourceUnaryOp) (shape : Shape) (operand : Expr) (node : Option NodeId),
      operand.infer typing = .ok (s.encoding.wordTy shape.bits) →
      ∃ encoded s', (op.encode shape operand node).run s = (encoded, s') ∧
        encoded.Typed typing operand.LiteralsFit (s.encoding.wordTy shape.bits)) ∧
    (∀ (source target : SourceType) (e r : Expr) (ty : Ty) (s' : Session),
      source.isBitPrecise → target.isBitPrecise → target.isComplete → source.keepsTuples target →
      s.encoding.encodeTy source = .ok ty → e.infer typing = .ok ty →
      (implicitConversion e source target).run.run s = (.ok r, s') →
      ∃ ty', s.encoding.encodeTy target = .ok ty' ∧ r.infer typing = .ok ty' ∧
        (e.LiteralsFit → r.LiteralsFit)) ∧
    (∀ (source target : SourceType) (sourceShape targetShape : Shape) (e : Expr),
      source.shape? = some sourceShape → target.shape? = some targetShape → 0 < targetShape.bits →
      ∃ r s', (explicitConversion e (some source) (some target)).run.run s = (.ok r, s') ∧
        ∀ ty, s.encoding.encodeTy source = .ok ty → e.infer typing = .ok ty →
          ∃ ty', s.encoding.encodeTy target = .ok ty' ∧ r.infer typing = .ok ty' ∧
            (e.LiteralsFit → r.LiteralsFit)) := by
  refine ⟨?_, ?_, ?_, ?_⟩
  · intro op shape lhs rhs node hl hr
    exact op.typed_encode s shape node ⟨hl, And.left⟩ ⟨hr, And.right⟩
  · intro op shape operand node h
    exact op.typed_encode s shape node ⟨h, id⟩
  · intro source target e r ty s' hsource htarget hcomplete hkeeps hty h hrun
    have he : e.Checks typing e.LiteralsFit ty := ⟨h, id⟩
    have hensures := ensures_implicitConversion s.encoding target htarget hcomplete source e ty
      hsource hkeeps hty he
    obtain ⟨⟨ty', hty', hr⟩, -⟩ := hensures s rfl r s' hrun
    exact ⟨ty', hty', hr.infer, hr.literals⟩
  · intro source target sourceShape targetShape e hsource htarget hpos
    obtain ⟨r, ⟨s', hrun, -⟩, hr⟩ :=
      @typed_explicitConversion typing e.LiteralsFit _ _ _ _ hsource htarget s e hpos
    refine ⟨r, s', hrun, ?_⟩
    intro ty hty h
    rw [s.encoding.encodeTy_of_shape hsource] at hty
    cases hty
    have hr := hr ⟨h, id⟩
    exact ⟨_, s.encoding.encodeTy_of_shape htarget, hr.infer, hr.literals⟩

/-- Bitvectors of a session: a sum, a negation, a tuple that gets wider and a number that is
truncated. -/
theorem Session.results_typed_bitvector :
    let s := Session.start ⟨.bitvector, false⟩
    let typing : Typing := Table.empty.insert "x" (.bv 8)
    let source := SourceType.tuple [some (.int 8), some (.tuple [some (.fixedBytes 1)])]
    let target := SourceType.tuple [some (.int 16), some (.tuple [some (.fixedBytes 4)])]
    let e := Expr.tuple [.ident "x", .tuple [.bv 200 8]]
    let widened := Expr.tuple [.extend .sign 8 16 (.ident "x"),
      .tuple [.bvBinary .shl 32 (.extend .zero 8 32 (.bv 200 8)) (.bv 24 32)]]
    (∃ encoded s', (SourceBinaryOp.add.encode ⟨8, true⟩ (.ident "x") (.bv 200 8) none).run s =
        (encoded, s') ∧
      encoded.Typed typing ((Expr.ident "x").LiteralsFit ∧ (Expr.bv 200 8).LiteralsFit) (.bv 8)) ∧
    (∃ encoded s', (SourceUnaryOp.neg.encode ⟨8, true⟩ (.ident "x") none).run s = (encoded, s') ∧
      encoded.Typed typing (Expr.ident "x").LiteralsFit (.bv 8)) ∧
    (∃ s', (implicitConversion e source target).run.run s = (.ok widened, s') ∧
      ∃ ty, s.encoding.encodeTy target = .ok ty ∧ widened.infer typing = .ok ty ∧
        (e.LiteralsFit → widened.LiteralsFit)) ∧
    (∃ r s', (explicitConversion (.ident "x") (some (.uint 8)) (some (.int 4))).run.run s =
        (.ok r, s') ∧
      ∀ ty, s.encoding.encodeTy (.uint 8) = .ok ty → (Expr.ident "x").infer typing = .ok ty →
        ∃ ty', s.encoding.encodeTy (.int 4) = .ok ty' ∧ r.infer typing = .ok ty' ∧
          ((Expr.ident "x").LiteralsFit → r.LiteralsFit)) := by
  intro s typing source target e widened
  obtain ⟨hbinary, hunary, himplicit, hexplicit⟩ := Session.results_typed s typing
  refine ⟨?_, ?_, ?_, ?_⟩
  · exact hbinary .add ⟨8, true⟩ (.ident "x") (.bv 200 8) none rfl rfl
  · exact hunary .neg ⟨8, true⟩ (.ident "x") none rfl
  · refine ⟨_, rfl, ?_⟩
    exact himplicit source target e widened (.tuple [.bv 8, .tuple [.bv 8]]) _ rfl rfl rfl rfl rfl
      rfl rfl
  · exact hexplicit (.uint 8) (.int 4) ⟨8, false⟩ ⟨4, true⟩ (.ident "x") rfl rfl (by decide)

/-- A tuple stays as it is where its target is no tuple, so that its type is not the type that the
target becomes. -/
theorem implicitConversion_tuple_to_scalar :
    let s := Session.start ⟨.mathematical, false⟩
    let typing : Typing := Table.empty.insert "x" .int
    let source := SourceType.tuple [some (.tuple [some (.uint 8)])]
    let target := SourceType.tuple [some (.uint 8)]
    let e := Expr.tuple [.tuple [.ident "x"]]
    source.isBitPrecise ∧ source.isComplete ∧ target.isBitPrecise ∧ target.isComplete ∧
      s.encoding.encodeTy source = .ok (.tuple [.tuple [.int]]) ∧
      e.infer typing = .ok (.tuple [.tuple [.int]]) ∧
      (implicitConversion e source target).run.run s = (.ok e, s) ∧
      s.encoding.encodeTy target = .ok (.tuple [.int]) ∧
      e.infer typing ≠ .ok (.tuple [.int]) := by
  intro s typing source target e
  refine ⟨rfl, rfl, rfl, rfl, rfl, rfl, rfl, rfl, ?_⟩
  intro h
  cases h

end SolidityEncoding
