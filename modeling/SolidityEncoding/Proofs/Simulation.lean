import SolidityEncoding.Proofs.Arithmetic.Bitvector
import SolidityEncoding.Proofs.Conversion.Cast

/-!
# The three encodings agree

A source term over integer variables is translated from its leaves up, in a session of each
encoding.  Its modular and its bitvector translation compute the same number, and where no modular
operation and no cast leaves its range, the mathematical translation computes it as well
(`SourceTerm.translate_simulates`).

The proof has one step for each kind of term.  What the steps carry along is that the modular value
is a number of the type of the term: sums and differences are brought back by one modulus only, so
without it they would not be.
-/

namespace SolidityEncoding

/-! ### Terms -/

/-- A type of integers, of at least one bit. -/
structure IntegerType where
  bits : UInt16
  signed : Bool
  pos : 0 < bits

namespace IntegerType

/-- The type in the source language. -/
def source (type : IntegerType) : SourceType :=
  if type.signed then .int type.bits else .uint type.bits

/-- The shape of the numbers of the type. -/
def shape (type : IntegerType) : Shape := ⟨type.bits.toUInt32, type.signed⟩

theorem shape?_source (type : IntegerType) : type.source.shape? = some type.shape := by
  obtain ⟨bits, _ | _, _⟩ := type <;> rfl

theorem shape_pos (type : IntegerType) : 0 < type.shape.bits := by
  rw [UInt32.lt_iff_toNat_lt]
  exact (UInt16.lt_iff_toNat_lt.1 type.pos).trans_eq (UInt16.toNat_toUInt32 _).symm

/-- An integer is no byte string. -/
theorem byteStringBits?_source (source : SourceType) (target : IntegerType) :
    byteStringBits? source target.source = none := by
  obtain ⟨bits, _ | _, _⟩ := target <;> cases source <;> rfl

end IntegerType

/-- Terms of a type over the variables of a scope.  Both operands of an operator have the type of
the result, and quotients are of unsigned operands. -/
inductive SourceTerm (scope : String → Option IntegerType) : IntegerType → Type where
  | var {type : IntegerType} (name : String) (h : scope name = some type) : SourceTerm scope type
  | literal {type : IntegerType} (value : Int) (h : type.shape.Contains value) :
    SourceTerm scope type
  | binary {type : IntegerType} (op : WrappedOp) (h : op = .div → type.signed = false)
    (lhs rhs : SourceTerm scope type) (node : Option NodeId) : SourceTerm scope type
  | neg {type : IntegerType} (operand : SourceTerm scope type) (node : Option NodeId) :
    SourceTerm scope type
  | cast (source target : IntegerType) (operand : SourceTerm scope source) :
    SourceTerm scope target

/-- What the translation of a term yields: its value, and all conditions, divisors and operands of
casts (with the shape they are cast to) that came up on the way. -/
structure TranslatedTerm where
  value : Expr
  conditions : List Expr
  divisors : List Expr
  casts : List (Expr × Shape)

namespace TranslatedTerm

/-- The translation of a term without parts. -/
def leaf (value : Expr) : TranslatedTerm := ⟨value, [], [], []⟩

/-- The translation of an operation on two translated operands. -/
def binary (op : WrappedOp) (lhs rhs : TranslatedTerm) (encoded : Encoded) : TranslatedTerm where
  value := encoded.value
  conditions := lhs.conditions ++ rhs.conditions ++ encoded.condition.toList
  divisors := lhs.divisors ++ rhs.divisors ++ if op = .div then [rhs.value] else []
  casts := lhs.casts ++ rhs.casts

/-- The translation of an operation on one translated operand. -/
def unary (operand : TranslatedTerm) (encoded : Encoded) : TranslatedTerm :=
  { operand with
    value := encoded.value
    conditions := operand.conditions ++ encoded.condition.toList }

/-- The translation of a cast of a translated operand. -/
def cast (operand : TranslatedTerm) (target : Shape) (value : Expr) : TranslatedTerm :=
  { operand with
    value := value
    casts := operand.casts ++ [(operand.value, target)] }

end TranslatedTerm

namespace SourceTerm

variable {scope : String → Option IntegerType}

/-- Translates a term from its leaves up. -/
def translate {type : IntegerType} : SourceTerm scope type → Convert TranslatedTerm
  | .var name _ => return .leaf (.ident name)
  | .literal value _ => do
    return .leaf ((← Session.getEncoding).literal value type.shape.bits)
  | .binary op _ lhs rhs node => do
    let lhs ← lhs.translate
    let rhs ← rhs.translate
    return lhs.binary op rhs (← op.source.encode type.shape lhs.value rhs.value node)
  | .neg operand node => do
    let operand ← operand.translate
    return operand.unary (← SourceUnaryOp.neg.encode type.shape operand.value node)
  | .cast source target operand => do
    let operand ← operand.translate
    return operand.cast target.shape
      (← explicitConversion operand.value (some source.source) (some target.source))

end SourceTerm

/-! ### Results of translations

What a translation yields depends on the session only through its encoding. -/

namespace WrappedOp

/-- The operator of the mathematical encoding. -/
def arithmetic : WrappedOp → BinaryOp
  | .add => .add
  | .sub => .sub
  | .mul => .mul
  | .div => .div

/-- The function of the bitvector encoding. -/
def bvFunction (op : WrappedOp) (signed : Bool) : BvBinaryOp :=
  match op with
  | .add => .add
  | .sub => .sub
  | .mul => .mul
  | .div => if signed then .sdiv else .udiv

/-- The encoded operation. -/
def encoded (op : WrappedOp) (encoding : Encoding) (shape : Shape) (lhs rhs : Expr) : Encoded :=
  match encoding with
  | .mathematical => .exact (.binary op.arithmetic lhs rhs)
  | .modular => op.modular shape lhs rhs
  | .bitvector => .exact (.bvBinary (op.bvFunction shape.signed) shape.bits lhs rhs)

theorem bvFunction?_source (op : WrappedOp) (signed : Bool) :
    op.source.bvFunction? signed = some (op.bvFunction signed) := by
  cases op <;> rfl

theorem yields_encode (op : WrappedOp) (s : Session) (shape : Shape) (lhs rhs : Expr)
    (node : Option NodeId) :
    s.Yields (liftM (op.source.encode shape lhs rhs node))
      (op.encoded s.encoding shape lhs rhs) := by
  cases hs : s.encoding with
  | mathematical =>
    have h : op.source.mathematical? lhs rhs = some (.exact (.binary op.arithmetic lhs rhs)) := by
      cases op <;> rfl
    refine .lift ?_ rfl
    rw [SourceBinaryOp.run_encode_mathematical hs, h]
    rfl
  | modular => exact .lift (op.run_encode_modular hs shape lhs rhs node) rfl
  | bitvector =>
    exact .lift (SourceBinaryOp.run_encode_bitvector (op.bvFunction?_source _) hs lhs rhs node)
      (Session.config_declare _ _)

end WrappedOp

/-- The encoded negation. -/
def Encoding.negated (encoding : Encoding) (shape : Shape) (operand : Expr) : Encoded :=
  match encoding with
  | .mathematical => .exact (.unary .neg operand)
  | .modular => Modular.neg shape operand
  | .bitvector => .exact (.bvUnary .neg shape.bits operand)

theorem Session.yields_encode_neg (s : Session) (shape : Shape) (operand : Expr)
    (node : Option NodeId) :
    s.Yields (liftM (SourceUnaryOp.neg.encode shape operand node))
      (s.encoding.negated shape operand) := by
  cases hs : s.encoding with
  | mathematical =>
    refine .lift ?_ rfl
    simp only [SourceUnaryOp.encode, StateT.run_bind, run_getEncoding, hs]
    rfl
  | modular => exact .lift (SourceUnaryOp.run_encode_neg_modular hs shape operand node) rfl
  | bitvector =>
    refine .lift ?_ (config_declare s (BvUnaryOp.neg.declaration shape.bits))
    simp only [SourceUnaryOp.encode, StateT.run_bind, run_getEncoding, hs, bvUnary]
    rfl

namespace SourceTerm

variable {scope : String → Option IntegerType}

/-- What the translation of a term yields in the sessions of an encoding. -/
def translation (encoding : Encoding) {type : IntegerType} : SourceTerm scope type → TranslatedTerm
  | .var name _ => .leaf (.ident name)
  | .literal value _ => .leaf (encoding.literal value type.shape.bits)
  | .binary op _ lhs rhs _ =>
    let lhs := lhs.translation encoding
    let rhs := rhs.translation encoding
    lhs.binary op rhs (op.encoded encoding type.shape lhs.value rhs.value)
  | .neg operand _ =>
    let operand := operand.translation encoding
    operand.unary (encoding.negated type.shape operand.value)
  | .cast source target operand =>
    let operand := operand.translation encoding
    operand.cast target.shape (source.shape.castValue target.shape encoding operand.value)

theorem yields_translate {type : IntegerType} (term : SourceTerm scope type) (s : Session) :
    s.Yields term.translate (term.translation s.encoding) := by
  induction term generalizing s with
  | var name h => exact .pure s _
  | literal value h => exact .withEncoding (.pure s _)
  | binary op h lhs rhs node ihl ihr =>
    refine (ihl s).bind fun s₁ h₁ => ?_
    have hs₁ : s₁.encoding = s.encoding := congrArg EncodingConfig.encoding h₁
    rw [← hs₁]
    refine (ihr s₁).bind fun s₂ h₂ => ?_
    have hs₂ : s₂.encoding = s₁.encoding := congrArg EncodingConfig.encoding h₂
    rw [← hs₂]
    exact (op.yields_encode s₂ _ _ _ node).bind fun s₃ _ => .pure s₃ _
  | neg operand node ih =>
    refine (ih s).bind fun s₁ h₁ => ?_
    have hs₁ : s₁.encoding = s.encoding := congrArg EncodingConfig.encoding h₁
    rw [← hs₁]
    exact (s₁.yields_encode_neg _ _ node).bind fun s₂ _ => .pure s₂ _
  | cast source target operand ih =>
    refine (ih s).bind fun s₁ h₁ => ?_
    have hs₁ : s₁.encoding = s.encoding := congrArg EncodingConfig.encoding h₁
    rw [← hs₁]
    have hcast := Session.yields_explicitConversion source.shape?_source target.shape?_source
      (target.byteStringBits?_source source.source) target.shape_pos
    exact (hcast _ s₁).bind fun s₂ _ => .pure s₂ _

end SourceTerm

/-! ### Agreement -/

/-- A number as a value of an encoding. -/
def Encoding.represent (encoding : Encoding) (value : Int) (bits : UInt32) : Value :=
  match encoding with
  | .bitvector => .bvOf value bits
  | .mathematical | .modular => .int value

theorem Encoding.eval_literal (encoding : Encoding) (store : Store) (value : Int) (bits : UInt32) :
    (encoding.literal value bits).eval store = .ok (encoding.represent value bits) := by
  cases encoding with
  | bitvector =>
    rw [literal_bitvector]
    rfl
  | mathematical | modular => rfl

/-- A bitvector only depends on the residue of the number. -/
theorem Value.bvOf_wrap (shape : Shape) (value : Int) :
    Value.bvOf (shape.wrap value) shape.bits = .bvOf value shape.bits :=
  bvOf_eq_bvOf_iff.2 (shape.wrap_modEq value)

/-- Translations of one term, one for each encoding, agree in stores that hold the same numbers: if
no divisor is zero, then the modular and the bitvector value are the same number of the shape, and
if besides all conditions hold and no cast leaves its range, the mathematical value is this number
as well. -/
def TranslatedTerm.Agrees (stores : Encoding → Store) (shape : Shape)
    (translation : Encoding → TranslatedTerm) : Prop :=
  (∀ divisor ∈ (translation .modular).divisors,
    divisor.eval (stores .modular) ≠ .ok (.int 0)) →
  ∃ m, shape.Contains m ∧
    (translation .modular).value.eval (stores .modular) = .ok (.int m) ∧
    (translation .bitvector).value.eval (stores .bitvector) = .ok (.bvOf m shape.bits) ∧
    ((∀ condition ∈ (translation .modular).conditions,
      condition.eval (stores .modular) = .ok (.bool true)) →
    (∀ cast ∈ (translation .modular).casts,
      ∃ v, cast.1.eval (stores .modular) = .ok (.int v) ∧ cast.2.Contains v) →
    (translation .mathematical).value.eval (stores .mathematical) = .ok (.int m))

/-- Stores hold the values of the variables of a scope, all of them in range. -/
structure Represents (scope : String → Option IntegerType) (values : String → Int)
    (stores : Encoding → Store) : Prop where
  contains : ∀ name type, scope name = some type → type.shape.Contains (values name)
  find? : ∀ encoding name type, scope name = some type →
    (stores encoding).find? name = some (encoding.represent (values name) type.shape.bits)

namespace TranslatedTerm

variable {stores : Encoding → Store} {shape : Shape}

theorem agrees_leaf {value : Encoding → Expr} {m : Int} (hm : shape.Contains m)
    (hvalue : ∀ encoding,
      (value encoding).eval (stores encoding) = .ok (encoding.represent m shape.bits)) :
    Agrees stores shape fun encoding => leaf (value encoding) :=
  fun _ => ⟨m, hm, hvalue .modular, hvalue .bitvector, fun _ _ => hvalue .mathematical⟩

/-- An operator of the bitvector encoding has the exact result, up to its residue. -/
theorem eval_bvFunction (op : WrappedOp) (hbits : 0 < shape.bits)
    (hunsigned : op = .div → shape.signed = false) {store : Store} {lhs rhs : Expr} {a b : Int}
    (hl : lhs.eval store = .ok (.bvOf a shape.bits))
    (hr : rhs.eval store = .ok (.bvOf b shape.bits)) (ha : shape.Contains a)
    (hb : shape.Contains b) (hdefined : op = .div → b ≠ 0) :
    (Expr.bvBinary (op.bvFunction shape.signed) shape.bits lhs rhs).eval store =
      .ok (.bvOf (op.exact a b) shape.bits) := by
  have hmeaning : op.source.meaning shape.bits a b = .bvOf (op.exact a b) shape.bits := by
    cases op with
    | div =>
      obtain ⟨bits, signed⟩ := shape
      obtain rfl : signed = false := hunsigned rfl
      have hnonneg := (Shape.contains_unsigned_iff.1 ha).1
      exact congrArg (Value.bvOf · bits) (Int.tdiv_eq_ediv_of_nonneg hnonneg)
    | _ => rfl
  have hdef : op.source.Defined b := by
    cases op with
    | div => exact hdefined rfl
    | _ => trivial
  rw [← hmeaning]
  exact SourceBinaryOp.eval_eq_meaning (op.bvFunction?_source _) hbits hl hr ha hb hdef

/-- An operator of the mathematical encoding has the exact result. -/
theorem eval_arithmetic (op : WrappedOp) {store : Store} {lhs rhs : Expr} {a b : Int}
    (hl : lhs.eval store = .ok (.int a)) (hr : rhs.eval store = .ok (.int b))
    (hdefined : op = .div → b ≠ 0) :
    (Expr.binary op.arithmetic lhs rhs).eval store = .ok (.int (op.exact a b)) := by
  cases op with
  | div => exact Expr.eval_div_of_int hl hr (hdefined rfl)
  | add | sub | mul => exact Expr.eval_binary_of_int rfl hl hr

theorem agrees_binary (op : WrappedOp) (hbits : 0 < shape.bits)
    (hunsigned : op = .div → shape.signed = false) {lhs rhs : Encoding → TranslatedTerm}
    (hl : Agrees stores shape lhs) (hr : Agrees stores shape rhs) :
    Agrees stores shape fun encoding =>
      (lhs encoding).binary op (rhs encoding)
        (op.encoded encoding shape (lhs encoding).value (rhs encoding).value) := by
  intro hdivisors
  simp only [binary, List.mem_append] at hdivisors
  obtain ⟨a, ha, hma, hba, hxa⟩ := hl fun divisor h => hdivisors divisor (Or.inl (Or.inl h))
  obtain ⟨b, hb, hmb, hbb, hxb⟩ := hr fun divisor h => hdivisors divisor (Or.inl (Or.inr h))
  have hdefined : op = .div → b ≠ 0 := by
    intro hop hzero
    apply hdivisors (rhs .modular).value
    · rw [if_pos hop]
      exact Or.inr List.mem_cons_self
    · rw [hmb, hzero]
  have hwraps := op.modular_wraps hbits hma hmb ha hb hdefined
  refine ⟨shape.wrap (op.exact a b), Shape.contains_wrap hbits _, hwraps.value_eq hbits, ?_, ?_⟩
  · rw [Value.bvOf_wrap]
    exact eval_bvFunction op hbits hunsigned hba hbb ha hb hdefined
  · intro hconditions hcasts
    simp only [binary, List.mem_append] at hconditions hcasts
    have hxa := hxa (fun c h => hconditions c (Or.inl (Or.inl h)))
      (fun c h => hcasts c (Or.inl h))
    have hxb := hxb (fun c h => hconditions c (Or.inl (Or.inr h)))
      (fun c h => hcasts c (Or.inr h))
    have hexact := hwraps.contains_of_condition fun c h =>
      hconditions c (Or.inr (Option.mem_toList.2 h))
    rw [← Shape.eq_wrap hbits hexact rfl]
    exact eval_arithmetic op hxa hxb hdefined

theorem agrees_neg (hbits : 0 < shape.bits) {operand : Encoding → TranslatedTerm}
    (h : Agrees stores shape operand) :
    Agrees stores shape fun encoding =>
      (operand encoding).unary (encoding.negated shape (operand encoding).value) := by
  intro hdivisors
  obtain ⟨a, ha, hma, hba, hxa⟩ := h hdivisors
  have hwraps := Modular.neg_wraps hbits hma ha
  refine ⟨shape.wrap (-a), Shape.contains_wrap hbits _, hwraps.value_eq hbits, ?_, ?_⟩
  · rw [Value.bvOf_eq_ofBits] at hba
    rw [Value.bvOf_wrap, Value.bvOf_eq_ofBits, BitVec.ofInt_neg]
    exact Expr.eval_bvUnary_of_bits hba
  · intro hconditions hcasts
    simp only [unary, List.mem_append] at hconditions
    have hxa := hxa (fun c h => hconditions c (Or.inl h)) hcasts
    have hexact := hwraps.contains_of_condition fun c h =>
      hconditions c (Or.inr (Option.mem_toList.2 h))
    rw [← Shape.eq_wrap hbits hexact rfl]
    exact Expr.eval_neg_of_int hxa

/-- A cast reduces its operand into the target, which changes nothing if the operand is there. -/
theorem agrees_cast {target : Shape} (hbits : 0 < shape.bits) (htarget : 0 < target.bits)
    {operand : Encoding → TranslatedTerm} (h : Agrees stores shape operand) :
    Agrees stores target fun encoding =>
      (operand encoding).cast target
        (shape.castValue target encoding (operand encoding).value) := by
  intro hdivisors
  obtain ⟨a, ha, hma, hba, hxa⟩ := h hdivisors
  refine ⟨target.wrap a, Shape.contains_wrap htarget _,
    Shape.eval_castValue_modular htarget hma ha, ?_, ?_⟩
  · rw [Value.bvOf_wrap]
    exact Shape.eval_castValue_bitvector hbits htarget hba ha
  · intro hconditions hcasts
    simp only [cast, List.mem_append] at hcasts
    have hxa := hxa hconditions fun c h => hcasts c (Or.inl h)
    obtain ⟨v, hv, hcontains⟩ := hcasts _ (Or.inr List.mem_cons_self)
    obtain rfl : v = a := by
      rw [hma] at hv
      cases hv
      rfl
    rw [← Shape.eq_wrap htarget hcontains rfl]
    exact (congrArg (Expr.eval _) (Shape.castValue_mathematical shape target _)).trans hxa

end TranslatedTerm

namespace SourceTerm

variable {scope : String → Option IntegerType} {values : String → Int}
  {stores : Encoding → Store}

theorem agrees_translation (hstores : Represents scope values stores) {type : IntegerType}
    (term : SourceTerm scope type) :
    TranslatedTerm.Agrees stores type.shape fun encoding => term.translation encoding := by
  induction term with
  | @var type name h =>
    refine TranslatedTerm.agrees_leaf (hstores.contains name type h) fun encoding => ?_
    rw [Expr.eval_ident, hstores.find? encoding name type h]
  | literal value h =>
    exact TranslatedTerm.agrees_leaf h fun encoding => encoding.eval_literal _ value _
  | @binary type op h lhs rhs node ihl ihr =>
    exact TranslatedTerm.agrees_binary op type.shape_pos h ihl ihr
  | @neg type operand node ih => exact TranslatedTerm.agrees_neg type.shape_pos ih
  | cast source target operand ih =>
    exact TranslatedTerm.agrees_cast source.shape_pos target.shape_pos ih

/-- Simulation between the encodings.  In a session of each encoding a term is translated.  If no
divisor of the modular translation is zero, the modular translation evaluates to a number of the
type and the bitvector translation to the bitvector of this number.  If besides all conditions hold
and the operands of casts are numbers of their targets, then the mathematical translation evaluates
to this number as well. -/
theorem translate_simulates {type : IntegerType} (term : SourceTerm scope type)
    (hstores : Represents scope values stores) {sessions : Encoding → Session}
    (hsessions : ∀ encoding, (sessions encoding).encoding = encoding) :
    ∃ translation : Encoding → TranslatedTerm,
      (∀ encoding, ∃ s',
        term.translate.run.run (sessions encoding) = (.ok (translation encoding), s')) ∧
      ((∀ divisor ∈ (translation .modular).divisors,
        divisor.eval (stores .modular) ≠ .ok (.int 0)) →
      ∃ m, type.shape.Contains m ∧
        (translation .modular).value.eval (stores .modular) = .ok (.int m) ∧
        (translation .bitvector).value.eval (stores .bitvector) =
          .ok (.bvOf m type.shape.bits) ∧
        ((∀ condition ∈ (translation .modular).conditions,
          condition.eval (stores .modular) = .ok (.bool true)) →
        (∀ cast ∈ (translation .modular).casts,
          ∃ v, cast.1.eval (stores .modular) = .ok (.int v) ∧ cast.2.Contains v) →
        (translation .mathematical).value.eval (stores .mathematical) = .ok (.int m))) := by
  refine ⟨fun encoding => term.translation encoding, ?_, agrees_translation hstores term⟩
  intro encoding
  obtain ⟨s', hrun, -⟩ := term.yields_translate (sessions encoding)
  rw [hsessions] at hrun
  exact ⟨s', hrun⟩

/-- The cast of a quotient, `int16((x + 100) / 7)` for an `x` of eight bits that is `20`. -/
theorem translate_simulates_cast_of_quotient :
    let byte : IntegerType := ⟨8, false, by decide⟩
    let word : IntegerType := ⟨16, true, by decide⟩
    let scope : String → Option IntegerType := fun name => if name = "x" then some byte else none
    let term : SourceTerm scope word := .cast byte word <|
      .binary .div (fun _ => rfl)
        (.binary .add nofun (.var "x" rfl) (.literal 100 (by decide)) none)
        (.literal 7 (by decide)) none
    let stores : Encoding → Store := fun encoding =>
      Table.empty.insert "x" (encoding.represent 20 8)
    ∃ translation : Encoding → TranslatedTerm,
      (∀ encoding, ∃ s', term.translate.run.run (Session.start ⟨encoding, true⟩) =
        (.ok (translation encoding), s')) ∧
      word.shape.Contains 17 ∧
      (translation .modular).value.eval (stores .modular) = .ok (.int 17) ∧
      (translation .bitvector).value.eval (stores .bitvector) = .ok (.bvOf 17 16) ∧
      (translation .mathematical).value.eval (stores .mathematical) = .ok (.int 17) := by
  intro byte word scope term stores
  have hstores : Represents scope (fun _ => 20) stores := by
    constructor
    · intro name type h
      simp only [scope] at h
      split at h <;> cases h
      decide
    · intro encoding name type h
      simp only [scope] at h
      split at h
      · next hname =>
        cases h
        rw [hname, Table.find?_insert, if_pos rfl]
        rfl
      · cases h
  have hsessions : ∀ encoding, (Session.start ⟨encoding, true⟩).encoding = encoding := fun _ => rfl
  obtain ⟨translation, hruns, hagrees⟩ := translate_simulates term hstores hsessions
  have hmodular : translation .modular = term.translation .modular := by
    obtain ⟨s', hrun⟩ := hruns .modular
    have hyields : (term.translate.run.run (Session.start ⟨.modular, true⟩)).1 =
        .ok (term.translation .modular) := rfl
    rw [hrun] at hyields
    exact Except.ok.inj hyields
  rw [hmodular] at hagrees
  have hdivisors : ∀ divisor ∈ (term.translation .modular).divisors,
      divisor.eval (stores .modular) ≠ .ok (.int 0) := by decide
  have hconditions : ∀ condition ∈ (term.translation .modular).conditions,
      condition.eval (stores .modular) = .ok (.bool true) := by decide
  have hcasts : ∀ cast ∈ (term.translation .modular).casts,
      ∃ v, cast.1.eval (stores .modular) = .ok (.int v) ∧ cast.2.Contains v := by
    intro cast h
    obtain rfl := List.mem_singleton.1 h
    exact ⟨17, by decide, by decide⟩
  have hquotient : (term.translation .modular).value.eval (stores .modular) = .ok (.int 17) := by
    decide
  obtain ⟨m, hm, hmodular', hbitvector, hmathematical⟩ := hagrees hdivisors
  obtain rfl : 17 = m := Value.int.inj (Except.ok.inj (hquotient.symm.trans hmodular'))
  exact ⟨translation, hruns, hm, hmodular ▸ hquotient, hbitvector,
    hmathematical hconditions hcasts⟩

end SourceTerm

end SolidityEncoding
