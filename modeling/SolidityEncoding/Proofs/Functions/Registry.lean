import SolidityEncoding.Encoding.Arithmetic
import SolidityEncoding.Encoding.Conversion
import SolidityEncoding.Proofs.Functions.Application
import SolidityEncoding.Proofs.Typing.Conversion

/-!
# Declared functions of a session

A session declares a bitvector function when an operation applies it, and only then.  Whatever an
operation is and whether it is refused or not, the declarations that were there stay at their
places, each of them is the declaration of the function of its name, and the functions that are
applied in the result are declared if those of the operands are.

`Session.Registers` says this about operations that always have a result and `Session.Converts`
about those that may be refused.  Both have a rule for each way to build an operation, so that the
proof about an operation follows its definition line by line.
-/

namespace SolidityEncoding

open Session

/-! ### Registered sessions -/

namespace Session

/-- A function is declared under its name. -/
def Declares (s : Session) (f : BvFunction) : Prop :=
  ∃ decl, f.declaration? = some decl ∧ s.builtins.find? f.name = some decl

/-- All functions that are applied in an expression are declared. -/
def Covers (s : Session) (e : Expr) : Prop := e.AppliesOnly s.Declares

/-- Every declaration is that of the function of its name, and only the bitvector encoding has
any. -/
structure Registered (s : Session) : Prop where
  declaration : ∀ name decl, s.builtins.find? name = some decl →
    ∃ f : BvFunction, f.declaration? = some decl ∧ f.name = name
  empty : s.encoding ≠ .bitvector → s.builtins = .empty

/-- A later session has the declarations of an earlier one at their places. -/
structure Grows (s s' : Session) : Prop where
  config : s'.config = s.config
  entries : s.builtins.entries <+: s'.builtins.entries

theorem registered_start (config : EncodingConfig) : (start config).Registered where
  declaration _ _ h := nomatch h
  empty _ := rfl

namespace Grows

variable {s s₁ s₂ : Session}

theorem refl (s : Session) : s.Grows s := ⟨rfl, List.prefix_refl _⟩

theorem trans (h : s.Grows s₁) (h' : s₁.Grows s₂) : s.Grows s₂ :=
  ⟨h'.config.trans h.config, h.entries.trans h'.entries⟩

theorem encoding (h : s.Grows s₁) : s₁.encoding = s.encoding :=
  congrArg EncodingConfig.encoding h.config

theorem declares (h : s.Grows s₁) {f : BvFunction} (hf : s.Declares f) : s₁.Declares f := by
  obtain ⟨decl, hdecl, hfind⟩ := hf
  rw [Table.find?_eq_some_iff] at hfind
  exact ⟨decl, hdecl, Table.find?_eq_some_iff.2 (h.entries.subset hfind)⟩

theorem covers (h : s.Grows s₁) {e : Expr} (he : s.Covers e) : s₁.Covers e :=
  he.mono fun _ => h.declares

end Grows

/-! ### Declaring a function -/

section Declare

variable {s : Session} {f : BvFunction} {decl : FuncDecl} (hf : f.declaration? = some decl)

theorem grows_declare (s : Session) (decl : FuncDecl) : s.Grows (s.declare decl) := by
  refine ⟨config_declare s decl, ?_⟩
  rw [declare]
  split
  · exact List.prefix_refl _
  · next hnew =>
    rw [Table.entries_insert_of_not_contains hnew]
    exact List.prefix_append _ _

include hf

theorem registered_declare (hs : s.Registered) (hencoding : s.encoding = .bitvector) :
    (s.declare decl).Registered := by
  rw [declare]
  split
  · exact hs
  · refine ⟨fun name decl' hfind => ?_, fun hne => absurd hencoding hne⟩
    rw [Table.find?_insert] at hfind
    split at hfind
    · next hname =>
      cases hfind
      exact ⟨f, hf, (BvFunction.name_of_declaration? hf).symm.trans hname⟩
    · exact hs.declaration name decl' hfind

/-- A name that is declared already stands for the same function. -/
theorem declares_declare (hs : s.Registered) : (s.declare decl).Declares f := by
  have hname := BvFunction.name_of_declaration? hf
  refine ⟨decl, hf, ?_⟩
  rw [declare]
  split
  · next hknown =>
    obtain ⟨decl', hfind⟩ := Option.isSome_iff_exists.1 hknown
    rw [hname] at hfind
    obtain ⟨g, hg, hgname⟩ := hs.declaration _ _ hfind
    obtain rfl := BvFunction.name_injective hgname
    rw [hfind, ← hg, hf]
  · rw [← hname]
    exact Table.find?_insert_self _ _ _

end Declare

/-! ### Operations that always have a result -/

/-- An operation keeps all declarations, adds only declarations of functions, and has a result of a
property. -/
structure Registers {α : Type} (s : Session) (operation : Encode α) (Q : Session → α → Prop) :
    Prop where
  registered : (operation.run s).2.Registered
  grows : s.Grows (operation.run s).2
  result : Q (operation.run s).2 (operation.run s).1

namespace Registers

variable {α β : Type} {s : Session} {Q : Session → α → Prop} {R : Session → β → Prop}

theorem pure (hs : s.Registered) {a : α} (h : Q s a) : s.Registers (pure a) Q :=
  ⟨hs, .refl s, h⟩

theorem bind {operation : Encode α} {next : α → Encode β} (h : s.Registers operation Q)
    (hnext : ∀ a s', s'.Registered → s.Grows s' → Q s' a → s'.Registers (next a) R) :
    s.Registers (operation >>= next) R := by
  have h' := hnext _ _ h.registered h.grows h.result
  exact ⟨h'.registered, h.grows.trans h'.grows, h'.result⟩

/-- An operation that asks for the encoding goes on with the encoding of the session. -/
theorem withEncoding {next : Encoding → Encode β} (h : s.Registers (next s.encoding) R) :
    s.Registers (getEncoding >>= next) R := ⟨h.registered, h.grows, h.result⟩

end Registers

section Nodes

variable {s : Session} (hs : s.Registered) (hencoding : s.encoding = .bitvector)

include hs hencoding

theorem registers_bvBinary (op : BvBinaryOp) (width : UInt32) {lhs rhs : Expr}
    (hl : s.Covers lhs) (hr : s.Covers rhs) :
    s.Registers (bvBinary op width lhs rhs) Covers := by
  have hf : (BvFunction.binary op width).declaration? = some (op.declaration width) := rfl
  have hgrows := grows_declare s (op.declaration width)
  refine ⟨registered_declare hf hs hencoding, hgrows, ?_⟩
  exact Expr.appliesOnly_bvBinary.2
    ⟨declares_declare hf hs, hgrows.covers hl, hgrows.covers hr⟩

theorem registers_bvUnary (op : BvUnaryOp) (width : UInt32) {operand : Expr}
    (h : s.Covers operand) : s.Registers (bvUnary op width operand) Covers := by
  have hf : (BvFunction.unary op width).declaration? = some (op.declaration width) := rfl
  have hgrows := grows_declare s (op.declaration width)
  refine ⟨registered_declare hf hs hencoding, hgrows, ?_⟩
  exact Expr.appliesOnly_bvUnary.2 ⟨declares_declare hf hs, hgrows.covers h⟩

theorem registers_bvLiteral (value : Int) (bits : UInt32) :
    s.Registers (bvLiteral value bits) Covers := by
  unfold bvLiteral
  split
  · exact registers_bvUnary hs hencoding .neg bits (Expr.appliesOnly_bvOf _ _)
  · exact .pure hs (Expr.appliesOnly_bvOf _ _)

end Nodes

end Session

/-! ### Arithmetic -/

/-- All functions that are applied in the value and in the condition have a property. -/
structure Encoded.AppliesOnly (P : BvFunction → Prop) (encoded : Encoded) : Prop where
  value : encoded.value.AppliesOnly P
  condition : ∀ condition, encoded.condition = some condition → condition.AppliesOnly P

/-- All functions that are applied in an encoded operation are declared. -/
def Session.CoversEncoded (s : Session) (encoded : Encoded) : Prop := encoded.AppliesOnly s.Declares

namespace Encoded.AppliesOnly

variable {P : BvFunction → Prop} {lhs rhs : Expr}

theorem exact {value : Expr} (h : value.AppliesOnly P) :
    (Encoded.exact value).AppliesOnly P := ⟨h, nofun⟩

theorem wrapping {raw value : Expr} (hraw : raw.AppliesOnly P) (hvalue : value.AppliesOnly P) :
    (Encoded.wrapping raw value).AppliesOnly P := by
  refine ⟨hvalue, fun condition h => ?_⟩
  cases h
  exact Expr.appliesOnly_binary.2 ⟨hraw, hvalue⟩

end Encoded.AppliesOnly

section Operands

variable {P : BvFunction → Prop} {lhs rhs : Expr} (hl : lhs.AppliesOnly P) (hr : rhs.AppliesOnly P)

include hl

theorem Modular.appliesOnly_wrapSigned (bits : UInt32) :
    (Modular.wrapSigned bits lhs).AppliesOnly P := by
  simp [Modular.wrapSigned, hl]

theorem Modular.appliesOnly_toUnsigned (bits : UInt32) :
    (Modular.toUnsigned bits lhs).AppliesOnly P := by
  simp [Modular.toUnsigned, hl]

theorem Modular.appliesOnly_neg (shape : Shape) : (Modular.neg shape lhs).AppliesOnly P := by
  refine .wrapping (by simp [hl]) ?_
  split <;> simp [hl]

theorem Shape.appliesOnly_wrapExpr (shape : Shape) : (shape.wrapExpr lhs).AppliesOnly P := by
  unfold Shape.wrapExpr
  split <;> simp [hl]

include hr

/-- The functions of a value of the mathematical encoding are those of its operands. -/
theorem SourceBinaryOp.appliesOnly_mathematical? {op : SourceBinaryOp} {encoded : Encoded}
    (h : op.mathematical? lhs rhs = some encoded) : encoded.AppliesOnly P := by
  cases op with
  | exp =>
    obtain ⟨power, -, rfl⟩ := Option.map_eq_some_iff.1 h
    exact .exact (Expr.appliesOnly_int power)
  | add | sub | mul | div | mod | lt | gt | lte | gte =>
    cases h
    exact .exact (Expr.appliesOnly_binary.2 ⟨hl, hr⟩)
  | bitAnd | bitOr | bitXor | shl | sar => cases h

theorem Modular.appliesOnly_add (shape : Shape) : (Modular.add shape lhs rhs).AppliesOnly P := by
  have hsum : (Expr.binary .add lhs rhs).AppliesOnly P := Expr.appliesOnly_binary.2 ⟨hl, hr⟩
  refine .wrapping hsum ?_
  split
  · exact appliesOnly_wrapSigned hsum shape.bits
  · simp [hl, hr]

theorem Modular.appliesOnly_sub (shape : Shape) : (Modular.sub shape lhs rhs).AppliesOnly P := by
  have hdifference : (Expr.binary .sub lhs rhs).AppliesOnly P :=
    Expr.appliesOnly_binary.2 ⟨hl, hr⟩
  refine .wrapping hdifference ?_
  split
  · exact appliesOnly_wrapSigned hdifference shape.bits
  · simp [hl, hr]

theorem Modular.appliesOnly_mul (shape : Shape) : (Modular.mul shape lhs rhs).AppliesOnly P := by
  refine .wrapping (Expr.appliesOnly_binary.2 ⟨hl, hr⟩) ?_
  split
  · simp [appliesOnly_toUnsigned, hl, hr]
  · simp [hl, hr]

theorem Modular.appliesOnly_div (shape : Shape) : (Modular.div shape lhs rhs).AppliesOnly P := by
  have hquotient : (Expr.binary .div lhs rhs).AppliesOnly P := Expr.appliesOnly_binary.2 ⟨hl, hr⟩
  refine .wrapping hquotient ?_
  split
  · exact appliesOnly_wrapSigned hquotient shape.bits
  · exact hquotient

/-- The functions of a value of the modular encoding are those of its operands. -/
theorem SourceBinaryOp.appliesOnly_modular? {op : SourceBinaryOp} {shape : Shape}
    {encoded : Encoded} (h : op.modular? shape lhs rhs = some encoded) :
    encoded.AppliesOnly P := by
  cases op with
  | add =>
    cases h
    exact Modular.appliesOnly_add hl hr shape
  | sub =>
    cases h
    exact Modular.appliesOnly_sub hl hr shape
  | mul =>
    cases h
    exact Modular.appliesOnly_mul hl hr shape
  | div =>
    cases h
    exact Modular.appliesOnly_div hl hr shape
  | lt | gt | lte | gte =>
    cases h
    exact .exact (Expr.appliesOnly_binary.2 ⟨hl, hr⟩)
  | exp =>
    obtain ⟨power, -, rfl⟩ := Option.map_eq_some_iff.1 h
    exact .wrapping (Expr.appliesOnly_int _) (Expr.appliesOnly_int _)
  | mod | bitAnd | bitOr | bitXor | shl | sar => cases h

end Operands

section Encoding

variable {s : Session} (hs : s.Registered)

include hs

theorem Session.registers_orReport (node : Option NodeId) (error : EncodingError)
    {result : Option Encoded}
    (h : ∀ encoded, result = some encoded → s.CoversEncoded encoded) :
    s.Registers (orReport node error result) CoversEncoded := by
  cases result with
  | some encoded => exact .pure hs (h encoded rfl)
  | none =>
    have hreported : (s.report node error).Registered := ⟨hs.declaration, hs.empty⟩
    exact ⟨hreported, ⟨rfl, List.prefix_refl _⟩, .exact Expr.appliesOnly_error⟩

theorem SourceBinaryOp.registers_encode (op : SourceBinaryOp) (shape : Shape) {lhs rhs : Expr}
    (node : Option NodeId) (hl : s.Covers lhs) (hr : s.Covers rhs) :
    s.Registers (op.encode shape lhs rhs node) CoversEncoded := by
  refine .withEncoding ?_
  cases hencoding : s.encoding with
  | mathematical =>
    exact registers_orReport hs node _ fun _ => appliesOnly_mathematical? hl hr
  | modular => exact registers_orReport hs node _ fun _ => appliesOnly_modular? hl hr
  | bitvector =>
    dsimp only
    cases op.bvFunction? shape.signed with
    | some function =>
      refine (registers_bvBinary hs hencoding function shape.bits hl hr).bind ?_
      exact fun e s' hs' _ he => .pure hs' (.exact he)
    | none =>
      refine registers_orReport hs node _ fun encoded h => ?_
      obtain ⟨power, hpower, rfl⟩ := Option.map_eq_some_iff.1 h
      refine .exact ?_
      unfold literalBvPower? at hpower
      split at hpower
      · cases hpower
        exact Expr.appliesOnly_bvOf _ _
      · cases hpower

theorem SourceUnaryOp.registers_encode (op : SourceUnaryOp) (shape : Shape) {operand : Expr}
    (node : Option NodeId) (h : s.Covers operand) :
    s.Registers (op.encode shape operand node) CoversEncoded := by
  refine .withEncoding ?_
  cases hencoding : s.encoding with
  | mathematical =>
    cases op with
    | neg => exact .pure hs (.exact (Expr.appliesOnly_unary.2 h))
    | bitNot => exact registers_orReport hs node _ nofun
  | modular =>
    cases op with
    | neg => exact .pure hs (Modular.appliesOnly_neg h shape)
    | bitNot => exact registers_orReport hs node _ nofun
  | bitvector =>
    cases op with
    | neg =>
      refine (registers_bvUnary hs hencoding .neg shape.bits h).bind ?_
      exact fun e s' hs' _ he => .pure hs' (.exact he)
    | bitNot =>
      refine (registers_bvUnary hs hencoding .not shape.bits h).bind ?_
      exact fun e s' hs' _ he => .pure hs' (.exact he)

end Encoding

/-! ### Operations that may be refused -/

namespace Session

/-- An operation that may be refused keeps all declarations and adds only declarations of functions,
refused or not, and if it has a result, this has a property. -/
def Converts {α : Type} (s : Session) (conversion : Convert α) (Q : Session → α → Prop) : Prop :=
  s.Registers conversion.run fun s' result => ∀ a, result = .ok a → Q s' a

namespace Converts

variable {α β : Type} {s : Session} {Q : Session → α → Prop} {R : Session → β → Prop}

theorem pure (hs : s.Registered) {a : α} (h : Q s a) : s.Converts (pure a) Q := by
  refine Registers.pure hs fun a' ha => ?_
  cases ha
  exact h

theorem throw (hs : s.Registered) (error : EncodingError) : s.Converts (throw error) Q :=
  Registers.pure hs nofun

theorem bind {conversion : Convert α} {next : α → Convert β} (h : s.Converts conversion Q)
    (hnext : ∀ a s', s'.Registered → s.Grows s' → Q s' a → s'.Converts (next a) R) :
    s.Converts (conversion >>= next) R := by
  rw [Converts, ExceptT.run_bind]
  refine Registers.bind h fun result s' hs' hgrows hresult => ?_
  cases result with
  | error error => exact throw hs' error
  | ok a => exact hnext a s' hs' hgrows (hresult a rfl)

theorem lift {operation : Encode α} (h : s.Registers operation Q) :
    s.Converts (liftM operation) Q := by
  refine ⟨h.registered, h.grows, fun a ha => ?_⟩
  cases ha
  exact h.result

/-- An operation that asks for the encoding goes on with the encoding of the session. -/
theorem withEncoding {next : Encoding → Convert β} (h : s.Converts (next s.encoding) R) :
    s.Converts (liftM getEncoding >>= next) R := ⟨h.registered, h.grows, h.result⟩

/-- After a refusal nothing else is done. -/
theorem refused (hs : s.Registered) (error : EncodingError) (next : α → Convert β) :
    s.Converts (throwThe EncodingError error >>= next) R :=
  bind (Q := fun _ _ => False) (throw hs error) nofun

theorem ite {condition : Prop} [Decidable condition] {conversion conversion' : Convert α}
    (hthen : condition → s.Converts conversion Q)
    (helse : ¬ condition → s.Converts conversion' Q) :
    s.Converts (if condition then conversion else conversion') Q := by
  split
  · exact hthen ‹_›
  · exact helse ‹_›

end Converts

variable {s : Session} (hs : s.Registered)

include hs

theorem converts_extend (hencoding : s.encoding = .bitvector) (kind : Extension)
    (source target : UInt32) {operand : Expr} (h : s.Covers operand) :
    s.Converts (extend kind source target operand) Covers := by
  unfold extend
  cases hdecl : kind.declaration? source target with
  | none => exact .throw hs .outOfRange
  | some decl =>
    have hf : (BvFunction.extension kind source target).declaration? = some decl := hdecl
    have hgrows := grows_declare s decl
    refine ⟨registered_declare hf hs hencoding, hgrows, fun e he => ?_⟩
    cases he
    exact Expr.appliesOnly_extend.2 ⟨declares_declare hf hs, hgrows.covers h⟩

end Session

/-! ### Conversions -/

section Conversions

variable {s : Session} (hs : s.Registered)

include hs

theorem registers_convertedLiteral (value : Int) (bits : UInt32) :
    s.Registers (convertedLiteral value bits) Covers := by
  refine .withEncoding ?_
  cases hencoding : s.encoding with
  | bitvector => exact registers_bvLiteral hs hencoding value bits
  | mathematical | modular => exact .pure hs (Expr.appliesOnly_int value)

theorem converts_convertedLiteral (value : Int) (bits : UInt32) :
    s.Converts (liftM (convertedLiteral value bits)) Covers :=
  .lift (registers_convertedLiteral hs value bits)

variable {e : Expr} (he : s.Covers e)

include he

theorem converts_widenBytes (source target : UInt32) :
    s.Converts (widenBytes e source target) Covers := by
  refine .withEncoding ?_
  cases e.intLit? with
  | some value => exact converts_convertedLiteral hs _ target
  | none =>
    cases hencoding : s.encoding with
    | mathematical | modular =>
      exact .pure hs (Expr.appliesOnly_binary.2 ⟨he, Expr.appliesOnly_int _⟩)
    | bitvector =>
      refine (converts_extend hs hencoding .zero source target he).bind ?_
      intro extended s' hs' hgrows hextended
      have hencoding' := hgrows.encoding.trans hencoding
      refine .lift (registers_bvBinary hs' hencoding' .shl target hextended ?_)
      exact Expr.appliesOnly_bvOf _ _

theorem converts_narrowBytes (source target : UInt32) :
    s.Converts (narrowBytes e source target) Covers := by
  refine .withEncoding ?_
  cases e.intLit? with
  | some value => exact converts_convertedLiteral hs _ target
  | none =>
    cases s.encoding with
    | mathematical | modular =>
      exact .pure hs (Expr.appliesOnly_binary.2 ⟨he, Expr.appliesOnly_int _⟩)
    | bitvector => exact .pure hs (Expr.appliesOnly_extract.2 he)

theorem converts_resizeBytes (source target : UInt32) :
    s.Converts (resizeBytes e source target) Covers :=
  .ite (fun _ => .pure hs he) fun _ =>
    .ite (fun _ => converts_widenBytes hs he source target)
      fun _ => converts_narrowBytes hs he source target

theorem converts_convertScalar (source target : SourceType) (shape : Shape) :
    s.Converts (convertScalar e source target shape) Covers := by
  unfold convertScalar
  cases byteStringBits? source target with
  | some widths =>
    exact .ite (fun _ => .refused hs _ _) fun _ => converts_resizeBytes hs he widths.1 widths.2
  | none =>
    cases e.intLit? with
    | some value => exact converts_convertedLiteral hs value shape.bits
    | none =>
      cases source.shape? with
      | none => exact .pure hs he
      | some sourceShape =>
        refine .ite (fun _ => .pure hs he) fun _ => ?_
        refine .ite (fun _ => .refused hs _ _) fun _ => ?_
        refine .ite (fun _ => .refused hs _ _) fun _ => ?_
        refine .withEncoding ?_
        cases hencoding : s.encoding with
        | mathematical | modular => exact .pure hs he
        | bitvector =>
          exact .ite (fun _ => .pure hs he) fun _ => converts_extend hs hencoding _ _ _ he

theorem converts_castExpr (source target : Shape) :
    s.Converts (castExpr e source target) Covers := by
  refine .withEncoding ?_
  cases hencoding : s.encoding with
  | mathematical => exact .pure hs he
  | modular => exact .pure hs (target.appliesOnly_wrapExpr he)
  | bitvector =>
    refine .ite (fun _ => .pure hs he) fun _ => ?_
    refine .ite (fun _ => converts_extend hs hencoding .sign _ _ he) fun _ => ?_
    exact .ite (fun _ => .throw hs _) fun _ => .pure hs (Expr.appliesOnly_extract.2 he)

end Conversions

mutual

/-- A refused component leaves the functions of the components before it declared. -/
theorem converts_implicitConversion :
    ∀ (target : SourceType) (s : Session), s.Registered → ∀ (source : SourceType) (e : Expr),
      s.Covers e → s.Converts (implicitConversion e source target) Covers
  | .tuple targets => by
    intro s hs source e he
    rw [implicitConversion]
    cases hparts : tupleParts e source (.tuple targets) targets.length with
    | error error => exact .refused hs error _
    | ok parts =>
      obtain ⟨elements, sources⟩ := parts
      obtain ⟨rfl, -, -, -⟩ := tupleParts_eq_ok hparts
      have helements := Expr.appliesOnly_tuple.1 he
      refine (converts_convertComponents targets s hs sources elements helements).bind ?_
      exact fun results s' hs' _ hresults => .pure hs' (Expr.appliesOnly_tuple.2 hresults)
  | .uint _ | .int _ | .fixedBytes _ | .enum _ _ => fun _ hs source _ he =>
    converts_convertScalar hs he source _ _
  | .bool | .address | .bytes | .string | .array _ _ | .mapping _ _ | .contract _ =>
    fun _ hs _ _ he => .pure hs he

/-- Component by component. -/
theorem converts_convertComponents :
    ∀ (targets : List (Option SourceType)) (s : Session), s.Registered →
      ∀ (sources : List (Option SourceType)) (elements : List Expr),
      (∀ e ∈ elements, s.Covers e) →
      s.Converts (convertComponents elements sources targets)
        fun s' results => ∀ r ∈ results, s'.Covers r
  | [] => by
    intro s hs sources elements _
    rw [convertComponents]
    exact .pure hs nofun
  | target :: targets => by
    intro s hs sources elements helements
    cases elements with
    | nil =>
      cases sources <;> exact .pure hs nofun
    | cons e elements =>
      cases sources with
      | nil => exact .pure hs nofun
      | cons source sources =>
        obtain ⟨he, hrest⟩ := List.forall_mem_cons.1 helements
        have hnext (converted : Expr) (s' : Session) (hs' : s'.Registered) (hgrows : s.Grows s')
            (hconverted : s'.Covers converted) :
            s'.Converts (do return converted :: (← convertComponents elements sources targets))
              fun s'' results => ∀ r ∈ results, s''.Covers r := by
          have hrest' := fun e he => hgrows.covers (hrest e he)
          refine (converts_convertComponents targets s' hs' sources elements hrest').bind ?_
          intro results s'' hs'' hgrows' hresults
          exact .pure hs'' (List.forall_mem_cons.2 ⟨hgrows'.covers hconverted, hresults⟩)
        cases target with
        | none =>
          rw [convertComponents]
          exact hnext e s hs (.refl s) he
        | some target =>
          cases source with
          | none =>
            rw [convertComponents]
            exact .refused hs _ _
          | some source =>
            rw [convertComponents]
            exact (converts_implicitConversion target s hs source e he).bind hnext

end

theorem converts_explicitConversion {s : Session} (hs : s.Registered) {e : Expr} (he : s.Covers e)
    (source target : Option SourceType) :
    s.Converts (explicitConversion e source target) Covers := by
  unfold explicitConversion
  split
  · next source target =>
    cases target.shape? with
    | none => exact .pure hs he
    | some shape =>
      change s.Converts (castConversion e source target shape) Covers
      unfold castConversion
      cases byteStringBits? source target with
      | some widths => exact converts_resizeBytes hs he widths.1 widths.2
      | none =>
        have himplicit := converts_implicitConversion target s hs source e he
        cases e.intLit? with
        | some value =>
          refine .withEncoding ?_
          cases s.encoding with
          | modular => exact .pure hs (Expr.appliesOnly_int _)
          | mathematical | bitvector => exact himplicit
        | none =>
          cases source.shape? with
          | none => exact .pure hs he
          | some sourceShape =>
            exact .ite (fun _ => converts_castExpr hs he sourceShape shape) fun _ => himplicit
  · exact .pure hs he

end SolidityEncoding
