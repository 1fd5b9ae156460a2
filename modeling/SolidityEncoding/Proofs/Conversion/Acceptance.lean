import SolidityEncoding.Proofs.Typing.Conversion

/-!
# Which implicit conversions are accepted

The encodings convert differently, but they accept the same conversions, and refuse the others for
the same reason: every check of types comes before the first step that depends on the encoding
(`implicitConversion_decided_alike`).  A refusal is always an inconsistency of the source program,
and neither a refusal nor a result is reported as a diagnostic.

What an accepted conversion results in is the same integer expression under both integer encodings.
It is the operand itself unless a byte string is resized on the way.
-/

namespace SolidityEncoding

/-! ### Operations that report nothing -/

namespace Session

/-- An operation reports nothing, whether or not it is refused. -/
def Silent {α : Type} (conversion : Convert α) : Prop :=
  ∀ s : Session, (conversion.run.run s).2.diagnostics = s.diagnostics

namespace Silent

variable {α β : Type}

theorem pure (a : α) : Silent (pure a) := fun _ => rfl

theorem throw (error : EncodingError) : Silent (throwThe EncodingError error : Convert α) :=
  fun _ => rfl

theorem lift {operation : Encode α}
    (h : ∀ s : Session, (operation.run s).2.diagnostics = s.diagnostics) :
    Silent (liftM operation) := h

/-- After a refusal nothing else is done. -/
theorem refused (error : EncodingError) (next : α → Convert β) :
    Silent (throwThe EncodingError error >>= next) := fun _ => rfl

theorem bind {conversion : Convert α} {next : α → Convert β} (h : Silent conversion)
    (hnext : ∀ a, Silent (next a)) : Silent (conversion >>= next) := by
  intro s
  have hfirst := h s
  rcases hrun : conversion.run.run s with ⟨error | a, s'⟩
  · rw [hrun] at hfirst
    rw [run_bind_of_error hrun]
    exact hfirst
  · rw [hrun] at hfirst
    rw [run_bind_of_ok hrun]
    exact (hnext a s').trans hfirst

theorem ite {condition : Prop} [Decidable condition] {conversion conversion' : Convert α}
    (h : Silent conversion) (h' : Silent conversion') :
    Silent (if condition then conversion else conversion') := by
  split
  · exact h
  · exact h'

theorem getEncoding : Silent (liftM getEncoding) := fun _ => rfl

theorem declaring (decl : FuncDecl) : Silent (liftM (modify (·.declare decl) : Encode PUnit)) :=
  fun s => s.diagnostics_declare decl

end Silent

theorem silent_convertedLiteral (value : Int) (bits : UInt32) :
    Silent (liftM (convertedLiteral value bits)) := by
  refine .lift fun s => ?_
  cases hs : s.encoding with
  | mathematical | modular =>
    simp only [convertedLiteral, StateT.run_bind, run_getEncoding, hs]
    rfl
  | bitvector =>
    simp only [convertedLiteral, StateT.run_bind, run_getEncoding, hs, bvLiteral]
    split
    · exact s.diagnostics_declare _
    · rfl

theorem silent_extend (kind : Extension) (source target : UInt32) (e : Expr) :
    Silent (extend kind source target e) := by
  unfold extend
  split
  · exact .bind (.declaring _) fun _ => .pure _
  · exact .throw _

theorem silent_widenBytes (e : Expr) (source target : UInt32) :
    Silent (widenBytes e source target) := by
  refine .bind .getEncoding fun encoding => ?_
  split
  · exact silent_convertedLiteral _ _
  · exact .bind (silent_extend _ _ _ e) fun _ => .lift fun s => s.diagnostics_declare _
  · exact .pure _

theorem silent_narrowBytes (e : Expr) (source target : UInt32) :
    Silent (narrowBytes e source target) := by
  refine .bind .getEncoding fun encoding => ?_
  split
  · exact silent_convertedLiteral _ _
  · exact .pure _
  · exact .pure _

theorem silent_resizeBytes (e : Expr) (source target : UInt32) :
    Silent (resizeBytes e source target) :=
  .ite (.pure e) (.ite (silent_widenBytes e _ _) (silent_narrowBytes e _ _))

theorem silent_convertScalar (e : Expr) (source target : SourceType) (shape : Shape) :
    Silent (convertScalar e source target shape) := by
  unfold convertScalar
  split
  · exact .ite (.refused _ _) (silent_resizeBytes e _ _)
  split
  · exact silent_convertedLiteral _ _
  · exact .pure e
  refine .ite (.pure e) (.ite (.refused _ _) (.ite (.refused _ _) ?_))
  refine .bind .getEncoding fun encoding => ?_
  cases encoding with
  | bitvector => exact .ite (.pure e) (silent_extend _ _ _ e)
  | mathematical | modular => exact .pure e

end Session

/-! ### Resized byte strings -/

namespace SourceType

mutual

/-- Somewhere in a type a byte string meets one of another size in the target. -/
def resizesBytes (source : SourceType) : SourceType → Bool
  | .fixedBytes target =>
    match source with
    | .fixedBytes source => source != target
    | _ => false
  | .tuple targets =>
    match source with
    | .tuple sources => anyResizesBytes sources targets
    | _ => false
  | _ => false

/-- Somewhere in a list of types a byte string meets one of another size in its target. -/
def anyResizesBytes (sources : List (Option SourceType)) : List (Option SourceType) → Bool
  | [] => false
  | none :: targets => anyResizesBytes sources.tail targets
  | some target :: targets =>
    match sources with
    | some source :: sources => source.resizesBytes target || anyResizesBytes sources targets
    | _ => anyResizesBytes sources.tail targets

end

end SourceType

/-! ### Operations that are decided alike -/

/-- An operation is refused in every session for one inconsistency, or it has a result in every
session, which is the same one under both integer encodings and has a property.  Nothing is reported
in either case. -/
inductive DecidedAlike {α : Type} (conversion : Convert α) (P : α → Prop) : Prop where
  | refused (cause : Inconsistency)
    (h : ∀ s : Session, ∃ s', conversion.run.run s = (.error (.inconsistent cause), s') ∧
      s'.diagnostics = s.diagnostics)
  | accepted (a : α) (ha : P a)
    (h : ∀ s : Session, ∃ a' s', conversion.run.run s = (.ok a', s') ∧ s'.config = s.config ∧
      s'.diagnostics = s.diagnostics ∧ (s.encoding ≠ .bitvector → a' = a))

namespace DecidedAlike

variable {α β γ : Type} {P : α → Prop} {Q : β → Prop} {R : γ → Prop} {conversion : Convert α}

theorem pure {a : α} (ha : P a) : DecidedAlike (pure a) P :=
  .accepted a ha fun s => ⟨a, s, rfl, rfl, rfl, fun _ => rfl⟩

/-- After a refusal nothing else is done. -/
theorem throw (cause : Inconsistency) (next : α → Convert β) :
    DecidedAlike (throwThe EncodingError (.inconsistent cause) >>= next) Q :=
  .refused cause fun s => ⟨s, rfl, rfl⟩

theorem of_yields {a : α} (ha : P a) (hsilent : Session.Silent conversion)
    (h : ∀ s : Session, ∃ a', s.Yields conversion a' ∧ (s.encoding ≠ .bitvector → a' = a)) :
    DecidedAlike conversion P := by
  refine .accepted a ha fun s => ?_
  obtain ⟨a', ⟨s', hrun, hconfig⟩, heq⟩ := h s
  have hdiagnostics := hsilent s
  rw [hrun] at hdiagnostics
  exact ⟨a', s', hrun, hconfig, hdiagnostics, heq⟩

theorem map {f : α → β} (h : DecidedAlike conversion P) (hf : ∀ a, P a → Q (f a)) :
    DecidedAlike (do return f (← conversion)) Q := by
  cases h with
  | refused cause h =>
    refine .refused cause fun s => ?_
    obtain ⟨s', hrun, hdiagnostics⟩ := h s
    exact ⟨s', Session.run_bind_of_error hrun, hdiagnostics⟩
  | accepted a ha h =>
    refine .accepted (f a) (hf a ha) fun s => ?_
    obtain ⟨a', s', hrun, hconfig, hdiagnostics, heq⟩ := h s
    exact ⟨f a', s', Session.run_bind_of_ok hrun, hconfig, hdiagnostics,
      fun hinteger => congrArg f (heq hinteger)⟩

/-- Two operations in a row, of which the second does not depend on the result of the first. -/
theorem map₂ {conversion' : Convert β} {f : α → β → γ} (h : DecidedAlike conversion P)
    (h' : DecidedAlike conversion' Q) (hf : ∀ a b, P a → Q b → R (f a b)) :
    DecidedAlike (do return f (← conversion) (← conversion')) R := by
  cases h with
  | refused cause h =>
    refine .refused cause fun s => ?_
    obtain ⟨s', hrun, hdiagnostics⟩ := h s
    exact ⟨s', Session.run_bind_of_error hrun, hdiagnostics⟩
  | accepted a ha h =>
    cases h' with
    | refused cause h' =>
      refine .refused cause fun s => ?_
      obtain ⟨a', s₁, hrun₁, -, hdiagnostics₁, -⟩ := h s
      obtain ⟨s₂, hrun₂, hdiagnostics₂⟩ := h' s₁
      exact ⟨s₂, (Session.run_bind_of_ok hrun₁).trans (Session.run_bind_of_error hrun₂),
        hdiagnostics₂.trans hdiagnostics₁⟩
    | accepted b hb h' =>
      refine .accepted (f a b) (hf a b ha hb) fun s => ?_
      obtain ⟨a', s₁, hrun₁, hconfig₁, hdiagnostics₁, heq₁⟩ := h s
      obtain ⟨b', s₂, hrun₂, hconfig₂, hdiagnostics₂, heq₂⟩ := h' s₁
      have hencoding : s₁.encoding = s.encoding := congrArg EncodingConfig.encoding hconfig₁
      refine ⟨f a' b', s₂, (Session.run_bind_of_ok hrun₁).trans (Session.run_bind_of_ok hrun₂),
        hconfig₂.trans hconfig₁, hdiagnostics₂.trans hdiagnostics₁, fun hinteger => ?_⟩
      rw [heq₁ hinteger, heq₂ (hencoding ▸ hinteger)]

end DecidedAlike

/-! ### Implicit conversions -/

theorem Encoding.resizedBytes_of_integer {encoding : Encoding} (h : encoding ≠ .bitvector)
    (source target : UInt32) (e : Expr) :
    encoding.resizedBytes source target e = mathematical.resizedBytes source target e := by
  cases encoding with
  | bitvector => exact absurd rfl h
  | mathematical => rfl
  | modular =>
    unfold resizedBytes
    cases e.intLit? <;> rfl

theorem Encoding.convertedLiteral_of_integer {encoding : Encoding} (h : encoding ≠ .bitvector)
    (value : Int) (bits : UInt32) : encoding.convertedLiteral value bits = .int value := by
  cases encoding with
  | bitvector => exact absurd rfl h
  | mathematical | modular => rfl

theorem Shape.widen_of_integer {encoding : Encoding} (h : encoding ≠ .bitvector)
    (source target : Shape) (e : Expr) : source.widen target encoding e = e := by
  cases encoding with
  | bitvector => exact absurd rfl h
  | mathematical | modular => rfl

/-- Byte strings are refused if they get shorter. -/
theorem decidedAlike_convertScalar_bytes (source target : UInt8) (e : Expr) (shape : Shape) :
    DecidedAlike (convertScalar e (.fixedBytes source) (.fixedBytes target) shape) fun converted =>
      SourceType.resizesBytes (.fixedBytes source) (.fixedBytes target) = false →
        converted = e := by
  have hsilent := Session.silent_convertScalar e (.fixedBytes source) (.fixedBytes target) shape
  by_cases hnarrow : target.toUInt32 * 8 < source.toUInt32 * 8
  · simp only [convertScalar, byteStringBits?, if_pos hnarrow]
    exact .throw _ _
  · simp only [convertScalar, byteStringBits?, if_neg hnarrow] at hsilent ⊢
    have hsame : SourceType.resizesBytes (.fixedBytes source) (.fixedBytes target) = false →
        Encoding.mathematical.resizedBytes (source.toUInt32 * 8) (target.toUInt32 * 8) e = e := by
      intro hresizes
      obtain rfl : source = target := by simpa [SourceType.resizesBytes] using hresizes
      exact if_pos rfl
    exact .of_yields hsame hsilent fun s => ⟨_, s.yields_resizeBytes e _ _, fun hinteger =>
      Encoding.resizedBytes_of_integer hinteger _ _ e⟩

/-- All other types are refused if they narrow or drop a sign. -/
theorem decidedAlike_convertScalar_number {source target : SourceType}
    (hbytes : byteStringBits? source target = none) (e : Expr) (shape : Shape) :
    DecidedAlike (convertScalar e source target shape) fun converted =>
      source.resizesBytes target = false → converted = e := by
  have hsilent := Session.silent_convertScalar e source target shape
  cases hlit : e.intLit? with
  | some value =>
    obtain rfl := Expr.eq_int_of_intLit? hlit
    exact .of_yields (fun _ => rfl) hsilent fun s =>
      ⟨_, s.yields_convertScalar_literal hbytes value, fun hinteger =>
        Encoding.convertedLiteral_of_integer hinteger value _⟩
  | none =>
    cases hsource : source.shape? with
    | none =>
      simp only [convertScalar, hbytes, hlit, hsource]
      exact .pure fun _ => rfl
    | some sourceShape =>
      by_cases hwidens : sourceShape.Widens shape
      · exact .of_yields (fun _ => rfl) hsilent fun s =>
          ⟨_, s.yields_convertScalar hsource hbytes hwidens hlit, fun hinteger =>
            Shape.widen_of_integer hinteger _ _ e⟩
      · obtain ⟨cause, hrefused⟩ :=
          exists_inconsistent_of_not_widens hsource hbytes hwidens hlit
        exact .refused cause fun s => ⟨s, hrefused s, rfl⟩

theorem decidedAlike_convertScalar (source target : SourceType) (e : Expr) (shape : Shape) :
    DecidedAlike (convertScalar e source target shape) fun converted =>
      source.resizesBytes target = false → converted = e := by
  cases hbytes : byteStringBits? source target with
  | none => exact decidedAlike_convertScalar_number hbytes e shape
  | some bits =>
    cases source with
    | fixedBytes source =>
      cases target with
      | fixedBytes target => exact decidedAlike_convertScalar_bytes source target e shape
      | _ => cases hbytes
    | _ => cases hbytes

/-- The parts of a tuple conversion are refused without a look at the encoding. -/
theorem tupleParts_eq_error {e : Expr} {source target : SourceType} {arity : Nat}
    {error : EncodingError} (h : tupleParts e source target arity = .error error) :
    ∃ cause, error = .inconsistent cause := by
  cases source with
  | tuple sources =>
    simp only [tupleParts] at h
    split at h
    · cases e with
      | tuple elements =>
        simp only at h
        split at h <;> cases h
        exact ⟨_, rfl⟩
      | _ =>
        cases h
        exact ⟨_, rfl⟩
    · cases h
      exact ⟨_, rfl⟩
  | _ =>
    cases h
    exact ⟨_, rfl⟩

mutual

/-- A conversion is decided by the types and the form of the expression alone, and it leaves the
expression as it is where it resizes no byte string. -/
theorem decidedAlike_implicitConversion :
    ∀ (target source : SourceType) (e : Expr),
      DecidedAlike (implicitConversion e source target) fun converted =>
        source.resizesBytes target = false → converted = e
  | .tuple targets, source, e => by
    rw [implicitConversion]
    cases hparts : tupleParts e source (.tuple targets) targets.length with
    | error error =>
      obtain ⟨cause, rfl⟩ := tupleParts_eq_error hparts
      exact .throw cause _
    | ok parts =>
      obtain ⟨elements, sources⟩ := parts
      obtain ⟨rfl, rfl, helements, hsources⟩ := tupleParts_eq_ok hparts
      refine (decidedAlike_convertComponents targets sources elements helements hsources).map ?_
      intro converted hsame hresizes
      rw [hsame hresizes]
  | .bool, _, _ | .address, _, _ | .bytes, _, _ | .string, _, _ | .array _ _, _, _
  | .mapping _ _, _, _ | .contract _, _, _ => .pure fun _ => rfl
  | .uint _, source, e | .int _, source, e | .fixedBytes _, source, e | .enum _ _, source, e =>
    decidedAlike_convertScalar source _ e _

/-- Component by component. -/
theorem decidedAlike_convertComponents :
    ∀ (targets sources : List (Option SourceType)) (elements : List Expr),
      elements.length = targets.length → sources.length = targets.length →
      DecidedAlike (convertComponents elements sources targets) fun converted =>
        SourceType.anyResizesBytes sources targets = false → converted = elements
  | [], sources, elements, helements, _ => by
    rw [convertComponents]
    exact .pure fun _ => (List.length_eq_zero_iff.1 helements).symm
  | target? :: targets, sources, elements, helements, hsources => by
    obtain ⟨e, elements, rfl⟩ := List.exists_cons_of_length_eq_add_one helements
    obtain ⟨source?, sources, rfl⟩ := List.exists_cons_of_length_eq_add_one hsources
    have hothers := decidedAlike_convertComponents targets sources elements
      (Nat.succ.inj helements) (Nat.succ.inj hsources)
    cases target? with
    | none =>
      -- a component without a target stays, whatever its own type is
      have hfirst : DecidedAlike (pure e) (· = e) := .pure rfl
      rw [convertComponents]
      refine hfirst.map₂ hothers fun converted results hsame hsames hresizes => ?_
      rw [hsame, hsames hresizes]
    | some target =>
      cases source? with
      | none =>
        rw [convertComponents]
        exact .throw _ _
      | some source =>
        have hfirst := decidedAlike_implicitConversion target source e
        rw [convertComponents]
        refine hfirst.map₂ hothers fun converted results hsame hsames hresizes => ?_
        rw [SourceType.anyResizesBytes, Bool.or_eq_false_iff] at hresizes
        rw [hsame hresizes.1, hsames hresizes.2]

end

/-- The encodings accept the same conversions.  Either a conversion is refused for the same
inconsistency in all sessions, or it has a result in all of them; no session reports anything.  The
results of the integer encodings are the same expression, and it is the operand itself if no byte
string meets one of another size. -/
theorem implicitConversion_decided_alike (e : Expr) (source target : SourceType) :
    (∃ cause : Inconsistency, ∀ s : Session, ∃ s',
      (implicitConversion e source target).run.run s = (.error (.inconsistent cause), s') ∧
        s'.diagnostics = s.diagnostics) ∨
    ∃ converted : Expr, (source.resizesBytes target = false → converted = e) ∧
      ∀ s : Session, ∃ e' s',
        (implicitConversion e source target).run.run s = (.ok e', s') ∧
          s'.diagnostics = s.diagnostics ∧ (s.encoding ≠ .bitvector → e' = converted) := by
  cases decidedAlike_implicitConversion target source e with
  | refused cause h => exact .inl ⟨cause, h⟩
  | accepted converted hsame h =>
    refine .inr ⟨converted, hsame, fun s => ?_⟩
    obtain ⟨e', s', hrun, -, hdiagnostics, heq⟩ := h s
    exact ⟨e', s', hrun, hdiagnostics, heq⟩

/-- The sign of the second component is dropped, though the first one could be extended. -/
example :
    ((implicitConversion (.tuple [.ident "x", .ident "y"])
      (.tuple [some (.uint 8), some (.int 16)])
      (.tuple [some (.uint 16), some (.uint 16)])).run.run (Session.start ⟨.bitvector, true⟩)).1 =
      .error (.inconsistent (.droppedSign (.int 16) (.uint 16))) := rfl

end SolidityEncoding
