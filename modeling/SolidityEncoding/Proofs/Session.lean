import SolidityEncoding.Encoding.Session

/-!
# Results of session operations

An operation may declare functions and report errors, but it leaves the configuration alone, so
every operation of a run works in one encoding.  `Session.Yields` says that an operation that could
be refused has a result, and `Session.Ensures` says what its result is like if it has one; such
statements are chained by `Session.Yields.bind` and `Session.Ensures.bind`.
-/

namespace SolidityEncoding.Session

theorem run_getEncoding (s : Session) : getEncoding.run s = (s.encoding, s) := rfl

theorem config_declare (s : Session) (decl : FuncDecl) : (s.declare decl).config = s.config := by
  unfold declare
  split <;> rfl

theorem diagnostics_declare (s : Session) (decl : FuncDecl) :
    (s.declare decl).diagnostics = s.diagnostics := by
  unfold declare
  split <;> rfl

/-! ### Runs of operations in a row -/

section Runs

variable {α β : Type} {s s' : Session} {conversion : Convert α} {next : α → Convert β}

theorem run_bind_of_ok {a : α} (h : conversion.run.run s = (.ok a, s')) :
    (conversion >>= next).run.run s = (next a).run.run s' := by
  rw [ExceptT.run_bind, StateT.run_bind, h]
  rfl

/-- After a refusal nothing else is done. -/
theorem run_bind_of_error {error : EncodingError} (h : conversion.run.run s = (.error error, s')) :
    (conversion >>= next).run.run s = (.error error, s') := by
  rw [ExceptT.run_bind, StateT.run_bind, h]
  rfl

end Runs

/-- An operation that may be refused has a result, and the configuration stays. -/
def Yields {α : Type} (s : Session) (conversion : Convert α) (a : α) : Prop :=
  ∃ s', conversion.run.run s = (.ok a, s') ∧ s'.config = s.config

namespace Yields

variable {α β : Type} {s : Session}

theorem pure (s : Session) (a : α) : s.Yields (pure a) a := ⟨s, rfl, rfl⟩

/-- An operation that always has a result. -/
theorem lift {s' : Session} {operation : Encode α} {a : α} (hrun : operation.run s = (a, s'))
    (hconfig : s'.config = s.config) : s.Yields (liftM operation) a := by
  have hlift : (liftM operation : Convert α).run.run s =
      (.ok (operation.run s).1, (operation.run s).2) := rfl
  rw [hrun] at hlift
  exact ⟨s', hlift, hconfig⟩

theorem exists_run {operation : Encode α} {a : α} (h : s.Yields (liftM operation) a) :
    ∃ s', operation.run s = (a, s') ∧ s'.config = s.config := by
  obtain ⟨s', hrun, hconfig⟩ := h
  obtain ⟨hresult, rfl⟩ := Prod.mk.inj hrun
  exact ⟨_, Prod.ext (Except.ok.inj hresult) rfl, hconfig⟩

theorem bind {conversion : Convert α} {a : α} {next : α → Convert β} {b : β}
    (h : s.Yields conversion a)
    (hnext : ∀ s' : Session, s'.config = s.config → s'.Yields (next a) b) :
    s.Yields (conversion >>= next) b := by
  obtain ⟨s₁, hrun₁, hconfig₁⟩ := h
  obtain ⟨s₂, hrun₂, hconfig₂⟩ := hnext s₁ hconfig₁
  exact ⟨s₂, (run_bind_of_ok hrun₁).trans hrun₂, hconfig₂.trans hconfig₁⟩

/-- An operation that asks for the encoding goes on with the encoding of the session. -/
theorem withEncoding {next : Encoding → Convert β} {b : β} (h : s.Yields (next s.encoding) b) :
    s.Yields (liftM getEncoding >>= next) b := h

/-- A run has the result that the operation yields. -/
theorem eq_of_run {conversion : Convert α} {a b : α} {s' : Session} (h : s.Yields conversion a)
    (hrun : conversion.run.run s = (.ok b, s')) : b = a ∧ s'.config = s.config := by
  obtain ⟨s'', hyields, hconfig⟩ := h
  rw [hyields] at hrun
  cases hrun
  exact ⟨rfl, hconfig⟩

end Yields

theorem yields_extend (s : Session) (kind : Extension) {source target : UInt32}
    (hle : source ≤ target) (operand : Expr) :
    s.Yields (extend kind source target operand) (.extend kind source target operand) := by
  obtain ⟨name, hname⟩ : ∃ name, kind.smtName? source target = some name := by
    rw [Extension.smtName?, if_pos hle]
    cases kind <;> exact ⟨_, rfl⟩
  simp only [extend, Extension.declaration?, hname, Option.map_some]
  exact ⟨_, rfl, config_declare s _⟩

/-- Whatever results from an operation in a session of an encoding has a property, and the encoding
stays. -/
def Ensures {α : Type} (encoding : Encoding) (conversion : Convert α) (P : α → Prop) : Prop :=
  ∀ s : Session, s.encoding = encoding → ∀ a s', conversion.run.run s = (.ok a, s') →
    P a ∧ s'.encoding = encoding

namespace Ensures

variable {α β : Type} {encoding : Encoding} {P : α → Prop} {Q : β → Prop}

theorem pure {a : α} (h : P a) : Ensures encoding (pure a) P := by
  intro s hs a' s' hrun
  cases hrun
  exact ⟨h, hs⟩

theorem throw (error : EncodingError) : Ensures encoding (throw error) P := by
  intro s hs a s' hrun
  cases hrun

theorem of_yields {conversion : Convert α}
    (h : ∀ s : Session, s.encoding = encoding → ∃ a, s.Yields conversion a ∧ P a) :
    Ensures encoding conversion P := by
  intro s hs a s' hrun
  obtain ⟨a', ⟨s'', hrun', hconfig⟩, ha⟩ := h s hs
  rw [hrun'] at hrun
  cases hrun
  exact ⟨ha, (congrArg EncodingConfig.encoding hconfig).trans hs⟩

theorem bind {conversion : Convert α} {next : α → Convert β}
    (h : Ensures encoding conversion P) (hnext : ∀ a, P a → Ensures encoding (next a) Q) :
    Ensures encoding (conversion >>= next) Q := by
  intro s hs b s' hrun
  rcases hfirst : conversion.run.run s with ⟨error | a, s₁⟩
  · rw [run_bind_of_error hfirst] at hrun
    cases hrun
  · rw [run_bind_of_ok hfirst] at hrun
    obtain ⟨ha, hs₁⟩ := h s hs a s₁ hfirst
    exact hnext a ha s₁ hs₁ b s' hrun

/-- An operation that asks for the encoding goes on with the encoding of the session. -/
theorem withEncoding {next : Encoding → Convert β} (h : Ensures encoding (next encoding) Q) :
    Ensures encoding (liftM getEncoding >>= next) Q := by
  intro s hs b s' hrun
  subst hs
  exact h s rfl b s' hrun

/-- After a refusal nothing else is done. -/
theorem refused (error : EncodingError) (next : α → Convert β) :
    Ensures encoding (throwThe EncodingError error >>= next) Q :=
  bind (P := fun _ => False) (throw error) nofun

theorem ite {condition : Prop} [Decidable condition] {conversion conversion' : Convert α}
    (hthen : condition → Ensures encoding conversion P)
    (helse : ¬ condition → Ensures encoding conversion' P) :
    Ensures encoding (if condition then conversion else conversion') P := by
  split
  · exact hthen ‹_›
  · exact helse ‹_›

end Ensures

end SolidityEncoding.Session
