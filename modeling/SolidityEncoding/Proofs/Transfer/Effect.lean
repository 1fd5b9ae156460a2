import SolidityEncoding.Proofs.Transfer.Outcomes

/-!
# The effect of a transfer

`__transfer` has at most one outcome.  Without funds there is none, and with funds it is a move of
the amount, unless the modular encoding is to check overflow and the credit overflows.
-/

namespace SolidityEncoding.Transfer

variable {config : EncodingConfig} {b : TotalMap} {t s a : Value}

/-- The credit of a transfer overflows, and the configuration is one that asserts that it does
not. -/
def Overflows (config : EncodingConfig) (b : TotalMap) (t a : Value) : Prop :=
  config.encoding = .modular ∧ config.checkOverflow = true ∧
    pow2 256 ≤ (b.get t).number + a.number

instance : Decidable (Overflows config b t a) := inferInstanceAs (Decidable (_ ∧ _))

/-- Numbers of words are not negative where they are bounded, so a sum can only be too large. -/
theorem rejects_add_iff (ht : config.encoding.IsWord (b.get t)) (ha : config.encoding.IsWord a) :
    Rejects config ((b.get t).number + a.number) ↔ Overflows config b t a := by
  unfold Rejects Overflows
  refine and_congr_right fun hmodular => and_congr_right fun _ => ?_
  have hct := ht.inRange hmodular
  have hca := ha.inRange hmodular
  rw [uint256, Shape.contains_unsigned_iff] at hct hca ⊢
  omega

/-- The outcomes of a transfer of `a` from `s` to `t` with balances `b`. -/
structure Effect (config : EncodingConfig) (b : TotalMap) (t s a : Value)
    (outcomes : List Outcome) : Prop where
  withoutFunds : (b.get s).number < a.number → outcomes = []
  withFunds : a.number ≤ (b.get s).number → ∃ outcome, outcomes = [outcome]
  overflow : ∀ outcome ∈ outcomes, Overflows config b t a →
    outcome.isFailure = true ∧ outcome.message? = some "Balance overflow" ∧
      outcome.store.find? Reserved.balance = some b.toValue
  moved : ∀ outcome ∈ outcomes, ¬ Overflows config b t a →
    outcome.isFailure = false ∧ ∃ b', outcome.store.find? Reserved.balance = some b'.toValue ∧
      b.MovedTo config.encoding t s a b'
  noUnderflow : ∀ outcome ∈ outcomes, outcome.message? ≠ some "Balance underflow"

/-- The outcome of a credit shows whether the credit overflows. -/
theorem effect_credited {store : Store} (hle : a.number ≤ (b.get s).number)
    (hstore : store.find? Reserved.balance = some b.toValue) (hb : b.Canonical)
    (ht : config.encoding.IsWord (b.get t)) (ha : config.encoding.IsWord a) :
    Effect config b t s a [credited config store b t a (b.moved config.encoding t s a)] where
  withoutFunds hlt := absurd hle (not_le.2 hlt)
  withFunds _ := ⟨_, rfl⟩
  overflow outcome hmem hoverflow := by
    rw [List.mem_singleton.1 hmem, credited_of_rejects ((rejects_add_iff ht ha).2 hoverflow)]
    exact ⟨rfl, rfl, hstore⟩
  moved outcome hmem hoverflow := by
    have haccepted := mt (rejects_add_iff ht ha).1 hoverflow
    rw [List.mem_singleton.1 hmem, credited_of_not_rejects haccepted]
    exact ⟨rfl, _, Table.find?_insert_self _ _ _, TotalMap.movedTo_moved hb _ t s a⟩
  noUnderflow outcome hmem := by
    rw [List.mem_singleton.1 hmem, credited]
    split
    · show some "Balance overflow" ≠ some "Balance underflow"
      decide
    · exact nofun

theorem effect_nil (hlt : (b.get s).number < a.number) : Effect config b t s a [] where
  withoutFunds _ := rfl
  withFunds hle := absurd hle (not_le.2 hlt)
  overflow := nofun
  moved := nofun
  noUnderflow := nofun

/-- The effect of the transfer procedure in every configuration: for all balances of the type that
the encoding gives them, all accounts and every amount, all in range if the encoding is modular. -/
theorem transfer_effect (config : EncodingConfig) :
    ∃ d proc, builtinProgram config = .ok d ∧
      d.program.procedure? Reserved.transfer = some proc ∧
      ∀ (globals : Store) (b : TotalMap) (t s v a : Value), b.Canonical →
        b.toValue.HasTy config.encoding.balanceTy →
        globals.find? Reserved.balance = some b.toValue →
        a.HasTy (config.encoding.wordTy 256) →
        (config.encoding = .modular → uint256.Contains (b.get t).number ∧
          uint256.Contains (b.get s).number ∧ uint256.Contains a.number) →
        ∃ outcomes, proc.run [t, s, v, a] globals = .ok outcomes ∧
          Effect config b t s a outcomes := by
  obtain ⟨d, hprogram, hprocedure⟩ := procedure?_builtinProgram config
  refine ⟨d, _, hprogram, hprocedure .transfer, ?_⟩
  intro globals b t s v a hb hbalance hglobals hamount hrange
  have ht : config.encoding.IsWord (b.get t) :=
    ⟨TotalMap.get_hasTy hbalance t, fun h => (hrange h).1⟩
  have hs : config.encoding.IsWord (b.get s) :=
    ⟨TotalMap.get_hasTy hbalance s, fun h => (hrange h).2.1⟩
  have ha : config.encoding.IsWord a := ⟨hamount, fun h => (hrange h).2.2⟩
  refine ⟨_, run_transfer hb hglobals ht hs ha, ?_⟩
  split
  · next hle =>
    exact effect_credited hle (scope_amountStore hglobals t s v a).balance hb ht ha
  · next hlt => exact effect_nil (not_le.1 hlt)

/-- An account that holds the greatest word is sent one more. -/
theorem transfer_effect_greatest_word :
    let greatest := pow2 256 - 1
    let b := ((TotalMap.const (.int 0)).set (.int 1) (.int 5)).set (.int 2) (.int greatest)
    let globals : Store := Table.empty.insert Reserved.balance b.toValue
    ∃ d proc, builtinProgram ⟨.modular, true⟩ = .ok d ∧
      d.program.procedure? Reserved.transfer = some proc ∧
      ∃ outcome, proc.run [.int 2, .int 1, .int 0, .int 1] globals = .ok [outcome] ∧
        outcome.isFailure = true ∧ outcome.message? = some "Balance overflow" ∧
        outcome.store.find? Reserved.balance = some b.toValue := by
  intro greatest b globals
  obtain ⟨d, proc, hprogram, hprocedure, heffect⟩ := transfer_effect ⟨.modular, true⟩
  have hb : b.Canonical := ((TotalMap.canonical_const _).set _ _).set _ _
  have hconst : (TotalMap.const (.int 0)).toValue.HasTy (Encoding.balanceTy .modular) :=
    .map (.int 0) (List.forall_mem_nil _) (List.forall_mem_nil _)
  have hbalance : b.toValue.HasTy (Encoding.balanceTy .modular) :=
    TotalMap.set_hasTy (TotalMap.set_hasTy hconst (.named 1 _) (.int 5)) (.named 2 _)
      (.int greatest)
  obtain ⟨outcomes, hrun, houtcomes⟩ := heffect globals b (.int 2) (.int 1) (.int 0) (.int 1) hb
    hbalance rfl (.int 1) fun _ => by decide
  obtain ⟨outcome, rfl⟩ := houtcomes.withFunds (by decide)
  have hoverflows : Overflows ⟨.modular, true⟩ b (.int 2) (.int 1) := by decide
  exact ⟨d, proc, hprogram, hprocedure, outcome, hrun,
    houtcomes.overflow outcome List.mem_cons_self hoverflows⟩

end SolidityEncoding.Transfer
