import Mathlib.Algebra.BigOperators.Group.Finset.Basic
import SolidityEncoding.Proofs.Transfer.Outcomes

/-!
# Conservation of balances

Transfers and sends of the modular encoding move balances and neither create nor destroy them.  One
run leaves the balances or moves an amount (`exists_run`), a move keeps the sum over all accounts
that contain both sides (`total_moved`), and by induction so does every sequence of runs.  If
overflow is not checked, a credit may wrap around, and what is kept is the residue of the sum.
-/

namespace SolidityEncoding

open Transfer

/-! ### Sums of balances -/

namespace TotalMap

/-- The sum of the balances of finitely many accounts. -/
def total (b : TotalMap) (accounts : Finset Value) : Int :=
  ∑ account ∈ accounts, (b.get account).number

variable {b : TotalMap} {accounts : Finset Value} {encoding : Encoding} {t s a : Value}

theorem total_set (hb : b.Canonical) (ht : t ∈ accounts) (value : Value) :
    (b.set t value).total accounts = b.total accounts + (value.number - (b.get t).number) := by
  have hrest : ∑ account ∈ accounts.erase t, ((b.set t value).get account).number =
      ∑ account ∈ accounts.erase t, (b.get account).number :=
    Finset.sum_congr rfl fun account h => by
      rw [get_set_of_ne hb (Finset.ne_of_mem_erase h).symm]
  have hafter :=
    Finset.add_sum_erase accounts (fun account => ((b.set t value).get account).number) ht
  have hbefore := Finset.add_sum_erase accounts (fun account => (b.get account).number) ht
  simp only [get_set_self hb] at hafter
  rw [total, total, ← hafter, ← hbefore, hrest]
  omega

theorem total_moved (hb : b.Canonical) (hne : t ≠ s) (ht : t ∈ accounts) (hs : s ∈ accounts) :
    (b.moved encoding t s a).total accounts = b.total accounts +
      ((encoding.word ((b.get t).number + a.number)).number - (b.get t).number) +
      ((encoding.word ((b.get s).number - a.number)).number - (b.get s).number) := by
  have hcredit : (b.credit encoding t a).Canonical := hb.set _ _
  rw [moved, if_neg hne, total_set hcredit hs, credit, total_set hb ht, get_set_of_ne hb hne]

theorem total_moved_modEq (hb : b.Canonical) (ht : t ∈ accounts) (hs : s ∈ accounts) :
    (b.moved encoding t s a).total accounts ≡ b.total accounts [ZMOD pow2 256] := by
  by_cases heq : t = s
  · rw [moved, if_pos heq]
  rw [total_moved hb heq ht hs]
  have hadd := (Encoding.number_word_modEq encoding ((b.get t).number + a.number)).sub_right
    (b.get t).number
  have hsub := (Encoding.number_word_modEq encoding ((b.get s).number - a.number)).sub_right
    (b.get s).number
  refine (((Int.ModEq.refl (b.total accounts)).add hadd).add hsub).trans ?_
  rw [show b.total accounts + ((b.get t).number + a.number - (b.get t).number) +
    ((b.get s).number - a.number - (b.get s).number) = b.total accounts by omega]

/-- A move that wraps neither balance keeps the sum. -/
theorem total_moved_of_contains (hb : b.Canonical) (ht : t ∈ accounts) (hs : s ∈ accounts)
    (hadd : uint256.Contains ((b.get t).number + a.number))
    (hsub : uint256.Contains ((b.get s).number - a.number)) :
    (b.moved encoding t s a).total accounts = b.total accounts := by
  by_cases heq : t = s
  · rw [moved, if_pos heq]
  rw [total_moved hb heq ht hs, Encoding.number_word fun _ => hadd,
    Encoding.number_word fun _ => hsub]
  omega

end TotalMap

namespace Transfer

/-! ### One run -/

/-- Balances change by nothing or by a move that is accepted. -/
def Step (config : EncodingConfig) (t s a : Value) (b b' : TotalMap) : Prop :=
  b' = b ∨ b' = b.moved .modular t s a ∧ uint256.Contains a.number ∧
    a.number ≤ (b.get s).number ∧ ¬ Rejects config ((b.get t).number + a.number)

/-- A store holds balances that are a step away. -/
def EndsIn (config : EncodingConfig) (t s a : Value) (b : TotalMap) (store : Store) : Prop :=
  ∃ b', store.find? Reserved.balance = some b'.toValue ∧ Step config t s a b b'

variable {config : EncodingConfig} {globals store : Store} {b : TotalMap} {t s v : Value} {a : Int}

theorem endsIn_self (hstore : store.find? Reserved.balance = some b.toValue) :
    EndsIn config t s (.int a) b store :=
  ⟨b, hstore, Or.inl rfl⟩

/-- A move that ends normally was accepted, and reporting success leaves the balances alone. -/
theorem endsIn_of_credited {entry : Store} (hmodular : config.encoding = .modular)
    (ha : uint256.Contains a) (hle : a ≤ (b.get s).number)
    (h : credited config entry b t (.int a) (b.moved config.encoding t s (.int a)) =
      .normal store) : EndsIn config t s (.int a) b store := by
  have haccepted : ¬ Rejects config ((b.get t).number + a) :=
    not_rejects_of_credited (congrArg Outcome.isFailure h)
  rw [credited_of_not_rejects haccepted, hmodular] at h
  cases h
  exact ⟨_, Table.find?_insert_self _ _ _, Or.inr ⟨rfl, ha, hle, haccepted⟩⟩

theorem endsIn_of_succeeded {outcome : Outcome}
    (houtcome : ∀ store, outcome = .normal store → EndsIn config t s (.int a) b store)
    (h : succeeded outcome = .normal store) : EndsIn config t s (.int a) b store := by
  cases outcome with
  | normal before =>
    cases h
    obtain ⟨b', hbefore, hstep⟩ := houtcome before rfl
    exact ⟨b', (Table.find?_insert_of_ne _ (by decide) _).trans hbefore, hstep⟩
  | failed before message => cases h

/-- Every run of a transfer or a send has outcomes, and the normal ones are a step away. -/
theorem exists_run (hmodular : config.encoding = .modular) {p : Primitive} (hp : p ≠ .call)
    (hb : b.HoldsWords .modular) (hglobals : globals.find? Reserved.balance = some b.toValue)
    (t s v : Value) (a : Int) :
    ∃ outcomes, (p.procedure config).run [t, s, v, .int a] globals = .ok outcomes ∧
      ∀ store, .normal store ∈ outcomes → EndsIn config t s (.int a) b store := by
  have hword : ∀ account, config.encoding.IsWord (b.get account) := hmodular ▸ hb.get
  have hty : (Value.int a).HasTy (config.encoding.wordTy 256) := hmodular ▸ .int a
  have hsend := (scope_sendStore hglobals t s v (.int a)).balance
  -- An amount that is out of range passes the check of funds if it is negative, but no update.
  by_cases ha : uint256.Contains a
  · have hamount : config.encoding.IsWord (.int a) := ⟨hty, fun _ => ha⟩
    cases p with
    | transfer =>
      refine ⟨_, run_transfer hb.canonical hglobals (hword t) (hword s) hamount, ?_⟩
      intro store hmem
      split at hmem
      · next hle => exact endsIn_of_credited hmodular ha hle (List.mem_singleton.1 hmem).symm
      · cases hmem
    | send =>
      refine ⟨_, run_send hb.canonical hglobals (hword t) (hword s) hamount, ?_⟩
      intro store hmem
      split at hmem
      · next hle =>
        rcases List.mem_cons.1 hmem with hmem | hmem
        · exact endsIn_of_succeeded (fun _ => endsIn_of_credited hmodular ha hle) hmem.symm
        · cases List.mem_singleton.1 hmem
          exact endsIn_self hsend
      · cases hmem
    | call => exact absurd rfl hp
  · cases p with
    | transfer =>
      exact ⟨_, run_transfer_of_not_contains hmodular hglobals (hword t) (hword s) hty ha, nofun⟩
    | send =>
      refine ⟨_, run_send_of_not_contains hmodular hglobals (hword t) (hword s) hty ha, ?_⟩
      intro store hmem
      split at hmem
      · cases List.mem_singleton.1 hmem
        exact endsIn_self hsend
      · cases hmem
    | call => exact absurd rfl hp

theorem Step.holdsWords {b' : TotalMap} (h : Step config t s (.int a) b b')
    (hb : b.HoldsWords .modular) : b'.HoldsWords .modular := by
  rcases h with rfl | ⟨rfl, -⟩
  · exact hb
  · exact hb.moved t s _

/-- A step conserves the sum of balances, up to reduction if overflow is not checked. -/
theorem Step.conserves {b' : TotalMap} {accounts : Finset Value}
    (h : Step config t s (.int a) b b') (hmodular : config.encoding = .modular)
    (hb : b.HoldsWords .modular) (ht : t ∈ accounts) (hs : s ∈ accounts) :
    (config.checkOverflow = true → b'.total accounts = b.total accounts) ∧
      b'.total accounts ≡ b.total accounts [ZMOD pow2 256] := by
  rcases h with rfl | ⟨rfl, ha, hle, haccepted⟩
  · exact ⟨fun _ => rfl, rfl⟩
  refine ⟨fun hcheck => ?_, TotalMap.total_moved_modEq hb.canonical ht hs⟩
  have hadd := contains_of_not_rejects hmodular hcheck haccepted
  have hsub : uint256.Contains ((b.get s).number - a) :=
    Encoding.contains_sub ((hb.get s).inRange rfl) ha hle
  exact TotalMap.total_moved_of_contains hb.canonical ht hs hadd hsub

/-! ### Sequences of runs -/

/-- The stores that sequences of runs of transfers and sends can end in, with the accounts that took
part.  The first run starts from given balances, and every other one from the balances of a normal
outcome of the run before.  All else that a run starts from is arbitrary. -/
inductive Reaches (program : Program) (start : TotalMap) : List Value → Store → Prop where
  | start {store : Store} (h : store.find? Reserved.balance = some start.toValue) :
    Reaches program start [] store
  | run {accounts : List Value} {last globals store : Store} {p : Primitive} {proc : Procedure}
      {outcomes : List Outcome} {t s v : Value} {a : Int}
      (hlast : Reaches program start accounts last)
      (hglobals : globals.find? Reserved.balance = last.find? Reserved.balance)
      (hp : p ≠ .call) (hproc : program.procedure? p.name = some proc)
      (hrun : proc.run [t, s, v, .int a] globals = .ok outcomes)
      (hnormal : .normal store ∈ outcomes) :
    Reaches program start (t :: s :: accounts) store

/-- A store holds balances in range that conserve the sum of the balances from the start. -/
def Conserves (config : EncodingConfig) (start : TotalMap) (used : List Value) (store : Store) :
    Prop :=
  ∃ b : TotalMap, store.find? Reserved.balance = some b.toValue ∧ b.HoldsWords .modular ∧
    ∀ accounts : Finset Value, (∀ account ∈ used, account ∈ accounts) →
      (config.checkOverflow = true → b.total accounts = start.total accounts) ∧
      b.total accounts ≡ start.total accounts [ZMOD pow2 256]

theorem reaches_conserves {program : Program} {start : TotalMap} {used : List Value}
    (hmodular : config.encoding = .modular)
    (hprogram : ∀ p : Primitive, program.procedure? p.name = some (p.procedure config))
    (hstart : start.HoldsWords .modular) (h : Reaches program start used store) :
    Conserves config start used store := by
  -- Besides the sums, balances in range are carried along: the next run is executed on them.
  induction h with
  | start h => exact ⟨start, h, hstart, fun _ _ => ⟨fun _ => rfl, rfl⟩⟩
  | @run used last globals store p proc outcomes t s v a hlast hglobals hp hproc hrun hnormal ih =>
    obtain ⟨b, hb, hwords, hsum⟩ := ih
    obtain ⟨outcomes', hrun', hends⟩ := exists_run hmodular hp hwords (hglobals.trans hb) t s v a
    obtain rfl : proc = p.procedure config := Option.some.inj (hproc.symm.trans (hprogram p))
    obtain rfl : outcomes = outcomes' := Except.ok.inj (hrun.symm.trans hrun')
    obtain ⟨b', hstore, hstep⟩ := hends store hnormal
    refine ⟨b', hstore, hstep.holdsWords hwords, fun accounts haccounts => ?_⟩
    simp only [List.mem_cons, forall_eq_or_imp] at haccounts
    obtain ⟨ht, hs, hused⟩ := haccounts
    obtain ⟨hexact, hmod⟩ := hsum accounts hused
    obtain ⟨hexact', hmod'⟩ := hstep.conserves hmodular hwords ht hs
    exact ⟨fun hcheck => (hexact' hcheck).trans (hexact hcheck), hmod'.trans hmod⟩

/-- Conservation over all sequences of transfers and sends under the modular encoding: every balance
stays in range, and the sum over finitely many accounts that include all that took part is the one
from the start if overflow is checked, and congruent to it if not.  No run fails to be executed. -/
theorem balances_conserved (checkOverflow : Bool) :
    ∃ d, builtinProgram ⟨.modular, checkOverflow⟩ = .ok d ∧
      ∀ (start : TotalMap) (used : List Value) (store : Store), start.HoldsWords .modular →
        Reaches d.program start used store →
        (∃ b : TotalMap, store.find? Reserved.balance = some b.toValue ∧
          (∀ account, ∃ n, b.get account = .int n ∧ 0 ≤ n ∧ n < 2 ^ 256) ∧
          ∀ accounts : Finset Value, (∀ account ∈ used, account ∈ accounts) →
            if checkOverflow then b.total accounts = start.total accounts
            else b.total accounts ≡ start.total accounts [ZMOD 2 ^ 256]) ∧
        ∀ p : Primitive, p ≠ .call → ∃ proc, d.program.procedure? p.name = some proc ∧
          ∀ (globals : Store) (t s v : Value) (a : Int),
            globals.find? Reserved.balance = store.find? Reserved.balance →
            ∃ outcomes, proc.run [t, s, v, .int a] globals = .ok outcomes := by
  obtain ⟨d, hd, hprogram⟩ := procedure?_builtinProgram ⟨.modular, checkOverflow⟩
  refine ⟨d, hd, fun start used store hstart hreaches => ?_⟩
  have hmodular : (⟨.modular, checkOverflow⟩ : EncodingConfig).encoding = .modular := rfl
  obtain ⟨b, hstore, hwords, hsum⟩ := reaches_conserves hmodular hprogram hstart hreaches
  refine ⟨⟨b, hstore, fun account => ?_, fun accounts hused => ?_⟩, fun p hp => ?_⟩
  · obtain ⟨n, hn, hcontains⟩ := Encoding.isWord_modular_iff.1 (hwords.get account)
    exact ⟨n, hn, Shape.contains_unsigned_iff.1 hcontains⟩
  · obtain ⟨hexact, hmod⟩ := hsum accounts hused
    split
    · next hcheck => exact hexact hcheck
    · exact hmod
  · refine ⟨_, hprogram p, fun globals t s v a hglobals => ?_⟩
    obtain ⟨outcomes, hrun, -⟩ := exists_run hmodular hp hwords (hglobals.trans hstore) t s v a
    exact ⟨outcomes, hrun⟩

/-- A transfer of 30 from an account that holds 100 to one that holds nothing. -/
theorem balances_conserved_one_transfer :
    let start := (TotalMap.const (.int 0)).set (.int 1) (.int 100)
    ∃ d, builtinProgram ⟨.modular, true⟩ = .ok d ∧
      ∃ store, Reaches d.program start [.int 2, .int 1] store ∧
        ∃ b : TotalMap, store.find? Reserved.balance = some b.toValue ∧
          b.total {.int 1, .int 2} = 100 := by
  intro start
  let config : EncodingConfig := ⟨.modular, true⟩
  let globals : Store := Table.empty.insert Reserved.balance start.toValue
  have hstart : start.HoldsWords .modular :=
    (TotalMap.holdsWords_const (Encoding.isWord_int (by decide))).set _
      (Encoding.isWord_int (by decide))
  have hamount : config.encoding.IsWord (.int 30) := Encoding.isWord_int (by decide)
  have hrun : (Primitive.transfer.procedure config).run [.int 2, .int 1, .int 0, .int 30] globals =
      .ok [.normal ((amountStore globals (.int 2) (.int 1) (.int 0) (.int 30)).insert
        Reserved.balance (start.moved .modular (.int 2) (.int 1) (.int 30)).toValue)] := by
    rw [run_transfer hstart.canonical rfl (hstart.get _) (hstart.get _) hamount,
      if_pos (by decide), credited, if_neg (by decide)]
  obtain ⟨d, hd, hconserved⟩ := balances_conserved true
  obtain ⟨d', hd', hprogram⟩ := procedure?_builtinProgram config
  obtain rfl : d = d' := Except.ok.inj (hd.symm.trans hd')
  have hglobals : Reaches d.program start [] globals := .start rfl
  have htransfer : Primitive.transfer ≠ .call := nofun
  have hreaches := hglobals.run rfl htransfer (hprogram .transfer) hrun List.mem_cons_self
  obtain ⟨⟨b, hstore, -, hsum⟩, -⟩ := hconserved start _ _ hstart hreaches
  exact ⟨d, hd, _, hreaches, b, hstore, (hsum {.int 1, .int 2} (by decide)).trans (by decide)⟩

end Transfer

end SolidityEncoding
