import SolidityEncoding.Proofs.Transfer.Effect

/-!
# Attempts to move Ether

`__send` and `__call` have no outcome besides success and failure (`attempts_have_two_outcomes`).
`__send` repeats the outcomes of `__transfer` with success reported and adds the failure that leaves
the balances alone; `__call` has the outcome of one credit, if there is one, before such a failure.

Nothing is taken to be in range here.  What an update does is a function of the balances alone: the
`Change` that it makes, unless the modular encoding drops it for a number that is out of range.  A
move may so be dropped between its credit and its debit.  Procedures that move the same amount in
different stores go through the same change.
-/

namespace SolidityEncoding.Transfer

open Stmt

/-! ### Changes of balances -/

/-- What updates that are not dropped do to the balances. -/
inductive Change where
  /-- The balances that were written. -/
  | written (b : TotalMap)
  /-- The balances at an assertion that did not hold, and its message. -/
  | rejected (b : TotalMap) (message : String)

namespace Change

/-- The outcome of a change in a store. -/
def outcome (store : Store) : Change → Outcome
  | .written b => .normal (store.insert Reserved.balance b.toValue)
  | .rejected b message => .failed (store.insert Reserved.balance b.toValue) (some message)

/-- The outcomes of a change in a store, of which there are none if it is dropped. -/
def outcomes (store : Store) (change : Option Change) : List Outcome :=
  (change.map (outcome store)).toList

/-- Goes on from the balances that were written. -/
def andThen (next : TotalMap → Option Change) : Change → Option Change
  | .written b => next b
  | .rejected b message => some (.rejected b message)

/-- A change replaces the balances of a store, whatever they are. -/
theorem outcome_insert (store : Store) (balances : Value) :
    outcome (store.insert Reserved.balance balances) = outcome store := by
  funext change
  cases change <;> simp only [outcome, Table.insert_insert]

end Change

/-- The modular encoding drops an operation on a balance and an amount unless both are in range. -/
def Admits (config : EncodingConfig) (balance amount : Value) : Prop :=
  config.encoding = .modular →
    uint256.Contains balance.number ∧ uint256.Contains amount.number

instance (config : EncodingConfig) (balance amount : Value) :
    Decidable (Admits config balance amount) :=
  inferInstanceAs (Decidable (_ → _))

/-- The change that an operation on the balance of an account makes. -/
def update (config : EncodingConfig) (op : WrappedOp) (account amount : Value) (b : TotalMap) :
    Option Change :=
  let result := op.exact (b.get account).number amount.number
  if Admits config (b.get account) amount then
    if Rejects config result then some (.rejected b (overflowMessage op.source))
    else some (.written (b.set account (config.encoding.word result)))
  else none

/-- The change that a move makes: that of the credit and then that of the debit. -/
def move (config : EncodingConfig) (t s a : Value) (b : TotalMap) : Option Change :=
  (update config .add t a b).bind (Change.andThen (update config .sub s a))

/-! ### Runs -/

/-- Balances are a map in the form of maps, and each of them has the word type. -/
structure Typed (encoding : Encoding) (b : TotalMap) : Prop where
  canonical : b.Canonical
  hasTy : ∀ account, (b.get account).HasTy (encoding.wordTy 256)

section Run

variable {config : EncodingConfig} {globals store : Store} {b : TotalMap} {t s v a : Value}

theorem Typed.update {op : WrappedOp} {b' : TotalMap} (hb : Typed config.encoding b)
    (h : update config op t a b = some (.written b')) : Typed config.encoding b' := by
  rw [Transfer.update] at h
  split at h <;> try cases h
  split at h <;> cases h
  refine ⟨hb.canonical.set _ _, fun other => ?_⟩
  rw [TotalMap.get_set hb.canonical]
  split
  · exact (Encoding.isWord_word _ _).hasTy
  · exact hb.hasTy other

/-- An update makes its change of the balances, and nothing else. -/
theorem run_update {op : WrappedOp} (hop : op ≠ .div) {account amount : Expr}
    (hstore : store.find? Reserved.balance = some b.toValue)
    (haccount : account.eval store = .ok t) (hamount : amount.eval store = .ok a)
    (hb : Typed config.encoding b) (ha : a.HasTy (config.encoding.wordTy 256)) :
    run (updateStmts config op account amount) store =
      .ok (Change.outcomes store (update config op t a b)) := by
  rw [update]
  by_cases hadmits : Admits config (b.get t) a
  · rw [if_pos hadmits, run_updateStmts hop hstore haccount hamount
      ⟨hb.hasTy t, fun h => (hadmits h).1⟩ ⟨ha, fun h => (hadmits h).2⟩]
    by_cases hrejects : Rejects config (op.exact (b.get t).number a.number)
    · rw [if_pos hrejects, if_pos hrejects, Change.outcomes, Option.map_some, Change.outcome,
        Table.insert_of_find? hstore]
      rfl
    · rw [if_neg hrejects, if_neg hrejects]
      rfl
  · obtain ⟨hmodular, hnot⟩ := Classical.not_imp.1 hadmits
    rw [if_neg hadmits]
    exact run_updateStmts_of_not_contains hmodular hstore haccount hamount (hb.hasTy t) ha hnot

/-- A move makes its change of the balances, and nothing else. -/
theorem run_move (hb : Typed config.encoding b) (hscope : MoveScope store b t s a)
    (ha : a.HasTy (config.encoding.wordTy 256)) :
    run (moveStmts config) store = .ok (Change.outcomes store (move config t s a b)) := by
  have hadd : WrappedOp.add ≠ .div := by decide
  have hsub : WrappedOp.sub ≠ .div := by decide
  have hcredit := run_update hadd hscope.balance (Expr.eval_ident_of_find? hscope.this)
    (Expr.eval_ident_of_find? hscope.amount) hb ha
  rw [moveStmts, run_append, hcredit, ok_bind, move]
  cases hchange : update config .add t a b with
  | none => exact execBlock_of_none _
  | some change =>
    cases change with
    | rejected b' message =>
      exact execBlock_of_final (by simp [Change.outcomes, Change.outcome, Outcome.isFailure]) _
    | written b' =>
      have hscope' := hscope.insert_balance b'
      have hdebit := run_update hsub hscope'.balance (Expr.eval_ident_of_find? hscope'.msgSender)
        (Expr.eval_ident_of_find? hscope'.amount) (hb.update hchange) ha
      show run _ (store.insert Reserved.balance b'.toValue) = _
      rw [hdebit, Change.outcomes, Change.outcome_insert]
      rfl

theorem run_transfer_typed (hb : Typed config.encoding b)
    (hglobals : globals.find? Reserved.balance = some b.toValue)
    (ha : a.HasTy (config.encoding.wordTy 256)) :
    (Primitive.transfer.procedure config).run [t, s, v, a] globals =
      .ok (if a.number ≤ (b.get s).number
        then Change.outcomes (amountStore globals t s v a) (move config t s a b) else []) := by
  have hscope := scope_amountStore hglobals t s v a
  show run (_ :: (moveStmts config ++ [receiverComment])) (amountStore globals t s v a) = _
  rw [run_fundsStmt_cons hscope (hb.hasTy s) ha,
    run_append_of_step (f := id) (run_move hb hscope ha) fun _ => rfl]
  simp only [funext Outcome.mapNormal_id, List.map_id']
  split <;> rfl

theorem run_send_typed (hb : Typed config.encoding b)
    (hglobals : globals.find? Reserved.balance = some b.toValue)
    (ha : a.HasTy (config.encoding.wordTy 256)) :
    (Primitive.send.procedure config).run [t, s, v, a] globals =
      .ok (if a.number ≤ (b.get s).number
        then (Change.outcomes (sendStore globals t s v a) (move config t s a b)).map succeeded ++
          [.normal (sendStore globals t s v a)]
        else []) := by
  have hscope := scope_sendStore hglobals t s v a
  show run (_ :: [.comment _, .choice _ _]) (sendStore globals t s v a) = _
  rw [run_fundsStmt_cons hscope (hb.hasTy s) ha,
    run_attempt find?_sendStore_result (run_move hb hscope ha)]
  split <;> rfl

theorem run_call_typed (hb : Typed config.encoding b)
    (hglobals : globals.find? Reserved.balance = some b.toValue)
    (hv : v.HasTy (config.encoding.wordTy 256)) :
    (Primitive.call.procedure config).run [t, s, v] globals =
      .ok ((Change.outcomes (callStore config.encoding globals t s v)
          (update config .add t v b)).map succeeded ++
        [.normal (callStore config.encoding globals t s v)]) := by
  have hscope := callScope_callStore config.encoding hglobals t s v
  have hadd : WrappedOp.add ≠ .div := by decide
  have hcredit := run_update hadd hscope.balance
    (Expr.eval_ident_of_find? hscope.this) (Expr.eval_ident_of_find? hscope.msgValue) hb hv
  exact run_attempt hscope.result hcredit _

end Run

/-! ### Success and failure -/

/-- An outcome repeats another one: it ends in the same way and in a store that differs at most in
what is reported, and if it is not final, success is reported. -/
structure Repeats (outcome attempt : Outcome) : Prop where
  isFailure : attempt.isFailure = outcome.isFailure
  message : attempt.message? = outcome.message?
  store : ∀ name, name ≠ Reserved.result →
    attempt.store.find? name = outcome.store.find? name
  reports : attempt.isFailure = false →
    attempt.store.find? Reserved.result = some (.bool true)

/-- A normal outcome that reports failure and leaves the balances alone. -/
structure Declines (b : TotalMap) (outcome : Outcome) : Prop where
  isFailure : outcome.isFailure = false
  balance : outcome.store.find? Reserved.balance = some b.toValue
  reports : outcome.store.find? Reserved.result = some (.bool false)

/-- Balances `b'` are those of `b` after `v` was credited to `t`. -/
structure CreditedTo (b : TotalMap) (encoding : Encoding) (t v : Value) (b' : TotalMap) :
    Prop where
  others : ∀ account, account ≠ t → b'.get account = b.get account
  receiver : b'.get t = encoding.word ((b.get t).number + v.number)

/-- The outcomes of a call that is not declined: the credit of `v` to `t`, if it is not dropped. -/
structure Credits (config : EncodingConfig) (b : TotalMap) (t v : Value)
    (attempts : List Outcome) : Prop where
  atMostOne : attempts.length ≤ 1
  dropped : attempts = [] ↔ config.encoding = .modular ∧
    ¬ (uint256.Contains (b.get t).number ∧ uint256.Contains v.number)
  overflow : (∃ outcome ∈ attempts, outcome.isFailure = true) ↔ Overflows config b t v ∧
    uint256.Contains (b.get t).number ∧ uint256.Contains v.number
  message : ∀ outcome ∈ attempts, outcome.isFailure = true →
    outcome.message? = some "Balance overflow"
  credited : ∀ outcome ∈ attempts, outcome.isFailure = false →
    outcome.store.find? Reserved.result = some (.bool true) ∧
    ∃ b', outcome.store.find? Reserved.balance = some b'.toValue ∧
      CreditedTo b config.encoding t v b'

section Stores

variable {config : EncodingConfig} {globals : Store} {b : TotalMap} {t s v a : Value}

theorem repeats_succeeded (change : Change) :
    Repeats (change.outcome (amountStore globals t s v a))
      (succeeded (change.outcome (sendStore globals t s v a))) := by
  have hstore : ∀ {name}, name ≠ Reserved.result → ∀ balances : Value,
      ((sendStore globals t s v a).insert Reserved.balance balances).find? name =
        ((amountStore globals t s v a).insert Reserved.balance balances).find? name := by
    intro name hname balances
    rw [sendStore, Table.find?_insert, Table.find?_insert, Table.find?_insert, if_neg hname.symm]
  cases change with
  | written b' =>
    refine ⟨rfl, rfl, fun name hname => ?_, fun _ => Table.find?_insert_self _ _ _⟩
    exact (Table.find?_insert_of_ne _ hname.symm _).trans (hstore hname _)
  | rejected b' message => exact ⟨rfl, rfl, fun name hname => hstore hname _, nofun⟩

theorem creditedTo_credit (hb : b.Canonical) (encoding : Encoding) (t v : Value) :
    CreditedTo b encoding t v (b.credit encoding t v) :=
  ⟨fun _ hne => TotalMap.get_set_of_ne hb hne.symm _, TotalMap.get_set_self hb _ _⟩

/-- The credit of a call is dropped, rejected or written. -/
theorem credits_update (hb : Typed config.encoding b)
    (hv : v.HasTy (config.encoding.wordTy 256)) (store : Store) :
    Credits config b t v ((Change.outcomes store (update config .add t v b)).map succeeded) := by
  rw [update]
  by_cases hadmits : Admits config (b.get t) v
  · have hrejects_iff : Rejects config ((b.get t).number + v.number) ↔ Overflows config b t v :=
      rejects_add_iff ⟨hb.hasTy t, fun h => (hadmits h).1⟩ ⟨hv, fun h => (hadmits h).2⟩
    have hkept : ¬ (config.encoding = .modular ∧
        ¬ (uint256.Contains (b.get t).number ∧ uint256.Contains v.number)) :=
      fun h => h.2 (hadmits h.1)
    rw [if_pos hadmits]
    by_cases hrejects : Rejects config (WrappedOp.add.exact (b.get t).number v.number)
    · rw [if_pos hrejects]
      refine ⟨le_rfl, iff_of_false nofun hkept, ?_, ?_, ?_⟩
      · exact iff_of_true ⟨_, List.mem_cons_self, rfl⟩
          ⟨hrejects_iff.1 hrejects, hadmits hrejects.1⟩
      · intro outcome hmem _
        cases List.mem_singleton.1 hmem
        rfl
      · intro outcome hmem hnormal
        cases List.mem_singleton.1 hmem
        cases hnormal
    · rw [if_neg hrejects]
      refine ⟨le_rfl, iff_of_false nofun hkept, ?_, ?_, ?_⟩
      · refine iff_of_false ?_ fun h => hrejects (hrejects_iff.2 h.1)
        rintro ⟨outcome, hmem, hfailure⟩
        cases List.mem_singleton.1 hmem
        cases hfailure
      · intro outcome hmem hfailure
        cases List.mem_singleton.1 hmem
        cases hfailure
      · intro outcome hmem _
        cases List.mem_singleton.1 hmem
        refine ⟨Table.find?_insert_self _ _ _, b.credit config.encoding t v, ?_,
          creditedTo_credit hb.canonical _ t v⟩
        exact (Table.find?_insert_of_ne _ (by decide) _).trans (Table.find?_insert_self _ _ _)
  · rw [if_neg hadmits]
    have hdropped := Classical.not_imp.1 hadmits
    exact ⟨Nat.zero_le _, iff_of_true rfl hdropped,
      iff_of_false nofun fun h => hdropped.2 h.2, nofun, nofun⟩

end Stores

/-- Sending repeats the outcomes of the transfer of the same amount, if the sender has it, and then
declines; calling credits the value of the message, unless it is dropped, and then declines.  This
holds in every configuration, for all balances of the type that the encoding gives them and all
arguments of the declared types, in range or not. -/
theorem attempts_have_two_outcomes (config : EncodingConfig) :
    ∃ d transfer send call, builtinProgram config = .ok d ∧
      d.program.procedure? Reserved.transfer = some transfer ∧
      d.program.procedure? Reserved.send = some send ∧
      d.program.procedure? Reserved.call = some call ∧
      ∀ (globals : Store) (b : TotalMap) (t s v a : Value), b.Canonical →
        b.toValue.HasTy config.encoding.balanceTy →
        globals.find? Reserved.balance = some b.toValue →
        v.HasTy (config.encoding.wordTy 256) → a.HasTy (config.encoding.wordTy 256) →
        (∃ outcomes, transfer.run [t, s, v, a] globals = .ok outcomes ∧
          ((b.get s).number < a.number → send.run [t, s, v, a] globals = .ok []) ∧
          (a.number ≤ (b.get s).number → ∃ attempts last,
            send.run [t, s, v, a] globals = .ok (attempts ++ [last]) ∧
            List.Forall₂ Repeats outcomes attempts ∧ Declines b last)) ∧
        ∃ attempts last, call.run [t, s, v] globals = .ok (attempts ++ [last]) ∧
          Credits config b t v attempts ∧ Declines b last := by
  obtain ⟨d, hprogram, hprocedure⟩ := procedure?_builtinProgram config
  refine ⟨d, _, _, _, hprogram, hprocedure .transfer, hprocedure .send, hprocedure .call, ?_⟩
  intro globals b t s v a hcanonical hbalance hglobals hv ha
  have hb : Typed config.encoding b := ⟨hcanonical, TotalMap.get_hasTy hbalance⟩
  constructor
  · refine ⟨_, run_transfer_typed hb hglobals ha, fun hlt => ?_, fun hle => ?_⟩
    · rw [run_send_typed hb hglobals ha, if_neg (not_le.2 hlt)]
    · rw [if_pos hle]
      refine ⟨_, _, (run_send_typed hb hglobals ha).trans (congrArg Except.ok (if_pos hle)), ?_,
        rfl, (scope_sendStore hglobals t s v a).balance, find?_sendStore_result⟩
      cases move config t s a b with
      | none => exact .nil
      | some change => exact .cons (repeats_succeeded change) .nil
  · have hscope := callScope_callStore config.encoding hglobals t s v
    exact ⟨_, _, run_call_typed hb hglobals hv, credits_update hb hv _, rfl, hscope.balance,
      hscope.result⟩

/-- A sender with a balance out of range sends to an account that holds the greatest word, and calls
it with the same value: the credit would overflow. -/
theorem attempts_have_two_outcomes_out_of_range :
    let greatest := pow2 256 - 1
    let b := ((TotalMap.const (.int 0)).set (.int 1) (.int (greatest + 1))).set (.int 2)
      (.int greatest)
    let globals : Store := Table.empty.insert Reserved.balance b.toValue
    ∃ d send call, builtinProgram ⟨.modular, true⟩ = .ok d ∧
      d.program.procedure? Reserved.send = some send ∧
      d.program.procedure? Reserved.call = some call ∧
      (∃ attempts last, send.run [.int 2, .int 1, .int 1, .int 1] globals =
        .ok (attempts ++ [last]) ∧ Declines b last) ∧
      ∃ attempts last, call.run [.int 2, .int 1, .int 1] globals = .ok (attempts ++ [last]) ∧
        (∃ outcome ∈ attempts, outcome.isFailure = true) ∧ Declines b last := by
  intro greatest b globals
  obtain ⟨d, transfer, send, call, hprogram, -, hsend, hcall, hattempts⟩ :=
    attempts_have_two_outcomes ⟨.modular, true⟩
  have hb : b.Canonical := ((TotalMap.canonical_const _).set _ _).set _ _
  have hconst : (TotalMap.const (.int 0)).toValue.HasTy (Encoding.balanceTy .modular) :=
    .map (.int 0) (List.forall_mem_nil _) (List.forall_mem_nil _)
  have hbalance : b.toValue.HasTy (Encoding.balanceTy .modular) :=
    TotalMap.set_hasTy (TotalMap.set_hasTy hconst (.named 1 _) (.int (greatest + 1))) (.named 2 _)
      (.int greatest)
  obtain ⟨⟨outcomes, -, -, hfunds⟩, attempts, last, hrun, hcredits, hdeclines⟩ :=
    hattempts globals b (.int 2) (.int 1) (.int 1) (.int 1) hb hbalance rfl (.int 1) (.int 1)
  obtain ⟨attempts', last', hrun', -, hdeclines'⟩ := hfunds (by decide)
  have hoverflow : Overflows ⟨.modular, true⟩ b (.int 2) (.int 1) := by decide
  exact ⟨d, send, call, hprogram, hsend, hcall, ⟨attempts', last', hrun', hdeclines'⟩, attempts,
    last, hrun, hcredits.overflow.2 ⟨hoverflow, by decide⟩, hdeclines⟩

end SolidityEncoding.Transfer
