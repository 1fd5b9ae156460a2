import SolidityEncoding.Proofs.Execution
import SolidityEncoding.Proofs.Transfer.Balances
import SolidityEncoding.Proofs.Transfer.Procedures

/-!
# Outcomes of the transfer procedures

Balances and amounts are words: values of the word type of the encoding, in range if the encoding is
the modular one.  On words every statement of the transfer procedures has a closed form, and so have
the procedures (`run_transfer`, `run_send`, `run_call`).

An update is rejected if overflow is checked and the modular result had to be reduced.  Only the
credit of a move can be rejected: the debit takes away what the assumption on funds has left there,
also if the debited account is the one that was credited before.
-/

namespace SolidityEncoding

open Transfer

/-! ### Conditions -/

namespace Expr

variable {store : Store}

theorem eval_atLeast {encoding : Encoding} {lhs rhs : Expr} {x y : Value}
    (hl : lhs.eval store = .ok x) (hr : rhs.eval store = .ok y)
    (hx : x.HasTy (encoding.wordTy 256)) (hy : y.HasTy (encoding.wordTy 256)) :
    (atLeast encoding lhs rhs).eval store = .ok (.bool (decide (y.number ≤ x.number))) := by
  cases encoding with
  | bitvector =>
    obtain ⟨u, rfl⟩ := hx.exists_ofBits
    obtain ⟨v, rfl⟩ := hy.exists_ofBits
    have hfunction : SourceBinaryOp.gte.bvFunction? uint256.signed = some .uge := rfl
    have hmeaning := SourceBinaryOp.smtLib_eq_meaning hfunction u v trivial
    exact (eval_bvBinary_of_bits hl hr).trans (congrArg Except.ok hmeaning)
  | mathematical | modular =>
    obtain ⟨m, rfl⟩ := hx.exists_int
    obtain ⟨n, rfl⟩ := hy.exists_int
    exact eval_binary_of_int rfl hl hr

end Expr

namespace Transfer

open Stmt

/-! ### Updates -/

/-- A configuration refuses a number as a balance: overflow is checked, and the number had to be
reduced. -/
def Rejects (config : EncodingConfig) (n : Int) : Prop :=
  config.encoding = .modular ∧ config.checkOverflow = true ∧ ¬ uint256.Contains n

instance (config : EncodingConfig) (n : Int) : Decidable (Rejects config n) :=
  inferInstanceAs (Decidable (_ ∧ _))

theorem contains_of_not_rejects {config : EncodingConfig} {n : Int}
    (hmodular : config.encoding = .modular) (hcheck : config.checkOverflow = true)
    (h : ¬ Rejects config n) : uint256.Contains n := by
  by_contra hoverflow
  exact h ⟨hmodular, hcheck, hoverflow⟩

section Update

variable {config : EncodingConfig} {store : Store} {account amount : Expr} {t a : Value}
  {b : TotalMap}

theorem eval_balanceOf (hb : store.find? Reserved.balance = some b.toValue)
    (haccount : account.eval store = .ok t) :
    (balanceOf account).eval store = .ok (b.get t) := by
  rw [balanceOf, Expr.eval_select, Expr.eval_ident, hb, haccount]
  rfl

theorem shape?_uint256 : SourceType.uint256.shape? = some uint256 := rfl

theorem run_assumeRange (hb : store.find? Reserved.balance = some b.toValue)
    (haccount : account.eval store = .ok t) (hamount : amount.eval store = .ok a)
    (ht : (b.get t).HasTy (config.encoding.wordTy 256))
    (ha : a.HasTy (config.encoding.wordTy 256)) :
    run (assumeRange config.encoding account amount) store =
      .ok (if config.encoding = .modular →
        uint256.Contains (b.get t).number ∧ uint256.Contains a.number
      then [.normal store] else []) := by
  obtain ⟨encoding, checkOverflow⟩ := config
  cases encoding with
  | mathematical | bitvector => rfl
  | modular =>
    have hbalance := eval_balanceOf hb haccount
    obtain ⟨m, hm⟩ := ht.exists_int
    obtain ⟨n, rfl⟩ := ha.exists_int
    rw [hm] at hbalance ⊢
    show run ([_] ++ [_]) store = _
    rw [run_append, run_cons,
      exec_assume_of_bool (Expr.eval_rangeConstraint shape?_uint256 nofun hbalance)]
    by_cases hc : uint256.Contains m
    · rw [if_pos hc]
      show run [_] store = _
      rw [run_cons, exec_assume_of_bool (Expr.eval_rangeConstraint shape?_uint256 nofun hamount)]
      simp [hc, Value.number, execBlock_nil]
    · simp [hc, Value.number, execBlock_of_none]

/-- On words an encoded operation is the word of the exact result. -/
theorem eval_encoded_value {op : WrappedOp} (hop : op ≠ .div) {lhs rhs : Expr} {x y : Value}
    (hl : lhs.eval store = .ok x) (hr : rhs.eval store = .ok y)
    (hx : config.encoding.IsWord x) (hy : config.encoding.IsWord y) :
    (op.encoded config.encoding uint256 lhs rhs).value.eval store =
      .ok (config.encoding.word (op.exact x.number y.number)) := by
  have hdefined : op = .div → y.number ≠ 0 := fun h => absurd h hop
  obtain ⟨encoding, checkOverflow⟩ := config
  cases encoding with
  | mathematical =>
    obtain ⟨m, rfl⟩ := hx.hasTy.exists_int
    obtain ⟨n, rfl⟩ := hy.hasTy.exists_int
    exact TranslatedTerm.eval_arithmetic op hl hr hdefined
  | bitvector =>
    have hm := hx.contains nofun
    have hn := hy.contains nofun
    rw [← hx.word_number] at hl
    rw [← hy.word_number] at hr
    exact TranslatedTerm.eval_bvFunction op Encoding.uint256_bits_pos (fun _ => rfl) hl hr hm hn
      hdefined
  | modular =>
    obtain ⟨m, rfl, hm⟩ := Encoding.isWord_modular_iff.1 hx
    obtain ⟨n, rfl, hn⟩ := Encoding.isWord_modular_iff.1 hy
    exact (op.modular_wraps Encoding.uint256_bits_pos hl hr hm hn hdefined).value_eq
      Encoding.uint256_bits_pos

/-- Only the modular encoding has a condition to assert. -/
theorem run_assertExact {op : WrappedOp} (hop : op ≠ .div) {lhs rhs : Expr} {x y : Value}
    (hl : lhs.eval store = .ok x) (hr : rhs.eval store = .ok y)
    (hx : config.encoding.IsWord x) (hy : config.encoding.IsWord y) :
    run (assertExact config.checkOverflow op.source
        (op.encoded config.encoding uint256 lhs rhs).condition) store =
      .ok [if Rejects config (op.exact x.number y.number)
        then .failed store (some (overflowMessage op.source)) else .normal store] := by
  obtain ⟨encoding, checkOverflow⟩ := config
  cases encoding with
  | mathematical | bitvector =>
    rw [if_neg fun h => nomatch h.1]
    rfl
  | modular =>
    obtain ⟨m, rfl, hm⟩ := Encoding.isWord_modular_iff.1 hx
    obtain ⟨n, rfl, hn⟩ := Encoding.isWord_modular_iff.1 hy
    have hdefined : op = .div → n ≠ 0 := fun h => absurd h hop
    obtain ⟨condition, hsome, hcondition⟩ :=
      (op.modular_wraps Encoding.uint256_bits_pos hl hr hm hn hdefined).condition
    have hencoded : (op.encoded .modular uint256 lhs rhs).condition = some condition := hsome
    rw [hencoded]
    cases checkOverflow with
    | false =>
      rw [if_neg fun h => nomatch h.2.1]
      rfl
    | true =>
      show run ([_] ++ [_]) store = _
      rw [run_append_of_normal rfl, run_cons, exec_assert_of_bool hcondition, ok_bind,
        execBlock_nil]
      by_cases hc : uint256.Contains (op.exact m n)
      · rw [if_pos hc, if_neg fun h => h.2.2 hc]
      · rw [if_neg hc, if_pos ⟨rfl, rfl, hc⟩]
        rfl

/-- An update writes the word of the exact result, unless it is rejected. -/
theorem run_updateStmts {op : WrappedOp} (hop : op ≠ .div)
    (hb : store.find? Reserved.balance = some b.toValue)
    (haccount : account.eval store = .ok t) (hamount : amount.eval store = .ok a)
    (ht : config.encoding.IsWord (b.get t)) (ha : config.encoding.IsWord a) :
    run (updateStmts config op account amount) store =
      .ok [if Rejects config (op.exact (b.get t).number a.number)
        then .failed store (some (overflowMessage op.source))
        else .normal (store.insert Reserved.balance
          (b.set t (config.encoding.word (op.exact (b.get t).number a.number))).toValue)] := by
  have hbalance := eval_balanceOf hb haccount
  have hrange : run (assumeRange config.encoding account amount) store = .ok [.normal store] := by
    rw [run_assumeRange hb haccount hamount ht.hasTy ha.hasTy,
      if_pos fun h => ⟨ht.inRange h, ha.inRange h⟩]
  have hassert := run_assertExact hop hbalance hamount ht ha
  have hupdate : (Expr.update (.ident Reserved.balance) account
        (op.encoded config.encoding uint256 (balanceOf account) amount).value).eval store =
      .ok (b.set t (config.encoding.word (op.exact (b.get t).number a.number))).toValue := by
    rw [Expr.eval_update, Expr.eval_ident, hb, haccount,
      eval_encoded_value hop hbalance hamount ht ha]
    rfl
  rw [updateStmts, List.append_assoc, run_append_of_normal hrange]
  by_cases hrejects : Rejects config (op.exact (b.get t).number a.number)
  · rw [if_pos hrejects] at hassert ⊢
    exact run_append_of_final hassert (by simp [Outcome.isFailure]) _
  · rw [if_neg hrejects] at hassert ⊢
    rw [run_append_of_normal hassert, run_cons, exec_assign_ident hupdate]
    rfl

/-- Under the modular encoding an update is not executed if the balance or the amount is out of
range. -/
theorem run_updateStmts_of_not_contains {op : WrappedOp} (hmodular : config.encoding = .modular)
    (hb : store.find? Reserved.balance = some b.toValue)
    (haccount : account.eval store = .ok t) (hamount : amount.eval store = .ok a)
    (ht : (b.get t).HasTy (config.encoding.wordTy 256))
    (ha : a.HasTy (config.encoding.wordTy 256))
    (hnot : ¬ (uint256.Contains (b.get t).number ∧ uint256.Contains a.number)) :
    run (updateStmts config op account amount) store = .ok [] := by
  have hrange : run (assumeRange config.encoding account amount) store = .ok [] := by
    rw [run_assumeRange hb haccount hamount ht ha, if_neg fun h => hnot (h hmodular)]
  rw [updateStmts, List.append_assoc]
  exact run_append_of_final hrange nofun _

end Update

/-! ### Credits and moves -/

/-- The outcome of crediting an account, for the balances that result if it is not rejected. -/
def credited (config : EncodingConfig) (store : Store) (b : TotalMap) (t a : Value)
    (b' : TotalMap) : Outcome :=
  if Rejects config ((b.get t).number + a.number) then .failed store (some "Balance overflow")
  else .normal (store.insert Reserved.balance b'.toValue)

section Credited

variable {config : EncodingConfig} {store : Store} {b b' : TotalMap} {t a : Value}

theorem credited_of_rejects (h : Rejects config ((b.get t).number + a.number)) :
    credited config store b t a b' = .failed store (some "Balance overflow") :=
  if_pos h

theorem credited_of_not_rejects (h : ¬ Rejects config ((b.get t).number + a.number)) :
    credited config store b t a b' = .normal (store.insert Reserved.balance b'.toValue) :=
  if_neg h

theorem not_rejects_of_credited (h : (credited config store b t a b').isFailure = false) :
    ¬ Rejects config ((b.get t).number + a.number) := by
  intro hrejects
  rw [credited_of_rejects hrejects] at h
  cases h

end Credited

/-- A store holds balances, the two accounts and the amount. -/
structure MoveScope (store : Store) (b : TotalMap) (t s a : Value) : Prop where
  balance : store.find? Reserved.balance = some b.toValue
  this : store.find? Reserved.this = some t
  msgSender : store.find? Reserved.msgSender = some s
  amount : store.find? Reserved.amount = some a

theorem MoveScope.insert_balance {store : Store} {b : TotalMap} {t s a : Value}
    (h : MoveScope store b t s a) (b' : TotalMap) :
    MoveScope (store.insert Reserved.balance b'.toValue) b' t s a where
  balance := Table.find?_insert_self _ _ _
  this := (Table.find?_insert_of_ne _ (by decide) _).trans h.this
  msgSender := (Table.find?_insert_of_ne _ (by decide) _).trans h.msgSender
  amount := (Table.find?_insert_of_ne _ (by decide) _).trans h.amount

section Move

variable {config : EncodingConfig} {store : Store} {b : TotalMap} {t s a : Value}

theorem run_credit {account amount : Expr} (hb : store.find? Reserved.balance = some b.toValue)
    (haccount : account.eval store = .ok t) (hamount : amount.eval store = .ok a)
    (ht : config.encoding.IsWord (b.get t)) (ha : config.encoding.IsWord a) :
    run (updateStmts config .add account amount) store =
      .ok [credited config store b t a (b.credit config.encoding t a)] :=
  run_updateStmts (by decide) hb haccount hamount ht ha

theorem run_debit {account amount : Expr} (hb : store.find? Reserved.balance = some b.toValue)
    (haccount : account.eval store = .ok s) (hamount : amount.eval store = .ok a)
    (hs : config.encoding.IsWord (b.get s)) (ha : config.encoding.IsWord a)
    (hrejects : ¬ Rejects config ((b.get s).number - a.number)) :
    run (updateStmts config .sub account amount) store =
      .ok [.normal (store.insert Reserved.balance
        (b.set s (config.encoding.word ((b.get s).number - a.number))).toValue)] := by
  have hop : WrappedOp.sub ≠ .div := by decide
  exact (run_updateStmts hop hb haccount hamount hs ha).trans
    (congrArg (fun outcome => Except.ok [outcome]) (if_neg hrejects))

theorem exec_fundsStmt (hscope : MoveScope store b t s a)
    (hs : (b.get s).HasTy (config.encoding.wordTy 256))
    (ha : a.HasTy (config.encoding.wordTy 256)) :
    (fundsStmt config.encoding).exec store =
      .ok (if a.number ≤ (b.get s).number then [.normal store] else []) :=
  exec_assume_of_bool (Expr.eval_atLeast
    (eval_balanceOf hscope.balance (Expr.eval_ident_of_find? hscope.msgSender))
    (Expr.eval_ident_of_find? hscope.amount) hs ha)

/-- The debit is never rejected: what it takes away is there, be it in a balance that was not
changed or in the one that was credited before. -/
theorem not_rejects_debit (hb : b.Canonical) (hs : config.encoding.IsWord (b.get s))
    (ha : config.encoding.IsWord a) (hle : a.number ≤ (b.get s).number)
    (hcredit : ¬ Rejects config ((b.get t).number + a.number)) :
    ¬ Rejects config (((b.credit config.encoding t a).get s).number - a.number) := by
  rintro ⟨hmodular, hcheck, hnot⟩
  have hencoding : config.encoding ≠ .mathematical := by rw [hmodular]; decide
  have hcs := hs.contains hencoding
  have hca := ha.contains hencoding
  rw [TotalMap.credit, TotalMap.get_set hb] at hnot
  split at hnot
  · next heq =>
    -- The credit was accepted, so it was exact, and the difference is the balance from before.
    have hexact := contains_of_not_rejects hmodular hcheck hcredit
    rw [Encoding.number_word fun _ => hexact, heq, Int.add_sub_cancel] at hnot
    exact hnot hcs
  · exact hnot (Encoding.contains_sub hcs hca hle)

theorem run_moveStmts (hb : b.Canonical) (hscope : MoveScope store b t s a)
    (ht : config.encoding.IsWord (b.get t)) (hs : config.encoding.IsWord (b.get s))
    (ha : config.encoding.IsWord a) (hle : a.number ≤ (b.get s).number) :
    run (moveStmts config) store =
      .ok [credited config store b t a (b.moved config.encoding t s a)] := by
  have hcredit : run (updateStmts config .add (.ident Reserved.this) (.ident Reserved.amount))
      store = .ok [credited config store b t a (b.credit config.encoding t a)] :=
    run_credit hscope.balance (Expr.eval_ident_of_find? hscope.this)
      (Expr.eval_ident_of_find? hscope.amount) ht ha
  rw [moveStmts]
  by_cases hrejects : Rejects config ((b.get t).number + a.number)
  · rw [credited_of_rejects hrejects] at hcredit ⊢
    exact run_append_of_final hcredit (by simp [Outcome.isFailure]) _
  rw [credited_of_not_rejects hrejects] at hcredit ⊢
  -- The debit reads the balances that the credit wrote, which may be those of the same account.
  have hscope' := hscope.insert_balance (b.credit config.encoding t a)
  have hs' : config.encoding.IsWord ((b.credit config.encoding t a).get s) := by
    rw [TotalMap.credit, TotalMap.get_set hb]
    split
    · exact Encoding.isWord_word _ _
    · exact hs
  rw [run_append_of_normal hcredit,
    run_debit hscope'.balance (Expr.eval_ident_of_find? hscope'.msgSender)
      (Expr.eval_ident_of_find? hscope'.amount) hs' ha (not_rejects_debit hb hs ha hle hrejects),
    Table.insert_insert, TotalMap.debit_credit hb ht]

end Move

/-! ### Procedures -/

/-- The store with the arguments of a call of `t` by `s` that comes with `v`. -/
def callerStore (globals : Store) (t s v : Value) : Store :=
  ((globals.insert Reserved.this t).insert Reserved.msgSender s).insert Reserved.msgValue v

/-- The store with the arguments of a move of `a` from `s` to `t`. -/
def amountStore (globals : Store) (t s v a : Value) : Store :=
  (callerStore globals t s v).insert Reserved.amount a

/-- The store of a move that reports whether it succeeded. -/
def sendStore (globals : Store) (t s v a : Value) : Store :=
  (amountStore globals t s v a).insert Reserved.result (.bool false)

theorem scope_amountStore {globals : Store} {b : TotalMap}
    (hb : globals.find? Reserved.balance = some b.toValue) (t s v a : Value) :
    MoveScope (amountStore globals t s v a) b t s a := by
  constructor <;> simp [amountStore, callerStore, Reserved.balance, Reserved.this,
    Reserved.msgSender, Reserved.msgValue, Reserved.amount]
  exact hb

/-- The store with the arguments of a call that reports whether it succeeded and returns data. -/
def callStore (encoding : Encoding) (globals : Store) (t s v : Value) : Store :=
  ((callerStore globals t s v).insert Reserved.result (.bool false)).insert Reserved.calldata
    (.ofTy (encoding.wordTy 256))

theorem MoveScope.insert_result {store : Store} {b : TotalMap} {t s a : Value}
    (h : MoveScope store b t s a) (result : Value) :
    MoveScope (store.insert Reserved.result result) b t s a where
  balance := (Table.find?_insert_of_ne _ (by decide) _).trans h.balance
  this := (Table.find?_insert_of_ne _ (by decide) _).trans h.this
  msgSender := (Table.find?_insert_of_ne _ (by decide) _).trans h.msgSender
  amount := (Table.find?_insert_of_ne _ (by decide) _).trans h.amount

theorem scope_sendStore {globals : Store} {b : TotalMap}
    (hb : globals.find? Reserved.balance = some b.toValue) (t s v a : Value) :
    MoveScope (sendStore globals t s v a) b t s a :=
  (scope_amountStore hb t s v a).insert_result (.bool false)

theorem find?_sendStore_result {globals : Store} {t s v a : Value} :
    (sendStore globals t s v a).find? Reserved.result = some (.bool false) :=
  Table.find?_insert_self _ _ _

/-- A store holds balances, the account that runs and the value of the message, and nothing was
reported yet. -/
structure CallScope (store : Store) (b : TotalMap) (t v : Value) : Prop where
  balance : store.find? Reserved.balance = some b.toValue
  this : store.find? Reserved.this = some t
  msgValue : store.find? Reserved.msgValue = some v
  result : store.find? Reserved.result = some (.bool false)

theorem callScope_callStore (encoding : Encoding) {globals : Store} {b : TotalMap}
    (hb : globals.find? Reserved.balance = some b.toValue) (t s v : Value) :
    CallScope (callStore encoding globals t s v) b t v := by
  constructor <;> simp [callStore, callerStore, Reserved.balance, Reserved.this,
    Reserved.msgSender, Reserved.msgValue, Reserved.result, Reserved.calldata]
  exact hb

/-- The outcome with success reported. -/
def succeeded (outcome : Outcome) : Outcome :=
  outcome.mapNormal (·.insert Reserved.result (.bool true))

theorem isFailure_succeeded (outcome : Outcome) :
    (succeeded outcome).isFailure = outcome.isFailure := by
  cases outcome <;> rfl

theorem exec_setResult (success : Bool) (store : Store) :
    (setResult success).exec store =
      .ok [.normal (store.insert Reserved.result (.bool success))] :=
  exec_assign_ident (Expr.eval_bool _ _)

section Run

variable {config : EncodingConfig} {globals store : Store} {b : TotalMap} {t s v a : Value}

/-- The funds are checked before all else. -/
theorem run_fundsStmt_cons (hscope : MoveScope store b t s a)
    (hs : (b.get s).HasTy (config.encoding.wordTy 256))
    (ha : a.HasTy (config.encoding.wordTy 256)) (rest : List Stmt) :
    run (fundsStmt config.encoding :: rest) store =
      if a.number ≤ (b.get s).number then run rest store else .ok [] := by
  rw [run_cons, exec_fundsStmt hscope hs ha]
  split
  · rfl
  · exact execBlock_of_none rest

/-- A body that is executed or not, with the choice reported.  At the start the result says that it
is not. -/
theorem run_attempt {body : List Stmt} {outcomes : List Outcome}
    (hresult : store.find? Reserved.result = some (.bool false))
    (h : run body store = .ok outcomes) (text : String) :
    run [.comment text, .choice (body ++ [setResult true]) [setResult false]] store =
      .ok (outcomes.map succeeded ++ [.normal store]) := by
  have hsuccess : run (body ++ [setResult true]) store = .ok (outcomes.map succeeded) :=
    run_append_of_step h (exec_setResult true)
  have hfailure : run [setResult false] store = .ok [.normal store] := by
    rw [run_cons, exec_setResult, Table.insert_of_find? hresult]
    rfl
  rw [run_cons, exec_comment, ok_bind]
  show run [_] store = _
  rw [run_cons, exec_choice, hsuccess, hfailure]
  rfl

theorem run_transfer (hb : b.Canonical)
    (hglobals : globals.find? Reserved.balance = some b.toValue)
    (ht : config.encoding.IsWord (b.get t)) (hs : config.encoding.IsWord (b.get s))
    (ha : config.encoding.IsWord a) :
    (Primitive.transfer.procedure config).run [t, s, v, a] globals =
      .ok (if a.number ≤ (b.get s).number
        then [credited config (amountStore globals t s v a) b t a (b.moved config.encoding t s a)]
        else []) := by
  have hscope := scope_amountStore hglobals t s v a
  show run (_ :: (moveStmts config ++ [receiverComment])) (amountStore globals t s v a) = _
  rw [run_fundsStmt_cons hscope hs.hasTy ha.hasTy]
  split
  · next hle =>
    rw [run_append_of_step (f := id) (run_moveStmts hb hscope ht hs ha hle) fun _ => rfl]
    rw [List.map_singleton, Outcome.mapNormal_id]
  · rfl

theorem run_send (hb : b.Canonical) (hglobals : globals.find? Reserved.balance = some b.toValue)
    (ht : config.encoding.IsWord (b.get t)) (hs : config.encoding.IsWord (b.get s))
    (ha : config.encoding.IsWord a) :
    (Primitive.send.procedure config).run [t, s, v, a] globals =
      .ok (if a.number ≤ (b.get s).number
        then [succeeded (credited config (sendStore globals t s v a) b t a
            (b.moved config.encoding t s a)),
          .normal (sendStore globals t s v a)]
        else []) := by
  have hscope := scope_sendStore hglobals t s v a
  show run (_ :: [.comment _, .choice _ _]) (sendStore globals t s v a) = _
  rw [run_fundsStmt_cons hscope hs.hasTy ha.hasTy]
  split
  · next hle => exact run_attempt find?_sendStore_result (run_moveStmts hb hscope ht hs ha hle) _
  · rfl

theorem run_call (hglobals : globals.find? Reserved.balance = some b.toValue)
    (ht : config.encoding.IsWord (b.get t)) (hv : config.encoding.IsWord v) :
    (Primitive.call.procedure config).run [t, s, v] globals =
      .ok [succeeded (credited config (callStore config.encoding globals t s v) b t v
          (b.credit config.encoding t v)),
        .normal (callStore config.encoding globals t s v)] := by
  have hscope := callScope_callStore config.encoding hglobals t s v
  have hcredit := run_credit hscope.balance (Expr.eval_ident_of_find? hscope.this)
    (Expr.eval_ident_of_find? hscope.msgValue) ht hv
  exact run_attempt hscope.result hcredit _

/-! Under the modular encoding an amount that is out of range is never moved. -/

theorem run_moveStmts_of_not_contains (hmodular : config.encoding = .modular)
    (hscope : MoveScope store b t s a) (ht : config.encoding.IsWord (b.get t))
    (ha : a.HasTy (config.encoding.wordTy 256)) (hnot : ¬ uint256.Contains a.number) :
    run (moveStmts config) store = .ok [] := by
  have hcredit : run (updateStmts config .add (.ident Reserved.this) (.ident Reserved.amount))
      store = .ok [] :=
    run_updateStmts_of_not_contains hmodular hscope.balance (Expr.eval_ident_of_find? hscope.this)
      (Expr.eval_ident_of_find? hscope.amount) ht.hasTy ha fun h => hnot h.2
  exact run_append_of_final hcredit (List.forall_mem_nil _) _

theorem run_transfer_of_not_contains (hmodular : config.encoding = .modular)
    (hglobals : globals.find? Reserved.balance = some b.toValue)
    (ht : config.encoding.IsWord (b.get t)) (hs : config.encoding.IsWord (b.get s))
    (ha : a.HasTy (config.encoding.wordTy 256)) (hnot : ¬ uint256.Contains a.number) :
    (Primitive.transfer.procedure config).run [t, s, v, a] globals = .ok [] := by
  have hscope := scope_amountStore hglobals t s v a
  have hmove := run_moveStmts_of_not_contains hmodular hscope ht ha hnot
  show run (_ :: (moveStmts config ++ [receiverComment])) (amountStore globals t s v a) = _
  rw [run_fundsStmt_cons hscope hs.hasTy ha, run_append_of_step (f := id) hmove fun _ => rfl]
  exact ite_self _

theorem run_send_of_not_contains (hmodular : config.encoding = .modular)
    (hglobals : globals.find? Reserved.balance = some b.toValue)
    (ht : config.encoding.IsWord (b.get t)) (hs : config.encoding.IsWord (b.get s))
    (ha : a.HasTy (config.encoding.wordTy 256)) (hnot : ¬ uint256.Contains a.number) :
    (Primitive.send.procedure config).run [t, s, v, a] globals =
      .ok (if a.number ≤ (b.get s).number then [.normal (sendStore globals t s v a)] else []) := by
  have hscope := scope_sendStore hglobals t s v a
  have hmove := run_moveStmts_of_not_contains hmodular hscope ht ha hnot
  show run (_ :: [.comment _, .choice _ _]) (sendStore globals t s v a) = _
  rw [run_fundsStmt_cons hscope hs.hasTy ha, run_attempt find?_sendStore_result hmove]
  split <;> rfl

end Run

end Transfer

end SolidityEncoding
