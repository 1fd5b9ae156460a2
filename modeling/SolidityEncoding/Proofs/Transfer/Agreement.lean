import SolidityEncoding.Proofs.Transfer.Outcomes

/-!
# The transfer procedures agree across the encodings

Without overflow checks every run of a transfer procedure ends normally, in stores that
`Primitive.stores` lists in order.  Started from the same numbers, the modular and the bitvector
encoding list stores that hold the same numbers, and where the modular encoding finds no overflow
the mathematical encoding lists the very same stores.
-/

namespace SolidityEncoding

open Transfer

namespace TotalMap

/-! ### Balances as bitvectors -/

/-- The balances as bitvectors. -/
def toBits (b : TotalMap) : TotalMap where
  default := .bvOf b.default.number 256
  entries := b.entries.map fun entry => (entry.1, .bvOf entry.2.number 256)

theorem findIn_map (f : Value → Value) (key : Value) (entries : List (Value × Value)) :
    findIn key (entries.map fun entry => (entry.1, f entry.2)) = (findIn key entries).map f := by
  induction entries with
  | nil => rfl
  | cons entry rest ih =>
    obtain ⟨other, value⟩ := entry
    rw [List.map_cons, findIn, findIn, ih]
    cases key.order other <;> rfl

theorem get_toBits (b : TotalMap) (account : Value) :
    b.toBits.get account = .bvOf (b.get account).number 256 := by
  unfold get toBits
  rw [findIn_map fun value => .bvOf value.number 256]
  cases findIn account b.entries <;> rfl

/-- Numbers in range have different bitvectors, so entries still differ from the default. -/
theorem HoldsWords.toBits {b : TotalMap} (h : b.HoldsWords .modular) :
    b.toBits.HoldsWords .bitvector := by
  have hword := Encoding.isWord_word .bitvector
  refine ⟨⟨?_, ?_⟩, hword _, ?_⟩
  · exact List.pairwise_map.2 h.canonical.sorted
  · intro entry hentry heq
    obtain ⟨old, hold, rfl⟩ := List.mem_map.1 hentry
    have hnumber := congrArg Value.number heq
    have hvalue := h.entries old hold
    have hdefault := h.default
    simp only [TotalMap.toBits, Encoding.number_bvOf] at hnumber
    rw [← Encoding.eq_wrap_uint256 (hvalue.inRange rfl),
      ← Encoding.eq_wrap_uint256 (hdefault.inRange rfl)] at hnumber
    apply h.canonical.value_ne old hold
    rw [← hvalue.word_number, hnumber, hdefault.word_number]
  · intro entry hentry
    obtain ⟨old, hold, rfl⟩ := List.mem_map.1 hentry
    exact hword _

/-- Balances of the modular and of the bitvector encoding hold the same numbers. -/
structure SameNumbers (b b' : TotalMap) : Prop where
  modular : b.HoldsWords .modular
  bitvector : b'.HoldsWords .bitvector
  number : ∀ account, (b.get account).number = (b'.get account).number

theorem sameNumbers_toBits {b : TotalMap} (h : b.HoldsWords .modular) : b.SameNumbers b.toBits := by
  refine ⟨h, h.toBits, fun account => ?_⟩
  rw [get_toBits, Encoding.number_bvOf]
  exact Encoding.eq_wrap_uint256 ((h.get account).inRange rfl)

namespace SameNumbers

variable {b b' : TotalMap} {t s a a' : Value}

theorem get (h : b.SameNumbers b') (account : Value) :
    ∃ n, uint256.Contains n ∧ b.get account = .int n ∧ b'.get account = .bvOf n 256 := by
  obtain ⟨n, hn, hcontains⟩ := Encoding.isWord_modular_iff.1 (h.modular.get account)
  refine ⟨n, hcontains, hn, ?_⟩
  rw [← (h.bitvector.get account).word_number, ← h.number, hn]
  rfl

theorem set (h : b.SameNumbers b') (account : Value) (n : Int) :
    (b.set account (Encoding.modular.word n)).SameNumbers
      (b'.set account (Encoding.bitvector.word n)) := by
  refine ⟨h.modular.set account (Encoding.isWord_word _ n),
    h.bitvector.set account (Encoding.isWord_word _ n), fun other => ?_⟩
  rw [get_set h.modular.canonical, get_set h.bitvector.canonical]
  split
  · exact (Encoding.number_bvOf n).symm
  · exact h.number other

theorem credit (h : b.SameNumbers b') (ha : a.number = a'.number) :
    (b.credit .modular t a).SameNumbers (b'.credit .bitvector t a') := by
  unfold TotalMap.credit
  rw [h.number t, ha]
  exact h.set t _

theorem moved (h : b.SameNumbers b') (ha : a.number = a'.number) :
    (b.moved .modular t s a).SameNumbers (b'.moved .bitvector t s a') := by
  unfold TotalMap.moved
  split
  · exact h
  · rw [h.number s, ha]
    exact (h.credit ha).set s _

end SameNumbers

/-! ### Balances of unbounded integers -/

section Mathematical

variable {b : TotalMap} {t s a : Value}

theorem HoldsWords.mathematical (h : b.HoldsWords .modular) : b.HoldsWords .mathematical :=
  ⟨h.canonical, ⟨h.default.hasTy, nofun⟩,
    fun entry hentry => ⟨(h.entries entry hentry).hasTy, nofun⟩⟩

theorem credit_mathematical (h : uint256.Contains ((b.get t).number + a.number)) :
    b.credit .mathematical t a = b.credit .modular t a := by
  show b.set t (.int _) = b.set t (.int _)
  rw [← Encoding.eq_wrap_uint256 h]

theorem moved_mathematical (hadd : uint256.Contains ((b.get t).number + a.number))
    (hsub : uint256.Contains ((b.get s).number - a.number)) :
    b.moved .mathematical t s a = b.moved .modular t s a := by
  unfold moved
  rw [credit_mathematical hadd]
  split
  · rfl
  · show TotalMap.set _ s (.int _) = TotalMap.set _ s (.int _)
    rw [← Encoding.eq_wrap_uint256 hsub]

end Mathematical

end TotalMap

namespace Transfer

/-! ### Accepted runs -/

namespace Primitive

/-- The arguments of a procedure: the account that runs, the sender, the value of the message and,
unless it is a call, the amount. -/
def args (p : Primitive) (t s v a : Value) : List Value :=
  match p with
  | .transfer | .send => [t, s, v, a]
  | .call => [t, s, v]

/-- The stores in which a run ends if no credit is rejected, in the order of the outcomes. -/
def stores (p : Primitive) (encoding : Encoding) (globals : Store) (b : TotalMap)
    (t s v a : Value) : List Store :=
  match p with
  | .transfer =>
    if a.number ≤ (b.get s).number then
      [(amountStore globals t s v a).insert Reserved.balance (b.moved encoding t s a).toValue]
    else []
  | .send =>
    if a.number ≤ (b.get s).number then
      [((sendStore globals t s v a).insert Reserved.balance (b.moved encoding t s a).toValue).insert
          Reserved.result (.bool true),
        sendStore globals t s v a]
    else []
  | .call =>
    [((callStore encoding globals t s v).insert Reserved.balance
          (b.credit encoding t v).toValue).insert Reserved.result (.bool true),
      callStore encoding globals t s v]

/-- The credit of a procedure is accepted, if there is one. -/
def Accepts (p : Primitive) (config : EncodingConfig) (b : TotalMap) (t s v a : Value) : Prop :=
  match p with
  | .transfer | .send =>
    a.number ≤ (b.get s).number → ¬ Rejects config ((b.get t).number + a.number)
  | .call => ¬ Rejects config ((b.get t).number + v.number)

variable {config : EncodingConfig} {globals : Store} {b : TotalMap} {t s v a : Value}

/-- Without overflow checks, and outside the modular encoding, no credit is rejected. -/
theorem accepts_of_not_checked (p : Primitive)
    (h : config.encoding ≠ .modular ∨ config.checkOverflow = false) :
    p.Accepts config b t s v a := by
  have hnot : ∀ n, ¬ Rejects config n := by
    rintro n ⟨hmodular, hcheck, -⟩
    rcases h with h | h
    · exact h hmodular
    · rw [h] at hcheck
      cases hcheck
  cases p with
  | transfer | send => exact fun _ => hnot _
  | call => exact hnot _

/-- A run on words has the outcomes that `stores` lists if its credit is accepted, and a failure
if it is not. -/
theorem exists_run_words (p : Primitive) (config : EncodingConfig) (t s : Value)
    (hb : b.HoldsWords config.encoding)
    (hglobals : globals.find? Reserved.balance = some b.toValue)
    (hv : config.encoding.IsWord v) (ha : config.encoding.IsWord a) :
    ∃ outcomes, (p.procedure config).run (p.args t s v a) globals = .ok outcomes ∧
      (p.Accepts config b t s v a →
        outcomes = (p.stores config.encoding globals b t s v a).map .normal) ∧
      ((∀ outcome ∈ outcomes, outcome.isFailure = false) → p.Accepts config b t s v a) := by
  cases p with
  | transfer =>
    refine ⟨_, run_transfer hb.canonical hglobals (hb.get t) (hb.get s) ha, ?_, ?_⟩
    · intro haccepts
      unfold stores
      split
      · next hle => rw [credited_of_not_rejects (haccepts hle), List.map_singleton]
      · rfl
    · intro hnormal hle
      rw [if_pos hle] at hnormal
      exact not_rejects_of_credited (hnormal _ List.mem_cons_self)
  | send =>
    refine ⟨_, run_send hb.canonical hglobals (hb.get t) (hb.get s) ha, ?_, ?_⟩
    · intro haccepts
      unfold stores
      split
      · next hle =>
        rw [credited_of_not_rejects (haccepts hle)]
        rfl
      · rfl
    · intro hnormal hle
      rw [if_pos hle] at hnormal
      have hcredited := hnormal _ List.mem_cons_self
      rw [isFailure_succeeded] at hcredited
      exact not_rejects_of_credited hcredited
  | call =>
    refine ⟨_, run_call hglobals (hb.get t) hv, ?_, ?_⟩
    · intro haccepts
      rw [credited_of_not_rejects haccepts]
      rfl
    · intro hnormal
      have hcredited := hnormal _ List.mem_cons_self
      rw [isFailure_succeeded] at hcredited
      exact not_rejects_of_credited hcredited

theorem run_of_accepts (p : Primitive) (hb : b.HoldsWords config.encoding)
    (hglobals : globals.find? Reserved.balance = some b.toValue)
    (hv : config.encoding.IsWord v) (ha : config.encoding.IsWord a)
    (h : p.Accepts config b t s v a) :
    (p.procedure config).run (p.args t s v a) globals =
      .ok ((p.stores config.encoding globals b t s v a).map .normal) := by
  obtain ⟨outcomes, hrun, haccepts, -⟩ := p.exists_run_words config t s hb hglobals hv ha
  rw [hrun, haccepts h]

theorem eq_stores_of_run (p : Primitive) (hb : b.HoldsWords config.encoding)
    (hglobals : globals.find? Reserved.balance = some b.toValue)
    (hv : config.encoding.IsWord v) (ha : config.encoding.IsWord a)
    (h : p.Accepts config b t s v a) {stores : List Store}
    (hrun : (p.procedure config).run (p.args t s v a) globals = .ok (stores.map .normal)) :
    stores = p.stores config.encoding globals b t s v a := by
  rw [p.run_of_accepts hb hglobals hv ha h] at hrun
  have hinjective : Function.Injective (List.map Outcome.normal) :=
    List.map_injective_iff.2 fun _ _ => Outcome.normal.inj
  exact (hinjective (Except.ok.inj hrun)).symm

/-! ### Agreement -/

/-- Two stores report the same result, if there is one, and hold the same balances. -/
structure Agree (p : Primitive) (store store' : Store) : Prop where
  result : p ≠ .transfer → ∃ success, store.find? Reserved.result = some (.bool success) ∧
    store'.find? Reserved.result = some (.bool success)
  balance : ∃ b b' : TotalMap, store.find? Reserved.balance = some b.toValue ∧
    store'.find? Reserved.balance = some b'.toValue ∧
    ∀ account, ∃ n, uint256.Contains n ∧ b.get account = .int n ∧ b'.get account = .bvOf n 256

theorem agree_of_reported {store store' : Store} {b' : TotalMap} {success : Bool} (p : Primitive)
    (hsame : b.SameNumbers b') (hb : store.find? Reserved.balance = some b.toValue)
    (hb' : store'.find? Reserved.balance = some b'.toValue)
    (hresult : store.find? Reserved.result = some (.bool success))
    (hresult' : store'.find? Reserved.result = some (.bool success)) : p.Agree store store' :=
  ⟨fun _ => ⟨success, hresult, hresult'⟩, b, b', hb, hb', hsame.get⟩

/-- Stores agree after success was reported in them. -/
theorem agree_succeeded {store store' : Store} {b' : TotalMap} (p : Primitive)
    (hsame : b.SameNumbers b') :
    p.Agree ((store.insert Reserved.balance b.toValue).insert Reserved.result (.bool true))
      ((store'.insert Reserved.balance b'.toValue).insert Reserved.result (.bool true)) := by
  have hbalance : ∀ (store : Store) (value : Value),
      ((store.insert Reserved.balance value).insert Reserved.result (.bool true)).find?
        Reserved.balance = some value :=
    fun _ _ => (Table.find?_insert_of_ne _ (by decide) _).trans (Table.find?_insert_self _ _ _)
  exact agree_of_reported p hsame (hbalance _ _) (hbalance _ _) (Table.find?_insert_self _ _ _)
    (Table.find?_insert_self _ _ _)

theorem stores_agree (p : Primitive) {globals' : Store} {b' : TotalMap} {v' a' : Value}
    (hb : b.SameNumbers b') (hglobals : globals.find? Reserved.balance = some b.toValue)
    (hglobals' : globals'.find? Reserved.balance = some b'.toValue)
    (hv : v.number = v'.number) (ha : a.number = a'.number) :
    List.Forall₂ p.Agree (p.stores .modular globals b t s v a)
      (p.stores .bitvector globals' b' t s v' a') := by
  cases p with
  | transfer =>
    have hmoved : (b.moved .modular t s a).SameNumbers (b'.moved .bitvector t s a') := hb.moved ha
    simp only [stores, ha, hb.number s]
    split
    · exact .cons ⟨fun h => absurd rfl h, _, _, Table.find?_insert_self _ _ _,
        Table.find?_insert_self _ _ _, hmoved.get⟩ .nil
    · exact .nil
  | send =>
    simp only [stores, ha, hb.number s]
    split
    · exact .cons (agree_succeeded _ (hb.moved ha)) (.cons (agree_of_reported _ hb
        (scope_sendStore hglobals t s v a).balance (scope_sendStore hglobals' t s v' a').balance
        find?_sendStore_result find?_sendStore_result) .nil)
    · exact .nil
  | call =>
    have hscope := callScope_callStore .modular hglobals t s v
    have hscope' := callScope_callStore .bitvector hglobals' t s v'
    exact .cons (agree_succeeded _ (hb.credit hv)) (.cons (agree_of_reported _ hb
      hscope.balance hscope'.balance hscope.result hscope'.result) .nil)

/-- Where the modular encoding has no overflow to report, unbounded integers do the same. -/
theorem stores_mathematical (p : Primitive) (hb : b.HoldsWords .modular)
    (ha : Encoding.modular.IsWord a)
    (haccepts : p.Accepts ⟨.modular, true⟩ b t s v a) :
    p.stores .mathematical globals b t s v a = p.stores .modular globals b t s v a := by
  cases p with
  | transfer | send =>
    simp only [stores]
    split
    · next hle =>
      have hadd := contains_of_not_rejects rfl rfl (haccepts hle)
      have hsub := Encoding.contains_sub ((hb.get s).inRange rfl) (ha.inRange rfl) hle
      rw [TotalMap.moved_mathematical hadd hsub]
    · rfl
  | call =>
    simp only [stores]
    rw [TotalMap.credit_mathematical (contains_of_not_rejects rfl rfl haccepts)]
    rfl

end Primitive

/-- The transfer procedures of the programs simulate each other.  On balances, amounts and values of
messages in range and without overflow checks, a run under the modular encoding and a run under the
bitvector encoding on the same numbers end normally, in stores that agree one by one.  If the
modular encoding finds no overflow when it checks for it, the mathematical encoding has the same
outcomes as the modular one. -/
theorem primitives_agree (p : Primitive) :
    (∀ config, ∃ d, builtinProgram config = .ok d ∧
      d.program.procedure? p.name = some (p.procedure config)) ∧
    ∀ (b : TotalMap) (globals globals' : Store) (t s : Value) (v a : Int),
      b.HoldsWords .modular → uint256.Contains v → uint256.Contains a →
      globals.find? Reserved.balance = some b.toValue →
      globals'.find? Reserved.balance = some b.toBits.toValue →
      ∃ stores stores' checked,
        (p.procedure ⟨.modular, false⟩).run (p.args t s (.int v) (.int a)) globals =
          .ok (stores.map .normal) ∧
        (p.procedure ⟨.bitvector, false⟩).run (p.args t s (.bvOf v 256) (.bvOf a 256)) globals' =
          .ok (stores'.map .normal) ∧
        List.Forall₂ p.Agree stores stores' ∧
        (p.procedure ⟨.modular, true⟩).run (p.args t s (.int v) (.int a)) globals = .ok checked ∧
        ((∀ outcome ∈ checked, outcome.isFailure = false) →
          checked = stores.map .normal ∧ ∀ checkOverflow,
            (p.procedure ⟨.mathematical, checkOverflow⟩).run (p.args t s (.int v) (.int a))
              globals = .ok (stores.map .normal)) := by
  constructor
  · intro config
    obtain ⟨d, hd, hprogram⟩ := procedure?_builtinProgram config
    exact ⟨d, hd, hprogram p⟩
  intro b globals globals' t s v a hb hv ha hglobals hglobals'
  have hsame := TotalMap.sameNumbers_toBits hb
  have hunbounded : ∀ n, Encoding.mathematical.IsWord (.int n) := fun n => ⟨.int n, nofun⟩
  have hnumber : ∀ n, uint256.Contains n → (Value.int n).number = (Value.bvOf n 256).number :=
    fun n hn => (Encoding.eq_wrap_uint256 hn).trans (Encoding.number_bvOf n).symm
  have hmodular : (p.procedure ⟨.modular, false⟩).run (p.args t s (.int v) (.int a)) globals =
      .ok ((p.stores .modular globals b t s (.int v) (.int a)).map .normal) :=
    p.run_of_accepts hb hglobals (Encoding.isWord_int hv) (Encoding.isWord_int ha)
      (p.accepts_of_not_checked (Or.inr rfl))
  have hbitvector : (p.procedure ⟨.bitvector, false⟩).run
      (p.args t s (.bvOf v 256) (.bvOf a 256)) globals' =
      .ok ((p.stores .bitvector globals' b.toBits t s (.bvOf v 256) (.bvOf a 256)).map .normal) :=
    p.run_of_accepts hb.toBits hglobals' (Encoding.isWord_word _ v) (Encoding.isWord_word _ a)
      (p.accepts_of_not_checked (Or.inr rfl))
  have hagree := p.stores_agree (t := t) (s := s) hsame hglobals hglobals' (hnumber v hv)
    (hnumber a ha)
  obtain ⟨checked, hchecked, haccepted, hnormal⟩ :=
    p.exists_run_words ⟨.modular, true⟩ t s hb hglobals (Encoding.isWord_int hv)
      (Encoding.isWord_int ha)
  refine ⟨_, _, checked, hmodular, hbitvector, hagree, hchecked, fun h => ?_⟩
  have haccepts := hnormal h
  refine ⟨haccepted haccepts, fun checkOverflow => ?_⟩
  have hmathematical : (p.procedure ⟨.mathematical, checkOverflow⟩).run
      (p.args t s (.int v) (.int a)) globals =
      .ok ((p.stores .mathematical globals b t s (.int v) (.int a)).map .normal) :=
    p.run_of_accepts hb.mathematical hglobals (hunbounded v) (hunbounded a)
      (p.accepts_of_not_checked (Or.inl nofun))
  rw [hmathematical, p.stores_mathematical hb (Encoding.isWord_int ha) haccepts]

/-- A call that brings an account to the greatest word.  The first outcome reports success and the
second failure, and only the first has the credit. -/
theorem primitives_agree_call_greatest_word :
    let greatest := pow2 256 - 1
    let account := (TotalMap.const (.int 0)).set (.int 1)
    let b := account (.int (greatest - 1))
    let globals : Store := Table.empty.insert Reserved.balance b.toValue
    let globals' : Store := Table.empty.insert Reserved.balance b.toBits.toValue
    ∃ credited kept credited' kept',
      (Primitive.call.procedure ⟨.modular, false⟩).run [.int 1, .int 2, .int 1] globals =
        .ok [.normal credited, .normal kept] ∧
      (Primitive.call.procedure ⟨.bitvector, false⟩).run [.int 1, .int 2, .bv 1 256] globals' =
        .ok [.normal credited', .normal kept'] ∧
      (Primitive.call.procedure ⟨.mathematical, true⟩).run [.int 1, .int 2, .int 1] globals =
        .ok [.normal credited, .normal kept] ∧
      List.Forall₂ Primitive.call.Agree [credited, kept] [credited', kept'] ∧
      [credited, kept, credited', kept'].map (·.find? Reserved.result) =
        [true, false, true, false].map (some ∘ .bool) ∧
      [credited, kept].map (·.find? Reserved.balance) =
        [account (.int greatest), b].map (some ·.toValue) ∧
      [credited', kept'].map (·.find? Reserved.balance) =
        [(account (.int greatest)).toBits, b.toBits].map (some ·.toValue) := by
  intro greatest account b globals globals'
  have hb : b.HoldsWords .modular :=
    (TotalMap.holdsWords_const (Encoding.isWord_int (by decide))).set _
      (Encoding.isWord_int (by decide))
  obtain ⟨stores, stores', checked, hmodular, hbitvector, hagree, hchecked, hmathematical⟩ :=
    (primitives_agree .call).2 b globals globals' (.int 1) (.int 2) 1 0 hb (by decide) (by decide)
      rfl rfl
  have haccepts : Primitive.call.Accepts ⟨.modular, true⟩ b (.int 1) (.int 2) (.int 1) (.int 0) :=
    not_and_of_not_right _ (not_and_of_not_right _ (not_not.2 (by decide)))
  have hnormal : ∀ outcome ∈ checked, outcome.isFailure = false := by
    have hrun : (Primitive.call.procedure ⟨.modular, true⟩).run [.int 1, .int 2, .int 1] globals =
        .ok ((Primitive.call.stores .modular globals b (.int 1) (.int 2) (.int 1) (.int 0)).map
          .normal) :=
      Primitive.run_of_accepts .call hb rfl (Encoding.isWord_int (by decide))
        (Encoding.isWord_int (by decide)) haccepts
    intro outcome hmem
    rw [Except.ok.inj (hchecked.symm.trans hrun)] at hmem
    obtain ⟨store, -, rfl⟩ := List.mem_map.1 hmem
    rfl
  obtain rfl := Primitive.eq_stores_of_run .call hb rfl (Encoding.isWord_int (by decide))
    (Encoding.isWord_int (by decide)) (Primitive.accepts_of_not_checked .call (.inr rfl)) hmodular
  obtain rfl := Primitive.eq_stores_of_run .call hb.toBits rfl (Encoding.isWord_word _ 1)
    (Encoding.isWord_word _ 0) (Primitive.accepts_of_not_checked .call (.inr rfl)) hbitvector
  exact ⟨_, _, _, _, hmodular, hbitvector, (hmathematical hnormal).2 true, hagree, by decide,
    by decide, by decide⟩

end Transfer

end SolidityEncoding
