import SolidityEncoding.Proofs.Evaluation
import SolidityEncoding.Proofs.Value.TotalMap

/-!
# Well-formed values

A value is well formed if all maps in it are canonical, those in keys, in values and in tuples too.
Reading and writing well-formed maps gives well-formed values, and so does evaluation in a store of
well-formed values (`Expr.wellFormed_of_eval`): expressions have no other way to make a map than to
write to one.
-/

namespace SolidityEncoding

/-- All maps in a value are canonical. -/
inductive Value.WellFormed : Value → Prop where
  | bool (value : Bool) : WellFormed (.bool value)
  | int (value : Int) : WellFormed (.int value)
  | bv (value : Nat) (width : UInt32) : WellFormed (.bv value width)
  | map {default : Value} {entries : List (Value × Value)}
    (hcanonical : TotalMap.Canonical ⟨default, entries⟩) (hdefault : WellFormed default)
    (hkeys : ∀ entry ∈ entries, WellFormed entry.1)
    (hvalues : ∀ entry ∈ entries, WellFormed entry.2) : WellFormed (.map default entries)
  | tuple {elements : List Value} (h : ∀ element ∈ elements, WellFormed element) :
    WellFormed (.tuple elements)

/-- All values of a store are well formed. -/
def Store.WellFormed (store : Store) : Prop :=
  ∀ name value, store.find? name = some value → value.WellFormed

/-! ### Maps -/

namespace TotalMap

variable {m : TotalMap} {key value : Value}

theorem canonical_of_wellFormed (h : m.toValue.WellFormed) : m.Canonical := by
  cases h with
  | map hcanonical => exact hcanonical

theorem wellFormed_get (h : m.toValue.WellFormed) (key : Value) : (m.get key).WellFormed := by
  cases h with
  | map _ hdefault _ hvalues => exact get_of_forall (p := Value.WellFormed) hdefault hvalues key

theorem wellFormed_const (h : value.WellFormed) : (const value).toValue.WellFormed :=
  .map (canonical_const value) h nofun nofun

theorem wellFormed_set (h : m.toValue.WellFormed) (hkey : key.WellFormed)
    (hvalue : value.WellFormed) : (m.set key value).toValue.WellFormed := by
  have hcanonical := (canonical_of_wellFormed h).set key value
  cases h with
  | map _ hdefault hkeys hvalues =>
    refine .map hcanonical ((default_set m key value).symm ▸ hdefault) ?_ ?_
    · intro entry he
      rcases mem_entries_set he with rfl | he
      · exact hkey
      · exact hkeys entry he
    · intro entry he
      rcases mem_entries_set he with rfl | he
      · exact hvalue
      · exact hvalues entry he

end TotalMap

/-! ### Operators -/

theorem BinaryOp.wellFormed_of_applyInt {op : BinaryOp} {a b : Int} {value : Value}
    (h : op.applyInt a b = .ok value) : value.WellFormed := by
  cases op with
  | add | sub | mul =>
    cases h
    exact .int _
  | div | mod =>
    rw [applyInt] at h
    split at h
    · cases h
    · cases h
      exact .int _
  | lt | gt | lte | gte =>
    cases h
    exact .bool _
  | _ => cases h

theorem BinaryOp.wellFormed_of_apply {op : BinaryOp} {lhs rhs : Except EvalError Value}
    {value : Value} (h : op.apply lhs rhs = .ok value) : value.WellFormed := by
  cases op with
  | and | or | implies =>
    simp only [apply, bind_eq_ok_iff] at h
    obtain ⟨_, -, holds, -, h⟩ := h
    cases holds
    all_goals
      simp only [Bool.false_eq_true, if_true, if_false, bind_eq_ok_iff, pure_eq_ok,
        Except.ok.injEq] at h
      first
        | subst h
          exact .bool _
        | obtain ⟨_, -, _, -, rfl⟩ := h
          exact .bool _
  | eq | neq =>
    simp only [apply, bind_eq_ok_iff, pure_eq_ok, Except.ok.injEq] at h
    obtain ⟨_, -, _, -, rfl⟩ := h
    exact .bool _
  | _ =>
    simp only [apply, bind_eq_ok_iff] at h
    obtain ⟨_, -, _, -, _, -, _, -, h⟩ := h
    exact wellFormed_of_applyInt h

theorem BvBinaryOp.wellFormed_of_apply {op : BvBinaryOp} {width : UInt32} {lhs rhs value : Value}
    (h : op.apply width lhs rhs = .ok value) : value.WellFormed := by
  simp only [apply, bind_eq_ok_iff] at h
  obtain ⟨⟨a, _⟩, -, ⟨b, _⟩, -, h⟩ := h
  split at h
  · cases happly : op.applyBits width a b with
    | none =>
      rw [happly] at h
      cases h
    | some result =>
      rw [happly] at h
      cases h
      cases op with
      | sub | sdiv | srem =>
        obtain ⟨_, -, rfl⟩ := Option.map_eq_some_iff.1 happly
        exact .bv _ _
      | ult | ugt | ule | uge | slt | sgt | sle | sge =>
        cases happly
        exact .bool _
      | _ =>
        cases happly
        exact .bv _ _
  · cases h

theorem BvUnaryOp.wellFormed_of_apply {op : BvUnaryOp} {width : UInt32} {operand value : Value}
    (h : op.apply width operand = .ok value) : value.WellFormed := by
  cases op
  all_goals
    simp only [apply, bind_eq_ok_iff, pure_eq_ok, Except.ok.injEq] at h
    obtain ⟨_, -, _, -, rfl⟩ := h
    exact .bv _ _

theorem Extension.wellFormed_of_apply {kind : Extension} {target : UInt32} {operand value : Value}
    (h : kind.apply target operand = .ok value) : value.WellFormed := by
  cases kind
  all_goals
    simp only [apply, bind_eq_ok_iff, pure_eq_ok, Except.ok.injEq] at h
    obtain ⟨_, -, rfl⟩ := h
    exact .bv _ _

theorem Value.wellFormed_of_extract {operand value : Value} {hi lo : UInt32}
    (h : operand.extract hi lo = .ok value) : value.WellFormed := by
  simp only [extract, bind_eq_ok_iff, pure_eq_ok, Except.ok.injEq] at h
  obtain ⟨_, -, _, -, rfl⟩ := h
  exact .bv _ _

/-! ### Evaluation -/

theorem Value.eq_toValue_of_asMap {value : Value} {m : TotalMap} (h : value.asMap = .ok m) :
    value = m.toValue := by
  cases value with
  | map default entries =>
    cases h
    rfl
  | _ => cases h

namespace Expr

mutual

/-- Evaluation in a store of well-formed values gives well-formed values. -/
theorem wellFormed_of_eval {store : Store} (hstore : store.WellFormed) :
    ∀ (e : Expr) {value : Value}, e.eval store = .ok value → value.WellFormed
  | .bool b, _, h => by
    cases h
    exact .bool b
  | .int n, _, h => by
    cases h
    exact .int n
  | .bv bits width, _, h => by
    cases h
    exact .bv bits width
  | .ident name, value, h => by
    rw [eval_ident] at h
    split at h
    · next hname =>
      cases h
      exact hstore name value hname
    · cases h
  | .error, _, h => nomatch h
  | .unary .not operand, _, h => by
    simp only [eval_not, bind_eq_ok_iff, pure_eq_ok, Except.ok.injEq] at h
    obtain ⟨_, -, _, -, rfl⟩ := h
    exact .bool _
  | .unary .neg operand, _, h => by
    simp only [eval_neg, bind_eq_ok_iff, pure_eq_ok, Except.ok.injEq] at h
    obtain ⟨_, -, _, -, rfl⟩ := h
    exact .int _
  | .binary op lhs rhs, _, h => BinaryOp.wellFormed_of_apply h
  | .ite cond thenExpr elseExpr, _, h => by
    simp only [eval_ite, bind_eq_ok_iff] at h
    obtain ⟨_, -, holds, -, h⟩ := h
    cases holds with
    | true => exact wellFormed_of_eval hstore thenExpr h
    | false => exact wellFormed_of_eval hstore elseExpr h
  | .select base index, _, h => by
    simp only [eval_select, bind_eq_ok_iff, pure_eq_ok, Except.ok.injEq] at h
    obtain ⟨b, hbase, key, -, m, hm, rfl⟩ := h
    cases Value.eq_toValue_of_asMap hm
    exact TotalMap.wellFormed_get (wellFormed_of_eval hstore base hbase) key
  | .update base index value, _, h => by
    simp only [eval_update, bind_eq_ok_iff, pure_eq_ok, Except.ok.injEq] at h
    obtain ⟨b, hbase, m, hm, key, hindex, written, hvalue, rfl⟩ := h
    cases Value.eq_toValue_of_asMap hm
    exact TotalMap.wellFormed_set (wellFormed_of_eval hstore base hbase)
      (wellFormed_of_eval hstore index hindex) (wellFormed_of_eval hstore value hvalue)
  | .tuple elements, _, h => by
    simp only [eval_tuple, bind_eq_ok_iff, pure_eq_ok, Except.ok.injEq] at h
    obtain ⟨values, hvalues, rfl⟩ := h
    exact .tuple (wellFormed_of_evalAll hstore elements hvalues)
  | .bvUnary op width operand, _, h => by
    simp only [eval_bvUnary, bind_eq_ok_iff] at h
    obtain ⟨_, -, h⟩ := h
    exact BvUnaryOp.wellFormed_of_apply h
  | .bvBinary op width lhs rhs, _, h => by
    simp only [eval_bvBinary, bind_eq_ok_iff] at h
    obtain ⟨_, -, _, -, h⟩ := h
    exact BvBinaryOp.wellFormed_of_apply h
  | .extend kind source target operand, _, h => by
    simp only [eval_extend, bind_eq_ok_iff] at h
    obtain ⟨_, -, h⟩ := h
    exact Extension.wellFormed_of_apply h
  | .extract operand hi lo, _, h => by
    simp only [eval_extract, bind_eq_ok_iff] at h
    obtain ⟨_, -, h⟩ := h
    exact Value.wellFormed_of_extract h

theorem wellFormed_of_evalAll {store : Store} (hstore : store.WellFormed) :
    ∀ (es : List Expr) {values : List Value}, evalAll store es = .ok values →
      ∀ value ∈ values, value.WellFormed
  | [], _, h => by
    cases h
    exact nofun
  | e :: rest, _, h => by
    simp only [evalAll_cons, bind_eq_ok_iff, pure_eq_ok, Except.ok.injEq] at h
    obtain ⟨first, hfirst, others, hothers, rfl⟩ := h
    exact List.forall_mem_cons.2
      ⟨wellFormed_of_eval hstore e hfirst, wellFormed_of_evalAll hstore rest hothers⟩

end

end Expr

end SolidityEncoding
