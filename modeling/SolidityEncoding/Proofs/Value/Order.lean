import SolidityEncoding.Value.Order

/-!
# The order of values is linear

`Value.order` compares equal exactly on equal values (`order_eq_iff`), turns around when its
arguments are exchanged (`swap_order`) and is transitive (`order_lt_trans`).  All three are
inductions over nested values, together with the entries of maps and the elements of tuples; where
lists are compared lexicographically, transitivity of the tails is used only behind equal heads.
-/

namespace SolidityEncoding.Value

mutual

theorem order_eq_iff : ∀ a b : Value, a.order b = .eq ↔ a = b
  | .bool value, b => by cases b <;> simp [order]
  | .int value, b => by cases b <;> simp [order]
  | .bv value width, b => by
    cases b <;> simp [order, Ordering.then_eq_eq, UInt32.toNat_inj]
  | .map default entries, b => by
    cases b <;>
      simp [order, Ordering.then_eq_eq, order_eq_iff default, orderEntries_eq_iff entries]
  | .tuple elements, b => by cases b <;> simp [order, orderAll_eq_iff elements]

theorem orderEntries_eq_iff : ∀ a b : List (Value × Value), orderEntries a b = .eq ↔ a = b
  | [], b => by cases b <;> simp [orderEntries]
  | (key, value) :: rest, b => by
    cases b with
    | nil => simp [orderEntries]
    | cons entry rest' =>
      obtain ⟨key', value'⟩ := entry
      simp [orderEntries, Ordering.then_eq_eq, order_eq_iff key, order_eq_iff value,
        orderEntries_eq_iff rest, and_assoc]

theorem orderAll_eq_iff : ∀ a b : List Value, orderAll a b = .eq ↔ a = b
  | [], b => by cases b <;> simp [orderAll]
  | value :: rest, b => by
    cases b <;>
      simp [orderAll, Ordering.then_eq_eq, order_eq_iff value, orderAll_eq_iff rest]

end

mutual

theorem swap_order : ∀ a b : Value, (a.order b).swap = b.order a
  | .bool value, b => by cases b <;> simp [order, ← Std.OrientedOrd.eq_swap]
  | .int value, b => by cases b <;> simp [order, ← Std.OrientedOrd.eq_swap]
  | .bv value width, b => by
    cases b <;> simp [order, Ordering.swap_then, ← Std.OrientedOrd.eq_swap]
  | .map default entries, b => by
    cases b <;>
      simp [order, Ordering.swap_then, swap_order default, swap_orderEntries entries]
  | .tuple elements, b => by cases b <;> simp [order, swap_orderAll elements]

theorem swap_orderEntries :
    ∀ a b : List (Value × Value), (orderEntries a b).swap = orderEntries b a
  | [], b => by cases b <;> simp [orderEntries]
  | (key, value) :: rest, b => by
    cases b with
    | nil => simp [orderEntries]
    | cons entry rest' =>
      obtain ⟨key', value'⟩ := entry
      simp [orderEntries, Ordering.swap_then, swap_order key, swap_order value,
        swap_orderEntries rest]

theorem swap_orderAll : ∀ a b : List Value, (orderAll a b).swap = orderAll b a
  | [], b => by cases b <;> simp [orderAll]
  | value :: rest, b => by
    cases b <;> simp [orderAll, Ordering.swap_then, swap_order value, swap_orderAll rest]

end

/-- Lexicographic order is transitive if its parts are; the tails are compared behind equal
heads only. -/
theorem then_lt_trans {a b c : Value} {p q r : Ordering}
    (hhead : a.order b = .lt → b.order c = .lt → a.order c = .lt)
    (htail : p = .lt → q = .lt → r = .lt) (hab : (a.order b).then p = .lt)
    (hbc : (b.order c).then q = .lt) : (a.order c).then r = .lt := by
  rw [Ordering.then_eq_lt] at hab hbc ⊢
  rcases hab with hab | ⟨hab, hp⟩ <;> rcases hbc with hbc | ⟨hbc, hq⟩
  · exact .inl (hhead hab hbc)
  · rw [order_eq_iff] at hbc
    exact .inl (hbc ▸ hab)
  · rw [order_eq_iff] at hab
    exact .inl (hab ▸ hbc)
  · rw [order_eq_iff] at hab hbc
    exact .inr ⟨(order_eq_iff a c).2 (hab.trans hbc), htail hp hq⟩

mutual

theorem order_lt_trans :
    ∀ {a b c : Value}, a.order b = .lt → b.order c = .lt → a.order c = .lt
  | .bool value, b, c, hab, hbc => by
    cases b <;> cases c <;> simp only [order, reduceCtorEq] at hab hbc ⊢
    exact Std.TransCmp.lt_trans hab hbc
  | .int value, b, c, hab, hbc => by
    cases b <;> cases c <;> simp only [order, reduceCtorEq] at hab hbc ⊢
    exact Std.TransCmp.lt_trans hab hbc
  | .bv value width, b, c, hab, hbc => by
    cases b <;> cases c <;> simp only [order, reduceCtorEq] at hab hbc ⊢
    simp only [Ordering.then_eq_lt, Nat.compare_eq_lt, Nat.compare_eq_eq] at hab hbc ⊢
    omega
  | .map default entries, b, c, hab, hbc => by
    cases b <;> cases c <;> simp only [order, reduceCtorEq] at hab hbc ⊢
    exact then_lt_trans order_lt_trans orderEntries_lt_trans hab hbc
  | .tuple elements, b, c, hab, hbc => by
    cases b <;> cases c <;> simp only [order, reduceCtorEq] at hab hbc ⊢
    exact orderAll_lt_trans hab hbc

theorem orderEntries_lt_trans : ∀ {a b c : List (Value × Value)},
    orderEntries a b = .lt → orderEntries b c = .lt → orderEntries a c = .lt
  | [], b, c, hab, hbc => by
    cases b <;> cases c <;> simp only [orderEntries, reduceCtorEq] at hab hbc ⊢
  | (key, value) :: rest, b, c, hab, hbc => by
    cases b <;> cases c <;> simp only [orderEntries, reduceCtorEq] at hab hbc ⊢
    exact then_lt_trans order_lt_trans (then_lt_trans order_lt_trans orderEntries_lt_trans) hab hbc

theorem orderAll_lt_trans : ∀ {a b c : List Value},
    orderAll a b = .lt → orderAll b c = .lt → orderAll a c = .lt
  | [], b, c, hab, hbc => by
    cases b <;> cases c <;> simp only [orderAll, reduceCtorEq] at hab hbc ⊢
  | value :: rest, b, c, hab, hbc => by
    cases b <;> cases c <;> simp only [orderAll, reduceCtorEq] at hab hbc ⊢
    exact then_lt_trans order_lt_trans orderAll_lt_trans hab hbc

end

theorem order_self (a : Value) : a.order a = .eq := (order_eq_iff a a).2 rfl

instance : Std.LawfulEqCmp order where
  compare_self {a} := order_self a
  eq_of_compare {a b} h := (order_eq_iff a b).1 h

instance : Std.TransCmp order where
  eq_swap {a b} := (swap_order b a).symm
  isLE_trans {a b c} hab hbc := by
    rw [Ordering.isLE_iff_eq_lt_or_eq_eq, order_eq_iff] at hab hbc ⊢
    rcases hab with hab | rfl
    · rcases hbc with hbc | rfl
      · exact .inl (order_lt_trans hab hbc)
      · exact .inl hab
    · exact hbc

theorem order_cases (a b : Value) : a.order b = .lt ∨ a = b ∨ a.order b = .gt := by
  cases h : a.order b with
  | lt => exact .inl rfl
  | eq => exact .inr (.inl (Std.LawfulEqCmp.eq_of_compare h))
  | gt => exact .inr (.inr rfl)

theorem ne_of_order_lt {a b : Value} (h : a.order b = .lt) : a ≠ b := by
  rintro rfl
  rw [order_self] at h
  cases h

theorem ne_of_order_gt {a b : Value} (h : a.order b = .gt) : a ≠ b :=
  (ne_of_order_lt (Std.OrientedCmp.gt_iff_lt.1 h)).symm

end SolidityEncoding.Value
