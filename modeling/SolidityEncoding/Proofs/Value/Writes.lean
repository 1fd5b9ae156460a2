import Mathlib.Data.List.Induction
import Mathlib.Data.Set.Finite.Basic
import SolidityEncoding.Proofs.Value.WellFormed

/-!
# Maps that are built by writes

Every total map of a program is a constant map after some writes (`TotalMap.ofWrites`).  Such a map
holds the last value written to a key, or the default where none was (`get_ofWrites`), and it is
canonical.  Canonical maps are equal if and only if they have the same values
(`Canonical.eq_iff_get_eq`).  Values alone tell defaults apart: a map has finitely many entries, so
its default is its value at some integer, and even at one where another map has its default too.

So `==` and `!=` decide whether two maps are the same function, and maps do not show in which order
different keys were written (`ofWrites_determined`).
-/

namespace SolidityEncoding.TotalMap

open Value

variable {m m' : TotalMap} {key default : Value} {writes writes' : List (Value × Value)}

/-! ### Values determine maps -/

theorem get_eq_default (h : ∀ entry ∈ m.entries, entry.1 ≠ key) : m.get key = m.default := by
  unfold get
  cases hfind : findIn key m.entries with
  | none => rfl
  | some value => exact absurd rfl (h _ (mem_of_findIn hfind))

/-- At some integer two maps both have their defaults. -/
theorem exists_get_int_eq_default (m m' : TotalMap) :
    ∃ n : Int, m.get (.int n) = m.default ∧ m'.get (.int n) = m'.default := by
  have hinfinite : (Set.range Value.int).Infinite :=
    Set.infinite_range_of_injective fun _ _ h => Value.int.inj h
  obtain ⟨_, ⟨n, rfl⟩, hfresh⟩ :=
    hinfinite.exists_notMem_finset ((m.entries ++ m'.entries).map Prod.fst).toFinset
  have hne : ∀ entry ∈ m.entries ++ m'.entries, entry.1 ≠ .int n := by
    intro entry hmem heq
    exact hfresh (List.mem_toFinset.2 (List.mem_map.2 ⟨entry, hmem, heq⟩))
  obtain ⟨hm, hm'⟩ := List.forall_mem_append.1 hne
  exact ⟨n, get_eq_default hm, get_eq_default hm'⟩

/-- Canonical maps are equal if they have the same values at the integers and at the keys of their
entries. -/
theorem Canonical.eq_of_get_eq_on (hm : m.Canonical) (hm' : m'.Canonical) {p : Value → Prop}
    (hint : ∀ n : Int, p (.int n)) (hkeys : ∀ entry ∈ m.entries ++ m'.entries, p entry.1)
    (h : ∀ key, p key → m.get key = m'.get key) : m = m' := by
  obtain ⟨n, hn, hn'⟩ := exists_get_int_eq_default m m'
  have hdefault : m.default = m'.default := by rw [← hn, ← hn', h _ (hint n)]
  refine hm.ext hm' hdefault fun key => ?_
  by_cases hkey : p key
  · exact h key hkey
  · -- No entry has such a key.
    have hne : ∀ entry ∈ m.entries ++ m'.entries, entry.1 ≠ key := by
      rintro entry hmem rfl
      exact hkey (hkeys entry hmem)
    obtain ⟨hleft, hright⟩ := List.forall_mem_append.1 hne
    rw [get_eq_default hleft, get_eq_default hright, hdefault]

/-- Canonical maps are equal if and only if they are the same function. -/
theorem Canonical.eq_iff_get_eq (hm : m.Canonical) (hm' : m'.Canonical) :
    m = m' ↔ ∀ key, m.get key = m'.get key := by
  constructor
  · rintro rfl key
    rfl
  · intro h
    exact hm.eq_of_get_eq_on hm' (p := fun _ => True) (fun _ => trivial) (fun _ _ => trivial)
      fun key _ => h key

/-! ### Writes -/

/-- A constant map after a list of writes, the first of them first. -/
def ofWrites (default : Value) (writes : List (Value × Value)) : TotalMap :=
  writes.foldl (fun m write => m.set write.1 write.2) (const default)

/-- The value of the last write to a key. -/
def lastWrite? (key : Value) (writes : List (Value × Value)) : Option Value :=
  (writes.filter (·.1 = key)).getLast?.map Prod.snd

theorem ofWrites_concat (default : Value) (writes : List (Value × Value)) (write : Value × Value) :
    ofWrites default (writes ++ [write]) = (ofWrites default writes).set write.1 write.2 :=
  List.foldl_concat _ (const default) write writes

theorem getLast?_filter_concat {α : Type} (p : α → Bool) (xs : List α) (x : α) :
    ((xs ++ [x]).filter p).getLast? = if p x then some x else (xs.filter p).getLast? := by
  rw [List.filter_append]
  split
  · next h => rw [List.filter_cons_of_pos h, List.filter_nil, List.getLast?_concat]
  · next h => rw [List.filter_cons_of_neg h, List.filter_nil, List.append_nil]

theorem lastWrite?_concat (key : Value) (writes : List (Value × Value)) (write : Value × Value) :
    lastWrite? key (writes ++ [write]) =
      if write.1 = key then some write.2 else lastWrite? key writes := by
  unfold lastWrite?
  rw [getLast?_filter_concat, apply_ite (Option.map Prod.snd), Option.map_some]
  simp only [decide_eq_true_eq]

theorem default_ofWrites (default : Value) (writes : List (Value × Value)) :
    (ofWrites default writes).default = default := by
  induction writes using List.reverseRecOn with
  | nil => rfl
  | append_singleton writes write ih => rw [ofWrites_concat, default_set, ih]

theorem canonical_ofWrites (default : Value) (writes : List (Value × Value)) :
    (ofWrites default writes).Canonical := by
  induction writes using List.reverseRecOn with
  | nil => exact canonical_const default
  | append_singleton writes write ih =>
    rw [ofWrites_concat]
    exact ih.set write.1 write.2

/-- The last write to a key counts. -/
theorem get_ofWrites (default : Value) (writes : List (Value × Value)) (key : Value) :
    (ofWrites default writes).get key = (lastWrite? key writes).getD default := by
  induction writes using List.reverseRecOn with
  | nil => rfl
  | append_singleton writes write ih =>
    rw [ofWrites_concat, get_set (canonical_ofWrites default writes), lastWrite?_concat, ih]
    split <;> rfl

/-- Entries have keys that were written. -/
theorem mem_of_mem_entries_ofWrites {entry : Value × Value}
    (h : entry ∈ (ofWrites default writes).entries) : entry ∈ writes := by
  induction writes using List.reverseRecOn with
  | nil => cases h
  | append_singleton writes write ih =>
    rw [ofWrites_concat] at h
    rw [List.mem_append, List.mem_singleton]
    exact (mem_entries_set h).symm.imp_left ih

theorem lastWrite?_eq_findIn (hs : Sorted writes) (key : Value) :
    lastWrite? key writes = findIn key writes := by
  cases hlast : lastWrite? key writes with
  | none =>
    cases hfind : findIn key writes with
    | none => rfl
    | some value =>
      rw [lastWrite?, Option.map_eq_none_iff, List.getLast?_eq_none_iff,
        List.filter_eq_nil_iff] at hlast
      exact absurd (decide_eq_true rfl) (hlast _ (mem_of_findIn hfind))
  | some value =>
    obtain ⟨⟨other, _⟩, hwrite, rfl⟩ := Option.map_eq_some_iff.1 hlast
    obtain ⟨hmem, hkey⟩ := List.mem_filter.1 (List.mem_of_getLast? hwrite)
    cases of_decide_eq_true hkey
    exact ((findIn_eq_some_iff hs).2 hmem).symm

/-- A canonical map is built by writing its entries. -/
theorem Canonical.ofWrites_entries (hm : m.Canonical) : ofWrites m.default m.entries = m := by
  refine ((canonical_ofWrites _ _).eq_iff_get_eq hm).2 fun key => ?_
  rw [get_ofWrites, lastWrite?_eq_findIn hm.sorted]
  rfl

/-- Only the order of writes to the same key counts. -/
theorem ofWrites_congr (default : Value)
    (h : ∀ key, writes.filter (·.1 = key) = writes'.filter (·.1 = key)) :
    ofWrites default writes = ofWrites default writes' := by
  refine ((canonical_ofWrites _ _).eq_iff_get_eq (canonical_ofWrites _ _)).2 fun key => ?_
  rw [get_ofWrites, get_ofWrites, lastWrite?, lastWrite?, h key]

/-- A value that is a map is well formed if and only if it is built by writing well-formed values to
well-formed keys. -/
theorem wellFormed_iff_exists_ofWrites : m.toValue.WellFormed ↔
    ∃ (default : Value) (writes : List (Value × Value)), default.WellFormed ∧
      (∀ write ∈ writes, write.1.WellFormed ∧ write.2.WellFormed) ∧
        m = ofWrites default writes := by
  constructor
  · intro h
    have hm := (canonical_of_wellFormed h).ofWrites_entries.symm
    cases h with
    | map _ hdefault hkeys hvalues =>
      exact ⟨_, _, hdefault, fun entry he => ⟨hkeys entry he, hvalues entry he⟩, hm⟩
  · rintro ⟨default, writes, hdefault, hwrites, rfl⟩
    induction writes using List.reverseRecOn with
    | nil => exact wellFormed_const hdefault
    | append_singleton writes write ih =>
      obtain ⟨hbefore, hlast⟩ := List.forall_mem_append.1 hwrites
      obtain ⟨hkey, hvalue⟩ := List.forall_mem_singleton.1 hlast
      rw [ofWrites_concat]
      exact wellFormed_set (ih hbefore) hkey hvalue

/-! ### Comparisons -/

theorem toValue_inj : m.toValue = m'.toValue ↔ m = m' := by
  cases m
  cases m'
  simp [toValue]

/-- `==` and `!=` decide whether two canonical maps are the same function. -/
theorem Canonical.eval_equality {store : Store} {lhs rhs : Expr} (hm : m.Canonical)
    (hm' : m'.Canonical) (hlhs : lhs.eval store = .ok m.toValue)
    (hrhs : rhs.eval store = .ok m'.toValue) :
    ∃ same : Bool, (same = true ↔ ∀ key, m.get key = m'.get key) ∧
      (Expr.binary .eq lhs rhs).eval store = .ok (.bool same) ∧
      (Expr.binary .neq lhs rhs).eval store = .ok (.bool !same) := by
  refine ⟨decide (m.toValue = m'.toValue), ?_, Expr.eval_eq_of_ok hlhs hrhs, ?_⟩
  · rw [decide_eq_true_iff, toValue_inj, hm.eq_iff_get_eq hm']
  · rw [Expr.eval_neq_of_ok hlhs hrhs, decide_not]

/-- A map that is built by writes is determined by what it holds.

It holds the last value written to a key, or the default where none was, and no entry of it holds
the default.  Two such maps, whatever their defaults, are equal if and only if they hold the same
values at all keys; if the written keys are well formed, the well-formed keys are enough.  So `==`
and `!=` decide whether two maps hold the same values, and the order of writes to different keys
does not show.  All maps of a program are built in this way: in a store of well-formed values, every
expression whose value is a map gives one that is built by writing well-formed values. -/
theorem ofWrites_determined (default default' : Value) (writes writes' : List (Value × Value)) :
    (∀ key, (ofWrites default writes).get key = (lastWrite? key writes).getD default) ∧
    (∀ entry ∈ (ofWrites default writes).entries, entry.2 ≠ default) ∧
    (ofWrites default writes = ofWrites default' writes' ↔
      ∀ key, (ofWrites default writes).get key = (ofWrites default' writes').get key) ∧
    ((∀ write ∈ writes ++ writes', write.1.WellFormed) →
      (∀ key, key.WellFormed →
        (ofWrites default writes).get key = (ofWrites default' writes').get key) →
      ofWrites default writes = ofWrites default' writes') ∧
    (∀ (store : Store) (lhs rhs : Expr),
      lhs.eval store = .ok (ofWrites default writes).toValue →
      rhs.eval store = .ok (ofWrites default' writes').toValue →
      ∃ same : Bool,
        (same = true ↔
          ∀ key, (ofWrites default writes).get key = (ofWrites default' writes').get key) ∧
        (Expr.binary .eq lhs rhs).eval store = .ok (.bool same) ∧
        (Expr.binary .neq lhs rhs).eval store = .ok (.bool !same)) ∧
    ((∀ key, writes.filter (·.1 = key) = writes'.filter (·.1 = key)) →
      ofWrites default writes = ofWrites default writes') ∧
    ∀ (store : Store) (e : Expr) (m : TotalMap), store.WellFormed → e.eval store = .ok m.toValue →
      ∃ (d : Value) (ws : List (Value × Value)), d.WellFormed ∧
        (∀ write ∈ ws, write.1.WellFormed ∧ write.2.WellFormed) ∧ m = ofWrites d ws := by
  have hm := canonical_ofWrites default writes
  have hm' := canonical_ofWrites default' writes'
  refine ⟨get_ofWrites default writes, ?_, hm.eq_iff_get_eq hm', ?_,
    fun store lhs rhs => hm.eval_equality hm', ofWrites_congr default, ?_⟩
  · intro entry hmem
    rw [← default_ofWrites default writes]
    exact hm.value_ne entry hmem
  · intro hkeys
    refine hm.eq_of_get_eq_on hm' (p := Value.WellFormed) .int fun entry hmem => hkeys entry ?_
    rw [List.mem_append] at hmem ⊢
    exact hmem.imp mem_of_mem_entries_ofWrites mem_of_mem_entries_ofWrites
  · intro store e m hstore he
    exact wellFormed_iff_exists_ofWrites.1 (Expr.wellFormed_of_eval hstore e he)

/-- Two maps of rows are written in different orders, with a row as a key and a write of the default
that takes an earlier write back. -/
theorem ofWrites_determined_rows :
    let row := Value.map (.int 0) [(.int 1, .int 5)]
    let zero := Value.map (.int 0) []
    let m := ofWrites zero [(.int 1, row), (row, row), (.int 2, row), (.int 2, zero)]
    let m' := ofWrites zero [(row, row), (.int 2, row), (.int 1, row), (.int 2, zero)]
    let store : Store := (Table.empty.insert "m" m.toValue).insert "n" m'.toValue
    m.get row = row ∧ m.get (.int 2) = zero ∧ m.get zero = zero ∧
      (Expr.binary .eq (.ident "m") (.ident "n")).eval store = .ok (.bool true) := by
  intro row zero m m' store
  have hrows : ∀ key : Value,
      [(.int 1, row), (row, row), (.int 2, row), (.int 2, zero)].filter (·.1 = key) =
        [(row, row), (.int 2, row), (.int 1, row), (.int 2, zero)].filter (·.1 = key) := by
    intro key
    by_cases hone : Value.int 1 = key
    · subst hone
      rfl
    · by_cases hrow : row = key
      · subst hrow
        rfl
      · simp [List.filter_cons, hone, hrow]
  obtain ⟨hget, -, hsame, -, hequality, horder, -⟩ :=
    ofWrites_determined zero zero [(.int 1, row), (row, row), (.int 2, row), (.int 2, zero)]
      [(row, row), (.int 2, row), (.int 1, row), (.int 2, zero)]
  obtain ⟨same, hiff, heq, -⟩ := hequality store (.ident "m") (.ident "n") rfl rfl
  rw [hiff.2 (hsame.1 (horder hrows))] at heq
  exact ⟨hget row, hget (.int 2), hget zero, heq⟩

end SolidityEncoding.TotalMap
