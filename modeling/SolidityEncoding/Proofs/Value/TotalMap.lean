import Mathlib.Data.List.Perm.Basic
import SolidityEncoding.Proofs.Value.Order
import SolidityEncoding.Proofs.Value.Typed

/-!
# Total maps are functions

A total map is `Canonical` if its entries are in the strict order of their keys and none of them
holds the default.  `set` keeps maps canonical and changes the value at one key (`get_set`), and a
canonical map is determined by its default and its values (`Canonical.ext`).
-/

namespace SolidityEncoding.TotalMap

open Value

variable {key other value old : Value} {entries rest : List (Value × Value)}

/-! ### Entries -/

theorem findIn_cons_of_lt (h : key.order other = .lt) :
    findIn key ((other, value) :: rest) = none := by
  rw [findIn, h]

theorem findIn_cons_self : findIn key ((key, value) :: rest) = some value := by
  rw [findIn, order_self]

theorem findIn_cons_of_gt (h : key.order other = .gt) :
    findIn key ((other, value) :: rest) = findIn key rest := by
  rw [findIn, h]

theorem insertIn_cons_of_lt (h : key.order other = .lt) :
    insertIn key value ((other, old) :: rest) = (key, value) :: (other, old) :: rest := by
  rw [insertIn, h]

theorem insertIn_cons_self :
    insertIn key value ((key, old) :: rest) = (key, value) :: rest := by
  rw [insertIn, order_self]

theorem insertIn_cons_of_gt (h : key.order other = .gt) :
    insertIn key value ((other, old) :: rest) = (other, old) :: insertIn key value rest := by
  rw [insertIn, h]

theorem eraseIn_cons_of_lt (h : key.order other = .lt) :
    eraseIn key ((other, old) :: rest) = (other, old) :: rest := by
  rw [eraseIn, h]

theorem eraseIn_cons_self : eraseIn key ((key, old) :: rest) = rest := by
  rw [eraseIn, order_self]

theorem eraseIn_cons_of_gt (h : key.order other = .gt) :
    eraseIn key ((other, old) :: rest) = (other, old) :: eraseIn key rest := by
  rw [eraseIn, h]

/-- Entries are in the strict order of their keys. -/
def Sorted (entries : List (Value × Value)) : Prop :=
  entries.Pairwise fun a b => a.1.order b.1 = .lt

theorem findIn_eq_none_of_lt (h : ∀ entry ∈ entries, key.order entry.1 = .lt) :
    findIn key entries = none := by
  cases entries with
  | nil => rfl
  | cons entry rest => exact findIn_cons_of_lt (h entry List.mem_cons_self)

theorem mem_of_findIn (h : findIn key entries = some value) : (key, value) ∈ entries := by
  induction entries with
  | nil => cases h
  | cons entry rest ih =>
    obtain ⟨other, old⟩ := entry
    rcases order_cases key other with hk | rfl | hk
    · rw [findIn_cons_of_lt hk] at h
      cases h
    · rw [findIn_cons_self] at h
      cases h
      exact List.mem_cons_self
    · rw [findIn_cons_of_gt hk] at h
      exact List.mem_cons_of_mem _ (ih h)

/-- Entering a value is seen at its key and nowhere else.  Entries need not be sorted for that: a
lookup and an entry stop at the same place. -/
theorem findIn_insertIn (key other value : Value) (entries : List (Value × Value)) :
    findIn other (insertIn key value entries) =
      if key = other then some value else findIn other entries := by
  induction entries with
  | nil =>
    rw [insertIn]
    rcases order_cases other key with ho | rfl | ho
    · rw [findIn_cons_of_lt ho, if_neg (ne_of_order_lt ho).symm, findIn]
    · rw [findIn_cons_self, if_pos rfl]
    · rw [findIn_cons_of_gt ho, if_neg (ne_of_order_gt ho).symm]
  | cons entry rest ih =>
    obtain ⟨first, old⟩ := entry
    -- Where the value is entered, and then where the lookup stops.
    rcases order_cases key first with hk | rfl | hk
    · rw [insertIn_cons_of_lt hk]
      rcases order_cases other key with ho | rfl | ho
      · rw [findIn_cons_of_lt ho, if_neg (ne_of_order_lt ho).symm,
          findIn_cons_of_lt (order_lt_trans ho hk)]
      · rw [findIn_cons_self, if_pos rfl]
      · rw [findIn_cons_of_gt ho, if_neg (ne_of_order_gt ho).symm]
    · rw [insertIn_cons_self]
      rcases order_cases other key with ho | rfl | ho
      · rw [findIn_cons_of_lt ho, if_neg (ne_of_order_lt ho).symm, findIn_cons_of_lt ho]
      · rw [findIn_cons_self, if_pos rfl]
      · rw [findIn_cons_of_gt ho, if_neg (ne_of_order_gt ho).symm, findIn_cons_of_gt ho]
    · rw [insertIn_cons_of_gt hk]
      rcases order_cases other first with ho | rfl | ho
      · have hlt : other.order key = .lt := order_lt_trans ho (Std.OrientedCmp.gt_iff_lt.1 hk)
        rw [findIn_cons_of_lt ho, if_neg (ne_of_order_lt hlt).symm, findIn_cons_of_lt ho]
      · rw [findIn_cons_self, if_neg (ne_of_order_gt hk), findIn_cons_self]
      · rw [findIn_cons_of_gt ho, ih, findIn_cons_of_gt ho]

theorem findIn_eraseIn (hs : Sorted entries) (key other : Value) :
    findIn other (eraseIn key entries) = if key = other then none else findIn other entries := by
  induction entries with
  | nil => simp [eraseIn, findIn]
  | cons entry rest ih =>
    obtain ⟨first, old⟩ := entry
    obtain ⟨hfirst, hrest⟩ := List.pairwise_cons.1 hs
    rcases order_cases key first with hk | rfl | hk
    · rw [eraseIn_cons_of_lt hk]
      split
      · next h => exact findIn_cons_of_lt (h ▸ hk)
      · rfl
    · rw [eraseIn_cons_self]
      rcases order_cases other key with ho | rfl | ho
      · rw [findIn_cons_of_lt ho, if_neg (ne_of_order_lt ho).symm,
          findIn_eq_none_of_lt fun entry h => order_lt_trans ho (hfirst entry h)]
      · rw [if_pos rfl, findIn_eq_none_of_lt hfirst]
      · rw [if_neg (ne_of_order_gt ho).symm, findIn_cons_of_gt ho]
    · rw [eraseIn_cons_of_gt hk]
      rcases order_cases other first with ho | rfl | ho
      · rw [findIn_cons_of_lt ho, findIn_cons_of_lt ho, ite_self]
      · rw [findIn_cons_self, if_neg (ne_of_order_gt hk), findIn_cons_self]
      · rw [findIn_cons_of_gt ho, ih hrest, findIn_cons_of_gt ho]

theorem Sorted.insertIn (hs : Sorted entries) (key value : Value) :
    Sorted (insertIn key value entries) := by
  induction entries with
  | nil => exact List.pairwise_singleton _ _
  | cons entry rest ih =>
    obtain ⟨first, old⟩ := entry
    obtain ⟨hfirst, hrest⟩ := List.pairwise_cons.1 hs
    rcases order_cases key first with hk | rfl | hk
    · rw [insertIn_cons_of_lt hk]
      refine List.pairwise_cons.2 ⟨?_, hs⟩
      intro entry h
      rcases List.mem_cons.1 h with rfl | h
      · exact hk
      · exact order_lt_trans hk (hfirst entry h)
    · rw [insertIn_cons_self]
      exact List.pairwise_cons.2 ⟨hfirst, hrest⟩
    · rw [insertIn_cons_of_gt hk]
      refine List.pairwise_cons.2 ⟨?_, ih hrest⟩
      intro entry h
      rcases mem_insertIn h with rfl | h
      · exact Std.OrientedCmp.gt_iff_lt.1 hk
      · exact hfirst entry h

theorem Sorted.eraseIn (hs : Sorted entries) (key : Value) : Sorted (eraseIn key entries) := by
  induction entries with
  | nil => exact hs
  | cons entry rest ih =>
    obtain ⟨first, old⟩ := entry
    obtain ⟨hfirst, hrest⟩ := List.pairwise_cons.1 hs
    rcases order_cases key first with hk | rfl | hk
    · rwa [eraseIn_cons_of_lt hk]
    · rwa [eraseIn_cons_self]
    · rw [eraseIn_cons_of_gt hk]
      exact List.pairwise_cons.2 ⟨fun entry h => hfirst entry (mem_of_mem_eraseIn h), ih hrest⟩

theorem findIn_eq_some_iff (hs : Sorted entries) :
    findIn key entries = some value ↔ (key, value) ∈ entries := by
  induction entries with
  | nil => simp [findIn]
  | cons entry rest ih =>
    obtain ⟨first, old⟩ := entry
    obtain ⟨hfirst, hrest⟩ := List.pairwise_cons.1 hs
    have hnot : key.order first ≠ .gt → (key, value) ∉ rest := by
      intro hk h
      exact hk (Std.OrientedCmp.gt_iff_lt.2 (hfirst _ h))
    rcases order_cases key first with hk | rfl | hk
    · rw [findIn_cons_of_lt hk]
      simp [ne_of_order_lt hk, hnot (by rw [hk]; decide)]
    · rw [findIn_cons_self]
      simp [hnot (by rw [order_self]; decide), eq_comm]
    · rw [findIn_cons_of_gt hk, ih hrest]
      simp [ne_of_order_gt hk]

/-- Sorted entries with the same lookups are the same. -/
theorem eq_of_findIn_eq {entries' : List (Value × Value)} (hs : Sorted entries)
    (hs' : Sorted entries') (h : ∀ key, findIn key entries = findIn key entries') :
    entries = entries' := by
  have hnodup : ∀ {l : List (Value × Value)}, Sorted l → l.Nodup := fun hl =>
    hl.imp fun hlt heq => ne_of_order_lt hlt (congrArg Prod.fst heq)
  have hperm : entries.Perm entries' := by
    rw [List.perm_ext_iff_of_nodup (hnodup hs) (hnodup hs')]
    rintro ⟨key, value⟩
    rw [← findIn_eq_some_iff hs, ← findIn_eq_some_iff hs', h]
  refine List.Perm.eq_of_pairwise ?_ hs hs' hperm
  intro a b _ _ hab hba
  exact absurd (order_lt_trans hab hba) (fun hlt => ne_of_order_lt hlt rfl)

/-! ### Maps -/

/-- Entries are sorted, and none of them holds the default. -/
structure Canonical (m : TotalMap) : Prop where
  sorted : Sorted m.entries
  value_ne : ∀ entry ∈ m.entries, entry.2 ≠ m.default

theorem canonical_const (default : Value) : (const default).Canonical :=
  ⟨List.Pairwise.nil, nofun⟩

variable {m : TotalMap}

theorem Canonical.set (hm : m.Canonical) (key value : Value) : (m.set key value).Canonical := by
  unfold TotalMap.set
  split
  · exact ⟨hm.sorted.eraseIn key, fun entry h => hm.value_ne entry (mem_of_mem_eraseIn h)⟩
  · next hne =>
    refine ⟨hm.sorted.insertIn key value, fun entry h => ?_⟩
    rcases mem_insertIn h with rfl | h
    · exact hne
    · exact hm.value_ne entry h

/-- A write is seen at its key and nowhere else. -/
theorem get_set (hm : m.Canonical) (key value other : Value) :
    (m.set key value).get other = if key = other then value else m.get other := by
  unfold set get
  split
  · next hdefault =>
    rw [findIn_eraseIn hm.sorted]
    split
    · exact hdefault.symm
    · rfl
  · rw [findIn_insertIn]
    split <;> rfl

theorem get_set_self (hm : m.Canonical) (key value : Value) :
    (m.set key value).get key = value := by
  rw [get_set hm, if_pos rfl]

theorem get_set_of_ne (hm : m.Canonical) {key other : Value} (h : key ≠ other) (value : Value) :
    (m.set key value).get other = m.get other := by
  rw [get_set hm, if_neg h]

/-- A canonical map is determined by its default and its values. -/
theorem Canonical.ext {m' : TotalMap} (hm : m.Canonical) (hm' : m'.Canonical)
    (hdefault : m.default = m'.default) (hget : ∀ key, m.get key = m'.get key) : m = m' := by
  -- No entry holds the default, so values determine which keys have entries.
  have hfind : ∀ {n : TotalMap} (_ : n.Canonical) (key : Value),
      findIn key n.entries = if n.get key = n.default then none else some (n.get key) := by
    intro n hn key
    unfold get
    cases h : findIn key n.entries with
    | none => exact (if_pos rfl).symm
    | some value => exact (if_neg (hn.value_ne _ ((findIn_eq_some_iff hn.sorted).1 h))).symm
  have hentries : m.entries = m'.entries := by
    refine eq_of_findIn_eq hm.sorted hm'.sorted fun key => ?_
    rw [hfind hm, hfind hm', hget, hdefault]
  cases m
  cases m'
  cases hdefault
  cases hentries
  rfl

/-- Writing back what was there before undoes a write. -/
theorem set_set_get (hm : m.Canonical) (key value : Value) :
    (m.set key value).set key (m.get key) = m := by
  refine ((hm.set key value).set key (m.get key)).ext hm ?_ fun other => ?_
  · rw [default_set, default_set]
  · rw [get_set (hm.set key value), get_set hm]
    split
    · next h => rw [h]
    · rfl

end SolidityEncoding.TotalMap
