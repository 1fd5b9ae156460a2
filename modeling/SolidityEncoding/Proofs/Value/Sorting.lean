import SolidityEncoding.Proofs.Value.Writes

/-!
# Values can be sorted and searched

The order of values is the one that its description says (`ComparesValues`), and it is total, with
equality as its equivalence.  So sorting has one result for all lists of the same values
(`sort_eq_sort_iff_perm`), and in entries that are kept sorted a lookup finds what the last
insertion at a key has stored, unless a removal came after it (`findIn_afterEdits`).
-/

namespace SolidityEncoding.Value

/-! ### What is compared -/

/-- The place of the kind of a value among the kinds. -/
def kind : Value → Nat
  | .bool _ => 0
  | .int _ => 1
  | .bv _ _ => 2
  | .map _ _ => 3
  | .tuple _ => 4

/-- Values are compared by kind, bitvectors by value and then by width, maps by default and then by
their entries, key before value, and lists of entries and of elements lexicographically. -/
structure ComparesValues (cmp : Value → Value → Ordering) : Prop where
  kind : ∀ a b, a.kind ≠ b.kind → cmp a b = compare a.kind b.kind
  bool : ∀ x y, cmp (.bool x) (.bool y) = compare x y
  int : ∀ x y, cmp (.int x) (.int y) = compare x y
  bv : ∀ m w n v, cmp (.bv m w) (.bv n v) = (compare m n).then (compare w.toNat v.toNat)
  map : ∀ d es d' es', cmp (.map d es) (.map d' es') =
    (cmp d d').then (es.compareLex (fun e e' => (cmp e.1 e'.1).then (cmp e.2 e'.2)) es')
  tuple : ∀ xs ys, cmp (.tuple xs) (.tuple ys) = xs.compareLex cmp ys

theorem orderEntries_eq_compareLex : ∀ es es' : List (Value × Value),
    orderEntries es es' =
      es.compareLex (fun e e' => (e.1.order e'.1).then (e.2.order e'.2)) es'
  | [], es' => by cases es' <;> rfl
  | _ :: _, [] => rfl
  | (key, value) :: rest, (key', value') :: rest' => by
    rw [orderEntries, List.compareLex_cons_cons, orderEntries_eq_compareLex rest rest',
      Ordering.then_assoc]

theorem orderAll_eq_compareLex : ∀ xs ys : List Value, orderAll xs ys = xs.compareLex order ys
  | [], ys => by cases ys <;> rfl
  | _ :: _, [] => rfl
  | x :: xs, y :: ys => by
    rw [orderAll, List.compareLex_cons_cons, orderAll_eq_compareLex xs ys]

theorem comparesValues_order : ComparesValues order where
  kind a b h := by
    cases a <;> cases b <;> first | rfl | exact absurd rfl h
  bool _ _ := by rw [order]
  int _ _ := by rw [order]
  bv _ _ _ _ := by rw [order]
  map _ _ _ _ := by rw [order, orderEntries_eq_compareLex]
  tuple _ _ := by rw [order, orderAll_eq_compareLex]

/-! ### Sorting -/

theorem isLE_antisymm {a b : Value} (hab : (a.order b).isLE) (hba : (b.order a).isLE) : a = b :=
  (order_eq_iff a b).1 (Std.OrientedCmp.isLE_antisymm hab hba)

theorem isLE_trans (a b c : Value) (hab : (a.order b).isLE) (hbc : (b.order c).isLE) :
    (a.order c).isLE :=
  Std.TransCmp.isLE_trans hab hbc

theorem isLE_total (a b : Value) : (a.order b).isLE ∨ (b.order a).isLE := by
  rcases order_cases a b with h | rfl | h
  · exact .inl (by rw [h]; rfl)
  · exact .inl (by rw [order_self]; rfl)
  · exact .inr (by rw [Std.OrientedCmp.gt_iff_lt.1 h]; rfl)

theorem sort_perm (values : List Value) : (sort values).Perm values :=
  List.mergeSort_perm values _

theorem pairwise_sort (values : List Value) :
    (sort values).Pairwise fun a b => (a.order b).isLE := by
  have htotal : ∀ a b : Value, ((a.order b).isLE || (b.order a).isLE) = true := by
    intro a b
    rw [Bool.or_eq_true]
    exact isLE_total a b
  exact List.pairwise_mergeSort isLE_trans htotal values

/-- The same values are in order in one way only. -/
theorem eq_of_perm_of_pairwise {xs ys : List Value} (hperm : xs.Perm ys)
    (hxs : xs.Pairwise fun a b => (a.order b).isLE)
    (hys : ys.Pairwise fun a b => (a.order b).isLE) : xs = ys :=
  hperm.eq_of_pairwise (fun _ _ _ _ hab hba => isLE_antisymm hab hba) hxs hys

theorem sort_eq_sort_iff_perm {values values' : List Value} :
    sort values = sort values' ↔ values.Perm values' := by
  constructor
  · intro h
    exact (sort_perm values).symm.trans (h ▸ sort_perm values')
  · intro h
    refine eq_of_perm_of_pairwise ?_ (pairwise_sort values) (pairwise_sort values')
    exact (sort_perm values).trans (h.trans (sort_perm values').symm)

end SolidityEncoding.Value

namespace SolidityEncoding.TotalMap

open Value

/-! ### Insertions and removals -/

/-- A change to the entries of a map. -/
inductive Edit where
  | insert (key value : Value)
  | erase (key : Value)

namespace Edit

/-- The key whose entry changes. -/
def key : Edit → Value
  | .insert key _ => key
  | .erase key => key

/-- The value that is stored at the key afterwards. -/
def value? : Edit → Option Value
  | .insert _ value => some value
  | .erase _ => none

def apply : Edit → List (Value × Value) → List (Value × Value)
  | .insert key value, entries => insertIn key value entries
  | .erase key, entries => eraseIn key entries

/-- The change that a write makes: a map has no entries with its default. -/
def ofWrite (default key value : Value) : Edit :=
  if value = default then .erase key else .insert key value

variable {entries : List (Value × Value)}

theorem sorted_apply (hs : Sorted entries) (edit : Edit) : Sorted (edit.apply entries) := by
  cases edit with
  | insert key value => exact hs.insertIn key value
  | erase key => exact hs.eraseIn key

/-- A change is seen at its key and nowhere else. -/
theorem findIn_apply (hs : Sorted entries) (edit : Edit) (key : Value) :
    findIn key (edit.apply entries) =
      if edit.key = key then edit.value? else findIn key entries := by
  cases edit with
  | insert other value => exact findIn_insertIn other key value entries
  | erase other => exact findIn_eraseIn hs other key

end Edit

theorem entries_set (m : TotalMap) (key value : Value) :
    (m.set key value).entries = (Edit.ofWrite m.default key value).apply m.entries := by
  unfold set Edit.ofWrite
  split <;> rfl

/-- Entries after a list of changes, the first of them first. -/
def afterEdits (edits : List Edit) (entries : List (Value × Value)) : List (Value × Value) :=
  edits.foldl (fun entries edit => edit.apply entries) entries

/-- The last change at a key. -/
def lastEdit? (key : Value) (edits : List Edit) : Option Edit :=
  (edits.filter (·.key = key)).getLast?

variable {entries : List (Value × Value)}

theorem afterEdits_concat (edits : List Edit) (edit : Edit) (entries : List (Value × Value)) :
    afterEdits (edits ++ [edit]) entries = edit.apply (afterEdits edits entries) :=
  List.foldl_concat _ entries edit edits

theorem lastEdit?_concat (key : Value) (edits : List Edit) (edit : Edit) :
    lastEdit? key (edits ++ [edit]) =
      if edit.key = key then some edit else lastEdit? key edits := by
  unfold lastEdit?
  rw [getLast?_filter_concat]
  simp only [decide_eq_true_eq]

theorem sorted_afterEdits (hs : Sorted entries) (edits : List Edit) :
    Sorted (afterEdits edits entries) := by
  induction edits using List.reverseRecOn with
  | nil => exact hs
  | append_singleton edits edit ih =>
    rw [afterEdits_concat]
    exact edit.sorted_apply ih

/-- A lookup finds what the last change at the key has left there. -/
theorem findIn_afterEdits (hs : Sorted entries) (edits : List Edit) (key : Value) :
    findIn key (afterEdits edits entries) =
      (lastEdit? key edits).elim (findIn key entries) Edit.value? := by
  induction edits using List.reverseRecOn with
  | nil => rfl
  | append_singleton edits edit ih =>
    rw [afterEdits_concat, edit.findIn_apply (sorted_afterEdits hs edits), lastEdit?_concat, ih]
    split <;> rfl

end SolidityEncoding.TotalMap

namespace SolidityEncoding.Value

open TotalMap

/-- The order of values is total, and sorting and searching by it are sound.

It compares values as its description says, finds the equal ones and no others equal, turns around
when its arguments are exchanged, and is antisymmetric, transitive and total.  Sorting gives the
only arrangement of its input that is in order, so two lists have the same result if and only if
they are rearrangements of each other.  Entries that start out sorted (those of a new map are none)
stay sorted under insertions and removals, of which every write to a map is one.  After any number
of them a lookup finds a value at a key if and only if the two are an entry, and that is the value
of the last insertion at the key, nothing if a removal came last, and what was there before if
neither came. -/
theorem order_lawful :
    ComparesValues order ∧
    (∀ a b : Value, a.order b = .eq ↔ a.same b = true) ∧
    (∀ a b : Value, (a.order b).swap = b.order a) ∧
    (∀ a b : Value, (a.order b).isLE → (b.order a).isLE → a = b) ∧
    (∀ a b c : Value, (a.order b).isLE → (b.order c).isLE → (a.order c).isLE) ∧
    (∀ a b c : Value, a.order b = .lt → b.order c = .lt → a.order c = .lt) ∧
    (∀ a b : Value, (a.order b).isLE ∨ (b.order a).isLE) ∧
    (∀ values sorted : List Value, sorted = sort values ↔
      sorted.Perm values ∧ sorted.Pairwise fun a b => (a.order b).isLE) ∧
    (∀ values values' : List Value, sort values = sort values' ↔ values.Perm values') ∧
    (∀ (m : TotalMap) (key value : Value),
      (m.set key value).entries = (Edit.ofWrite m.default key value).apply m.entries) ∧
    ∀ (entries : List (Value × Value)) (edits : List Edit), Sorted entries →
      Sorted (afterEdits edits entries) ∧ ∀ key : Value,
        (∀ value : Value, findIn key (afterEdits edits entries) = some value ↔
          (key, value) ∈ afterEdits edits entries) ∧
        findIn key (afterEdits edits entries) =
          (lastEdit? key edits).elim (findIn key entries) Edit.value? := by
  refine ⟨comparesValues_order, ?_, swap_order, fun a b => isLE_antisymm,
    isLE_trans, fun a b c => order_lt_trans, isLE_total, ?_,
    fun values values' => sort_eq_sort_iff_perm, entries_set, ?_⟩
  · intro a b
    rw [order_eq_iff, same_eq_true_iff]
  · intro values sorted
    constructor
    · rintro rfl
      exact ⟨sort_perm values, pairwise_sort values⟩
    · rintro ⟨hperm, hsorted⟩
      exact eq_of_perm_of_pairwise (hperm.trans (sort_perm values).symm) hsorted
        (pairwise_sort values)
  · intro entries edits hs
    have hafter := sorted_afterEdits hs edits
    refine ⟨hafter, fun key => ⟨fun value => findIn_eq_some_iff hafter, ?_⟩⟩
    exact findIn_afterEdits hs edits key

/-- A row is entered as a key among tuples and integers, is found, and is removed again. -/
theorem order_lawful_row :
    let row := Value.map (.int 0) [(.int 1, .tuple [.bool true])]
    let edits := [Edit.insert row (.int 7), .insert (.tuple []) row, .insert (.int 3) (.int 4)]
    findIn row (afterEdits edits []) = some (.int 7) ∧
      findIn row (afterEdits (edits ++ [.erase row]) []) = none ∧
      (Value.int 3).order (.tuple []) = .lt ∧
      [.int 3, row, .tuple []] = sort [.tuple [], row, .int 3] := by
  intro row edits
  obtain ⟨-, -, -, -, -, hlt, -, hsort, -, -, hfind⟩ := order_lawful
  refine ⟨?_, ?_, hlt (.int 3) row (.tuple []) rfl rfl, ?_⟩
  · exact ((hfind [] edits .nil).2 row).2
  · exact ((hfind [] (edits ++ [.erase row]) .nil).2 row).2
  · exact (hsort _ _).2 ⟨(List.reverse_perm [.int 3, row, .tuple []]).symm, by decide +kernel⟩

end SolidityEncoding.Value
