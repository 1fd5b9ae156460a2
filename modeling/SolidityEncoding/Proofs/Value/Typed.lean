import Mathlib.Data.List.Forall2
import SolidityEncoding.Proofs.Word.SmtLib

/-!
# Types of values

`Value.HasTy` says which values a type has.  Total maps keep to their type: reading one gives a
value of the element type, and writing a key and a value of the right types gives a map of the same
type.
-/

namespace SolidityEncoding

/-- A value has a type.  A type without structure has the integers as its values. -/
inductive Value.HasTy : Value → Ty → Prop where
  | bool (value : Bool) : HasTy (.bool value) .bool
  | int (value : Int) : HasTy (.int value) .int
  | named (value : Int) (name : String) : HasTy (.int value) (.named name)
  | bv {value : Nat} {width : UInt32} (h : value < Word.modulus width) :
    HasTy (.bv value width) (.bv width)
  | map {default : Value} {entries : List (Value × Value)} {key elem : Ty}
    (hdefault : HasTy default elem) (hkeys : ∀ entry ∈ entries, HasTy entry.1 key)
    (hvalues : ∀ entry ∈ entries, HasTy entry.2 elem) :
    HasTy (.map default entries) (.map key elem)
  | tuple {elements : List Value} {tys : List Ty} (h : List.Forall₂ HasTy elements tys) :
    HasTy (.tuple elements) (.tuple tys)

namespace Value.HasTy

theorem ofBits {width : UInt32} (x : BitVec width.toNat) : (Value.ofBits x).HasTy (.bv width) :=
  .bv x.isLt

theorem exists_bool {value : Value} (h : value.HasTy .bool) : ∃ b, value = .bool b := by
  cases h with
  | bool b => exact ⟨b, rfl⟩

theorem exists_int {value : Value} (h : value.HasTy .int) : ∃ i, value = .int i := by
  cases h with
  | int i => exact ⟨i, rfl⟩

theorem exists_ofBits {value : Value} {width : UInt32} (h : value.HasTy (.bv width)) :
    ∃ x : BitVec width.toNat, value = .ofBits x := by
  cases h with
  | bv h =>
    obtain ⟨x, rfl⟩ := Word.exists_toNat_eq h
    exact ⟨x, rfl⟩

theorem exists_toValue {value : Value} {key elem : Ty} (h : value.HasTy (.map key elem)) :
    ∃ m : TotalMap, value = m.toValue := by
  cases h with
  | @map default entries => exact ⟨⟨default, entries⟩, rfl⟩

end Value.HasTy

/-! ### Total maps -/

namespace TotalMap

theorem exists_mem_of_findIn {key value : Value} {entries : List (Value × Value)}
    (h : findIn key entries = some value) : ∃ other, (other, value) ∈ entries := by
  induction entries with
  | nil => cases h
  | cons entry rest ih =>
    obtain ⟨other, old⟩ := entry
    rw [findIn] at h
    split at h
    · cases h
    · cases h
      exact ⟨other, List.mem_cons_self⟩
    · obtain ⟨found, hmem⟩ := ih h
      exact ⟨found, List.mem_cons_of_mem _ hmem⟩

theorem mem_insertIn {key value : Value} {entries : List (Value × Value)}
    {entry : Value × Value} (h : entry ∈ insertIn key value entries) :
    entry = (key, value) ∨ entry ∈ entries := by
  induction entries with
  | nil => exact Or.inl (List.mem_singleton.1 h)
  | cons first rest ih =>
    obtain ⟨other, old⟩ := first
    rw [insertIn] at h
    split at h <;> rw [List.mem_cons] at h <;> rw [List.mem_cons]
    · rwa [List.mem_cons] at h
    · exact h.imp_right Or.inr
    · rcases h with rfl | h
      · exact Or.inr (Or.inl rfl)
      · exact (ih h).imp_right Or.inr

theorem mem_of_mem_eraseIn {key : Value} {entries : List (Value × Value)}
    {entry : Value × Value} (h : entry ∈ eraseIn key entries) : entry ∈ entries := by
  induction entries with
  | nil => cases h
  | cons first rest ih =>
    obtain ⟨other, old⟩ := first
    rw [eraseIn] at h
    split at h
    · exact h
    · exact List.mem_cons_of_mem _ h
    · rw [List.mem_cons] at h ⊢
      exact h.imp_right ih

variable {m : TotalMap} {keyTy elemTy : Ty}

theorem default_set (m : TotalMap) (key value : Value) : (m.set key value).default = m.default := by
  unfold set
  split <;> rfl

/-- A write adds no entry but its own. -/
theorem mem_entries_set {key value : Value} {entry : Value × Value}
    (h : entry ∈ (m.set key value).entries) : entry = (key, value) ∨ entry ∈ m.entries := by
  unfold set at h
  split at h
  · exact .inr (mem_of_mem_eraseIn h)
  · exact mem_insertIn h

/-- What holds of the default and of the values of all entries holds at every key. -/
theorem get_of_forall {p : Value → Prop} (hdefault : p m.default)
    (hentries : ∀ entry ∈ m.entries, p entry.2) (key : Value) : p (m.get key) := by
  unfold get
  cases hfind : findIn key m.entries with
  | none => exact hdefault
  | some value =>
    obtain ⟨other, hmem⟩ := exists_mem_of_findIn hfind
    exact hentries _ hmem

theorem get_hasTy (h : m.toValue.HasTy (.map keyTy elemTy)) (key : Value) :
    (m.get key).HasTy elemTy := by
  cases h with
  | map hdefault _ hvalues => exact get_of_forall (p := (·.HasTy elemTy)) hdefault hvalues key

theorem set_hasTy (h : m.toValue.HasTy (.map keyTy elemTy)) {key value : Value}
    (hkey : key.HasTy keyTy) (hvalue : value.HasTy elemTy) :
    (m.set key value).toValue.HasTy (.map keyTy elemTy) := by
  cases h with
  | map hdefault hkeys hvalues =>
    refine .map ((default_set m key value).symm ▸ hdefault) ?_ ?_
    · intro entry he
      rcases mem_entries_set he with rfl | he
      · exact hkey
      · exact hkeys entry he
    · intro entry he
      rcases mem_entries_set he with rfl | he
      · exact hvalue
      · exact hvalues entry he

end TotalMap

end SolidityEncoding
