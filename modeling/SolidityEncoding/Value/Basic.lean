import SolidityEncoding.Ty

/-!
# Values

An expression evaluates to a truth value, an integer, a bitvector, a total map or a tuple.  A total
map is a default value together with the finitely many entries that differ from it, kept in the
order of their keys; `Value.Order` has the order and `Value.TotalMap` the operations that keep
maps in this form.

Equality of values is decided by `Value.same`.
-/

namespace SolidityEncoding

/-- A value of an expression. -/
inductive Value where
  | bool (value : Bool)
  | int (value : Int)
  /-- A bitvector.  Well-formed ones are below `2 ^ width`. -/
  | bv (value : Nat) (width : UInt32)
  /-- A total map: the value at every key without an entry, and the entries. -/
  | map (default : Value) (entries : List (Value × Value))
  | tuple (elements : List Value)

namespace Value

instance : Inhabited Value := ⟨.bool false⟩

mutual

/-- The text of a value. -/
def render : Value → String
  | .bool value => if value then "true" else "false"
  | .int value => toString value
  | .bv value width => toString value ++ "bv" ++ toString width.toNat
  | .map default entries =>
    "[" ++ String.join (renderEntries entries) ++ "_ := " ++ default.render ++ "]"
  | .tuple elements => "(" ++ ", ".intercalate (renderAll elements) ++ ")"

/-- The texts of the entries of a map, each with the comma after it. -/
def renderEntries : List (Value × Value) → List String
  | [] => []
  | (key, value) :: rest =>
    (key.render ++ " := " ++ value.render ++ ", ") :: renderEntries rest

/-- The texts of a list of values. -/
def renderAll : List Value → List String
  | [] => []
  | value :: rest => value.render :: renderAll rest

end

mutual

/-- Whether two values are the same. -/
def same : Value → Value → Bool
  | .bool value, .bool value' => value == value'
  | .int value, .int value' => value == value'
  | .bv value width, .bv value' width' => value == value' && width == width'
  | .map default entries, .map default' entries' =>
    default.same default' && sameEntries entries entries'
  | .tuple elements, .tuple elements' => sameAll elements elements'
  | _, _ => false

/-- Whether two lists of map entries are the same. -/
def sameEntries : List (Value × Value) → List (Value × Value) → Bool
  | [], [] => true
  | (key, value) :: rest, (key', value') :: rest' =>
    key.same key' && (value.same value' && sameEntries rest rest')
  | _, _ => false

/-- Whether two lists of values are the same. -/
def sameAll : List Value → List Value → Bool
  | [], [] => true
  | value :: rest, value' :: rest' => value.same value' && sameAll rest rest'
  | _, _ => false

end

mutual

theorem same_eq_true_iff : ∀ a b : Value, a.same b = true ↔ a = b
  | .bool value, b => by cases b <;> simp [same]
  | .int value, b => by cases b <;> simp [same]
  | .bv value width, b => by cases b <;> simp [same]
  | .map default entries, b => by
    cases b <;> simp [same, same_eq_true_iff default, sameEntries_eq_true_iff entries]
  | .tuple elements, b => by cases b <;> simp [same, sameAll_eq_true_iff elements]

theorem sameEntries_eq_true_iff : ∀ a b : List (Value × Value), sameEntries a b = true ↔ a = b
  | [], b => by cases b <;> simp [sameEntries]
  | (key, value) :: rest, b => by
    cases b with
    | nil => simp [sameEntries]
    | cons entry rest' =>
      obtain ⟨key', value'⟩ := entry
      simp [sameEntries, same_eq_true_iff key, same_eq_true_iff value,
        sameEntries_eq_true_iff rest, and_assoc]

theorem sameAll_eq_true_iff : ∀ a b : List Value, sameAll a b = true ↔ a = b
  | [], b => by cases b <;> simp [sameAll]
  | value :: rest, b => by
    cases b <;> simp [sameAll, same_eq_true_iff value, sameAll_eq_true_iff rest]

end

instance : DecidableEq Value := fun a b => decidable_of_iff _ (same_eq_true_iff a b)

mutual

/-- The value of a variable that has a type and has not been assigned. -/
def ofTy : Ty → Value
  | .bool => .bool false
  | .int | .named _ => .int 0
  | .bv width => .bv 0 width
  | .map _ value => .map (ofTy value) []
  | .tuple elements => .tuple (ofTys elements)

/-- The values of variables that have the types of a list and have not been assigned. -/
def ofTys : List Ty → List Value
  | [] => []
  | ty :: rest => ofTy ty :: ofTys rest

end

end Value

end SolidityEncoding
