import SolidityEncoding.Value.Basic

/-!
# The order of values

Values are ordered first by kind (truth values, integers, bitvectors, maps, tuples) and then within
each kind: bitvectors by value and then by width, maps by default and then by their entries, and
lists of entries or of elements lexicographically, a list before its extensions.
-/

namespace SolidityEncoding.Value

mutual

/-- The place of one value relative to another. -/
def order : Value → Value → Ordering
  | .bool value, .bool value' => compare value value'
  | .bool _, _ => .lt
  | _, .bool _ => .gt
  | .int value, .int value' => compare value value'
  | .int _, _ => .lt
  | _, .int _ => .gt
  | .bv value width, .bv value' width' =>
    (compare value value').then (compare width.toNat width'.toNat)
  | .bv _ _, _ => .lt
  | _, .bv _ _ => .gt
  | .map default entries, .map default' entries' =>
    (default.order default').then (orderEntries entries entries')
  | .map _ _, _ => .lt
  | _, .map _ _ => .gt
  | .tuple elements, .tuple elements' => orderAll elements elements'

/-- The place of one list of map entries relative to another. -/
def orderEntries : List (Value × Value) → List (Value × Value) → Ordering
  | [], [] => .eq
  | [], _ :: _ => .lt
  | _ :: _, [] => .gt
  | (key, value) :: rest, (key', value') :: rest' =>
    (key.order key').then ((value.order value').then (orderEntries rest rest'))

/-- The place of one list of values relative to another. -/
def orderAll : List Value → List Value → Ordering
  | [], [] => .eq
  | [], _ :: _ => .lt
  | _ :: _, [] => .gt
  | value :: rest, value' :: rest' => (value.order value').then (orderAll rest rest')

end

/-- Puts values into their order. -/
def sort (values : List Value) : List Value :=
  values.mergeSort fun a b => (a.order b).isLE

end SolidityEncoding.Value
