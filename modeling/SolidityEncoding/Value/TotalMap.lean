import SolidityEncoding.Value.Order

/-!
# Total maps

A total map has a value at every key: the value of the key's entry, or else the default.  Entries
are sorted by key, and none of them holds the default; `set` keeps both, so that two maps with the
same values at all keys are the same.
-/

namespace SolidityEncoding

/-- A total map from values to values. -/
structure TotalMap where
  /-- The value at every key without an entry. -/
  default : Value
  /-- The values at all other keys, in the order of the keys. -/
  entries : List (Value × Value)
  deriving DecidableEq

namespace TotalMap

/-- The value in the entry of `key`. -/
def findIn (key : Value) : List (Value × Value) → Option Value
  | [] => none
  | (other, value) :: rest =>
    match key.order other with
    | .lt => none
    | .eq => some value
    | .gt => findIn key rest

/-- Enters `value` at `key` into sorted entries. -/
def insertIn (key value : Value) : List (Value × Value) → List (Value × Value)
  | [] => [(key, value)]
  | (other, old) :: rest =>
    match key.order other with
    | .lt => (key, value) :: (other, old) :: rest
    | .eq => (key, value) :: rest
    | .gt => (other, old) :: insertIn key value rest

/-- Removes the entry of `key` from sorted entries. -/
def eraseIn (key : Value) : List (Value × Value) → List (Value × Value)
  | [] => []
  | (other, old) :: rest =>
    match key.order other with
    | .lt => (other, old) :: rest
    | .eq => rest
    | .gt => (other, old) :: eraseIn key rest

/-- The map that has the same value everywhere. -/
def const (default : Value) : TotalMap := ⟨default, []⟩

/-- The value at a key. -/
def get (m : TotalMap) (key : Value) : Value := (findIn key m.entries).getD m.default

/-- The map with another value at one key. -/
def set (m : TotalMap) (key value : Value) : TotalMap :=
  if value = m.default then ⟨m.default, eraseIn key m.entries⟩
  else ⟨m.default, insertIn key value m.entries⟩

/-- A total map as a value. -/
def toValue (m : TotalMap) : Value := .map m.default m.entries

end TotalMap

end SolidityEncoding
