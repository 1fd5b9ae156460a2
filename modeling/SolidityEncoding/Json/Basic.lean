/-!
# JSON values

A JSON value as a tree.  Members of an object keep their order, and a name may occur more than
once.  Literals that have the form of JSON and that this library has no use for are kept apart as
`Json.other`: numbers with a fraction or an exponent, and texts with half a surrogate pair.
-/

namespace SolidityEncoding

/-- A JSON value. -/
inductive Json where
  | null
  | bool (value : Bool)
  | int (value : Int)
  | text (value : String)
  /-- A well-formed value that stands for nothing in this library. -/
  | other
  | array (items : List Json)
  | object (members : List (String × Json))

namespace Json

instance : Inhabited Json := ⟨.null⟩

/-- The object with one member, which is how a case of a type with several cases is written. -/
def tagged (tag : String) (body : Json) : Json := .object [(tag, body)]

/-- A natural number. -/
def nat (value : Nat) : Json := .int value

/-- A value that may be missing. -/
def optional {α : Type} (toJson : α → Json) : Option α → Json
  | some a => toJson a
  | none => .null

/-- A list of values. -/
def list {α : Type} (toJson : α → Json) (values : List α) : Json := .array (values.map toJson)

end Json

end SolidityEncoding
