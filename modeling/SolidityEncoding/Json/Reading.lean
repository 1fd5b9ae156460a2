import SolidityEncoding.Json.Basic

/-!
# Readings of JSON values

A `Reading α` takes a JSON value for a value of `α`, or refuses it.  It may enter only so many
arrays and objects inside one another; what it passes over may be nested deeper.  The number of
levels left is also what a recursive reading (`Reading.fix`) descends on.

A structure is written as an object with a member for each field, or as an array of the fields in
order.  A case of a type with several cases is written as an object whose one member is named for
the case; a case without content may be written as its name alone.
-/

namespace SolidityEncoding.Json

/-- A way to take a JSON value for a value of `α`, entering at most so many levels. -/
abbrev Reading (α : Type) := Nat → Json → Option α

/-- How many levels a text may be nested. -/
def maxDepth : Nat := 127

namespace Reading

variable {α β : Type}

/-- Reads a whole value. -/
def run (r : Reading α) (value : Json) : Option α := r maxDepth value

/-- Reads and then converts. -/
def map (f : α → β) (r : Reading α) : Reading β := fun depth value => (r depth value).map f

/-- Unfolds a recursive reading so many times. -/
def unfold (f : Reading α → Reading α) : Nat → Reading α
  | 0 => fun _ _ => none
  | n + 1 => f (unfold f n)

/-- A reading that refers to itself inside an array or an object.  Every reference enters a level,
so that there cannot be more references than levels. -/
def fix (f : Reading α → Reading α) : Reading α := fun depth => unfold f (depth + 1) depth

/-- Nothing. -/
def null : Reading Unit := fun _ value =>
  match value with
  | .null => some ()
  | _ => none

/-- A truth value. -/
def bool : Reading Bool := fun _ value =>
  match value with
  | .bool b => some b
  | _ => none

/-- A text. -/
def text : Reading String := fun _ value =>
  match value with
  | .text s => some s
  | _ => none

/-- An integer between two bounds, the upper one excluded. -/
def intIn (low high : Int) : Reading Int := fun _ value =>
  match value with
  | .int n => if low ≤ n ∧ n < high then some n else none
  | _ => none

/-- A natural number below a bound. -/
def natBelow (bound : Nat) : Reading Nat := (intIn 0 bound).map Int.toNat

/-- The items of an array. -/
def list (r : Reading α) : Reading (List α)
  | depth + 1, .array items => items.mapM (r depth)
  | _, _ => none

/-- Something that may be missing, as nothing. -/
def optional (r : Reading α) : Reading (Option α) := fun depth value =>
  match value with
  | .null => some none
  | value => (r depth value).map some

/-- The array of two things. -/
def pair (first : Reading α) (second : Reading β) : Reading (α × β)
  | depth + 1, .array [a, b] => do return (← first depth a, ← second depth b)
  | _, _ => none

/-! ### Structures -/

/-- The values of a name among the members of an object. -/
def valuesOf (name : String) (members : List (String × Json)) : List Json :=
  (members.filter (·.1 == name)).map Prod.snd

/-- The value of a name that occurs at most once. -/
def single : List Json → Option (Option Json)
  | [] => some none
  | [value] => some (some value)
  | _ => none

/-- The fields of a structure that is written as an object; unknown members are passed over. -/
def objectFields (names : List String) (members : List (String × Json)) :
    Option (List (Option Json)) :=
  names.mapM fun name => single (valuesOf name members)

/-- The fields of a structure: all of them in an array, or some of them in an object. -/
def record (names : List String) (k : Nat → List (Option Json) → Option α) : Reading α
  | depth + 1, .object members => (objectFields names members).bind (k depth)
  | depth + 1, .array items =>
    if items.length = names.length then k depth (items.map some) else none
  | _, _ => none

/-- The fields of a structure each of which may be missing, also at the end of an array. -/
def partialRecord (names : List String) (k : Nat → List (Option Json) → Option α) : Reading α
  | depth + 1, .object members => (objectFields names members).bind (k depth)
  | depth + 1, .array items =>
    if items.length ≤ names.length then
      k depth (items.map some ++ List.replicate (names.length - items.length) none)
    else none
  | _, _ => none

/-- A field that has to be there. -/
def field (r : Reading α) (depth : Nat) (value : Option Json) : Option α := value.bind (r depth)

/-- A field that may be nothing or missing. -/
def optionalField (r : Reading α) (depth : Nat) : Option Json → Option (Option α)
  | none => some none
  | some value => r.optional depth value

/-- A field that has a default if it is missing. -/
def fieldOr (default : α) (r : Reading α) (depth : Nat) : Option Json → Option α
  | none => some default
  | some value => r depth value

/-! ### Cases -/

/-- A case of a type with several cases: its name, and its content if it is not written as its name
alone. -/
def case (k : Nat → String → Option Json → Option α) : Reading α
  | depth, .text tag => k depth tag none
  | depth + 1, .object [(tag, content)] => k depth tag (some content)
  | _, _ => none

/-- A case without content. -/
def unit (a : α) (depth : Nat) (content : Option Json) : Option α :=
  match content with
  | none => some a
  | some value => (null depth value).map fun _ => a

/-- One of a list of cases without content, which are told apart by name. -/
def oneOf (name : α → String) (cases : List α) : Reading α :=
  case fun depth tag content =>
    (cases.find? (name · == tag)).bind fun a => unit a depth content

end Reading

end SolidityEncoding.Json
