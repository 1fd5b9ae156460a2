/-!
# Types of the verification language

Expressions have one of six kinds of type: truth values, unbounded integers, bitvectors of a fixed
width, total maps, types that are declared by name only, and tuples.  Tuples are types of
expressions; no variable is declared with one.

`Ty.render` is the text of a type, and equality of types is decided by `Ty.same`.
-/

namespace SolidityEncoding

/-- A type of the verification language. -/
inductive Ty where
  | bool
  | int
  /-- Bitvectors of `width` bits. -/
  | bv (width : UInt32)
  /-- Total maps. -/
  | map (key value : Ty)
  /-- A type without structure, introduced by its declaration. -/
  | named (name : String)
  /-- The type of a tuple expression. -/
  | tuple (elements : List Ty)

namespace Ty

instance : Inhabited Ty := ⟨.bool⟩

mutual

/-- The text of a type. -/
def render : Ty → String
  | .bool => "bool"
  | .int => "int"
  | .bv width => "bv" ++ toString width.toNat
  | .map key value => "[" ++ key.render ++ "]" ++ value.render
  | .named name => name
  | .tuple elements => "(" ++ ", ".intercalate (renderAll elements) ++ ")"

/-- The texts of a list of types. -/
def renderAll : List Ty → List String
  | [] => []
  | ty :: rest => ty.render :: renderAll rest

end

/-- Whether a type is a bitvector type. -/
def isBv : Ty → Bool
  | .bv _ => true
  | _ => false

mutual

/-- Whether two types are the same. -/
def same : Ty → Ty → Bool
  | .bool, .bool => true
  | .int, .int => true
  | .bv width, .bv width' => width == width'
  | .map key value, .map key' value' => key.same key' && value.same value'
  | .named name, .named name' => name == name'
  | .tuple elements, .tuple elements' => sameAll elements elements'
  | _, _ => false

/-- Whether two lists of types are the same. -/
def sameAll : List Ty → List Ty → Bool
  | [], [] => true
  | ty :: rest, ty' :: rest' => ty.same ty' && sameAll rest rest'
  | _, _ => false

end

mutual

theorem same_eq_true_iff : ∀ a b : Ty, a.same b = true ↔ a = b
  | .bool, b => by cases b <;> simp [same]
  | .int, b => by cases b <;> simp [same]
  | .bv width, b => by cases b <;> simp [same]
  | .map key value, b => by
    cases b <;> simp [same, same_eq_true_iff key, same_eq_true_iff value]
  | .named name, b => by cases b <;> simp [same]
  | .tuple elements, b => by cases b <;> simp [same, sameAll_eq_true_iff elements]

theorem sameAll_eq_true_iff : ∀ a b : List Ty, sameAll a b = true ↔ a = b
  | [], b => by cases b <;> simp [sameAll]
  | ty :: rest, b => by
    cases b <;> simp [sameAll, same_eq_true_iff ty, sameAll_eq_true_iff rest]

end

instance : DecidableEq Ty := fun a b => decidable_of_iff _ (same_eq_true_iff a b)

end Ty

end SolidityEncoding
