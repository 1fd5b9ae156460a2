import SolidityEncoding.Encoding.Error

/-!
# Writing through a read path

A write to `base[i][j]` is an assignment to `base` of a map that differs at one cell of one cell.
`Expr.writeThrough` turns the read path into that map, rebuilding every level on the way.
-/

namespace SolidityEncoding.Expr

/-- The map that differs from the root of a read path by holding `value` at the end of the path:
`base[i][j]` becomes `base[i := base[i][j := value]]`. -/
def writeThrough (path value : Expr) : Except EncodingError Expr :=
  match path with
  | .select base index =>
    let updated := .update base index value
    if base.isSelect then base.writeThrough updated else .ok updated
  | other => .error (.inconsistent (.notSelect other))

end SolidityEncoding.Expr
