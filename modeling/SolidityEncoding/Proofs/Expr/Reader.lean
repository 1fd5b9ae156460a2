import SolidityEncoding.Proofs.Expr.Normal

/-!
# A reader of printed expressions

`Expr.read` reads an expression from the beginning of a text by operator precedence and gives it
back with the rest of the text.  It reads an operand (`Expr.readOperand`) and then goes on with what
follows (`Expr.readOn`) for as long as that binds tightly enough.

The reader is no part of the encoding.  It is the witness that printed expressions are unambiguous,
which is why it accepts the spacing of the printer only.  Its functions are allowed a number of
steps, and `Gives` says what they result in once these are enough, so that no rule has to count
them.
-/

namespace SolidityEncoding

open Text

/-! ### What an operand begins with -/

/-- The beginning of an operand. -/
inductive Opening where
  /-- An expression of a single word. -/
  | leaf (e : Expr)
  | unary (op : UnaryOp)
  | conditional
  /-- An opening parenthesis after the name of a function.  The name is empty where the parenthesis
  encloses an expression or a tuple. -/
  | call (name : List Char)

/-- The expression of a word that does not begin with a digit. -/
def nameExpr (word : List Char) : Expr :=
  if word = "true".toList then .bool true
  else if word = "false".toList then .bool false
  else if word = Expr.errorText.toList then .error
  else .ident (String.ofList word)

/-- The expression of a word that begins with digits, from them and the rest of the word. -/
def numeralExpr? (digits : List Char) : List Char → Option Expr
  | [] => some (.int (digitsValue digits))
  | 'b' :: 'v' :: width => some (.bv (digitsValue digits) (digitsValue width).toUInt32)
  | _ => none

/-- The expression of a word. -/
def leaf? (word : List Char) : Option Expr :=
  match word.takeWhile isDigit with
  | [] => if word = [] then none else some (nameExpr word)
  | digits => numeralExpr? digits (word.dropWhile isDigit)

/-- Reads the beginning of an operand that is not a unary operator. -/
def wordOpening? (cs : List Char) : Option (Opening × List Char) :=
  let word := cs.takeWhile isWordChar
  match cs.dropWhile isWordChar with
  | '(' :: rest => some (.call word, rest)
  | rest =>
    if word = "if".toList then (" ".toList.isPrefixOf? rest).map (.conditional, ·)
    else (leaf? word).map (.leaf ·, rest)

/-- Reads the beginning of an operand. -/
def opening? : List Char → Option (Opening × List Char)
  | '!' :: rest => some (.unary .not, rest)
  | '-' :: rest => some (.unary .neg, rest)
  | cs => wordOpening? cs

/-! ### Applications of functions -/

/-- What the name of an extension begins with. -/
def Extension.stem : Extension → String
  | .zero => "bvzeroext_"
  | .sign => "bvsignext_"

/-- The application of a function to one argument. -/
def unaryCall? (stem widths : List Char) (e : Expr) : Option Expr :=
  match BvUnaryOp.all.find? (·.smtName.toList == stem),
    Extension.all.find? (·.stem.toList == stem) with
  | some op, _ => some (.bvUnary op (digitsValue widths).toUInt32 e)
  | none, some kind =>
    ("_to_".toList.isPrefixOf? (widths.dropWhile isDigit)).map fun target =>
      .extend kind (digitsValue (widths.takeWhile isDigit)).toUInt32 (digitsValue target).toUInt32 e
  | none, none => none

/-- The application of a function to two arguments. -/
def binaryCall? (stem widths : List Char) (lhs rhs : Expr) : Option Expr :=
  (BvBinaryOp.all.find? (·.smtName.toList == stem)).map fun op =>
    .bvBinary op (digitsValue widths).toUInt32 lhs rhs

/-- The expression of a name and what stands in parentheses after it. -/
def call? (name : List Char) (arguments : List Expr) : Option Expr :=
  let stem := name.takeWhile (!isDigit ·)
  let widths := name.dropWhile (!isDigit ·)
  match stem, arguments with
  | [], [e] => some e
  | [], elements => some (.tuple elements)
  | stem, [e] => unaryCall? stem widths e
  | stem, [lhs, rhs] => binaryCall? stem widths lhs rhs
  | _, _ => none

/-! ### What follows an operand -/

/-- What goes on with an operand. -/
inductive Following where
  | operator (op : BinaryOp)
  /-- An opening bracket. -/
  | bracket

/-- How tightly it binds. -/
def Following.strength : Following → Nat
  | .operator op => op.strength
  | .bracket => Strength.postfixed

/-- Reads what goes on with an operand. -/
def following? : List Char → Option (Following × List Char)
  | '[' :: rest => some (.bracket, rest)
  | ' ' :: rest => BinaryOp.all.findSome? fun op =>
    ((op.symbol ++ " ").toList.isPrefixOf? rest).map (.operator op, ·)
  | _ => none

/-! ### Expressions -/

namespace Expr

mutual

/-- Reads an expression at a place. -/
def read : (steps place : Nat) → List Char → Option (Expr × List Char)
  | 0, _, _ => none
  | steps + 1, place, cs => do
    let (opening, cs) ← opening? cs
    let (e, cs) ← readOperand steps opening cs
    readOn steps place e cs

/-- Reads an operand after its beginning. -/
def readOperand : (steps : Nat) → Opening → List Char → Option (Expr × List Char)
  | 0, _, _ => none
  | _ + 1, .leaf e, cs => some (e, cs)
  | steps + 1, .unary op, cs => do
    let (operand, cs) ← read steps Strength.unary cs
    return (.unary op operand, cs)
  | steps + 1, .conditional, cs => do
    let (cond, cs) ← read steps Strength.conditional cs
    let cs ← " then ".toList.isPrefixOf? cs
    let (thenExpr, cs) ← read steps Strength.conditional cs
    let cs ← " else ".toList.isPrefixOf? cs
    let (elseExpr, cs) ← read steps Strength.conditional cs
    return (.ite cond thenExpr elseExpr, cs)
  | steps + 1, .call name, cs => do
    let (arguments, cs) ← readArguments steps cs
    let e ← call? name arguments
    return (e, cs)

/-- Reads arguments up to a closing parenthesis. -/
def readArguments : (steps : Nat) → List Char → Option (List Expr × List Char)
  | 0, _ => none
  | _ + 1, ')' :: rest => some ([], rest)
  | steps + 1, cs => readSequence steps cs

/-- Reads at least one argument up to a closing parenthesis. -/
def readSequence : (steps : Nat) → List Char → Option (List Expr × List Char)
  | 0, _ => none
  | steps + 1, cs => do
    let (e, cs) ← read steps Strength.conditional cs
    match cs with
    | ')' :: rest => some ([e], rest)
    | ',' :: ' ' :: rest =>
      let (es, rest) ← readSequence steps rest
      some (e :: es, rest)
    | _ => none

/-- Goes on with an operand at a place. -/
def readOn : (steps place : Nat) → Expr → List Char → Option (Expr × List Char)
  | 0, _, _, _ => none
  | steps + 1, place, lhs, cs =>
    match following? cs with
    | none => some (lhs, cs)
    | some (following, rest) =>
      if place ≤ following.strength then do
        let (e, rest) ← readFollowing steps lhs following rest
        readOn steps place e rest
      else some (lhs, cs)

/-- Reads one application of an operator, read, write or extraction to an operand. -/
def readFollowing : (steps : Nat) → Expr → Following → List Char → Option (Expr × List Char)
  | 0, _, _, _ => none
  | steps + 1, lhs, .operator op, cs => do
    let (rhs, cs) ← read steps op.placeRight cs
    return (.binary op lhs rhs, cs)
  | steps + 1, lhs, .bracket, cs => do
    let (index, cs) ← read steps Strength.conditional cs
    match cs with
    | ']' :: cs => some (.select lhs index, cs)
    | ':' :: cs =>
      let upper ← index.intLit?
      let (lower, cs) ← read steps Strength.conditional cs
      let lower ← lower.intLit?
      let cs ← "]".toList.isPrefixOf? cs
      some (.extract lhs (upper.toNat - 1).toUInt32 lower.toNat.toUInt32, cs)
    | cs =>
      let cs ← " := ".toList.isPrefixOf? cs
      let (value, cs) ← read steps Strength.conditional cs
      let cs ← "]".toList.isPrefixOf? cs
      some (.update lhs index value, cs)

end

end Expr

/-! ### Enough steps -/

/-- A reader has a result, the same one for every number of steps that is large enough. -/
def Gives {α : Type} (reader : Nat → Option α) (a : α) : Prop :=
  ∃ least, ∀ steps, least ≤ steps → reader steps = some a

namespace Gives

variable {α β : Type} {reader : Nat → Option α} {a : α} {b : β}

/-- The result is unique. -/
theorem unique {a' : α} (h : Gives reader a) (h' : Gives reader a') : a = a' := by
  obtain ⟨least, h⟩ := h
  obtain ⟨least', h'⟩ := h'
  have heq := h (max least least') (Nat.le_max_left _ _)
  rw [h' _ (Nat.le_max_right _ _)] at heq
  exact (Option.some.inj heq).symm

theorem of_eq {result : Option α} (h : result = some a) : Gives (fun _ => result) a :=
  ⟨0, fun _ _ => h⟩

theorem step {next : Nat → Option α} (hstep : ∀ steps, reader (steps + 1) = next steps)
    (h : Gives next a) : Gives reader a := by
  obtain ⟨least, h⟩ := h
  refine ⟨least + 1, fun steps hle => ?_⟩
  cases steps with
  | zero => exact absurd hle (Nat.not_succ_le_zero least)
  | succ steps => exact (hstep steps).trans (h steps (Nat.le_of_succ_le_succ hle))

theorem bind {next : Nat → α → Option β} (h : Gives reader a) (hnext : Gives (next · a) b) :
    Gives (fun steps => reader steps >>= next steps) b := by
  obtain ⟨least, h⟩ := h
  obtain ⟨least', hnext⟩ := hnext
  refine ⟨max least least', fun steps hle => ?_⟩
  dsimp only
  rw [h steps (Nat.le_trans (Nat.le_max_left _ _) hle), Option.bind_eq_bind, Option.bind_some]
  exact hnext steps (Nat.le_trans (Nat.le_max_right _ _) hle)

end Gives

end SolidityEncoding
