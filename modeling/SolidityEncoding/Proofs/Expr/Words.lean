import SolidityEncoding.Proofs.Expr.Reader
import SolidityEncoding.Proofs.Text.Numeral

/-!
# Reading single words

The reader of `SolidityEncoding.Proofs.Expr.Reader` gets every word back that the printer writes:
literals, identifiers, names of functions with their widths, and operators.

Three kinds of nodes are written as a function and its arguments: the functions of one and of two
bitvectors, and the extensions.  `BvFunction` is such a function at its widths.
-/

namespace SolidityEncoding

open Text

/-! ### Characters -/

theorem isWordChar_of_isDigit {c : Char} (h : isDigit c = true) : isWordChar c = true := by
  simp [isWordChar, Char.isAlphanum, ← isDigit_eq, h]

theorem isWordChar_of_mem_toString {n : Nat} {c : Char} (h : c ∈ (toString n).toList) :
    isWordChar c = true :=
  isWordChar_of_isDigit (isDigit_of_mem_toString h)

/-- The text after a word is not part of the word, nor does it make the word a function. -/
def Boundary (rest : List Char) : Prop := ∀ c ∈ rest.head?, isWordChar c = false ∧ c ≠ '('

/-! ### Literals and identifiers -/

theorem leaf?_of_digits {digits rest : List Char} (hne : digits ≠ [])
    (hdigits : ∀ c ∈ digits, isDigit c = true) (hrest : ∀ c ∈ rest.head?, isDigit c = false) :
    leaf? (digits ++ rest) = numeralExpr? digits rest := by
  rw [leaf?, takeWhile_append_of_head hdigits hrest, dropWhile_append_of_head hdigits hrest]
  cases digits with
  | nil => exact absurd rfl hne
  | cons c cs => rfl

theorem leaf?_toString (n : Nat) : leaf? (toString n).toList = some (.int n) := by
  have hdigits : ∀ c ∈ (toString n).toList, isDigit c = true := fun _ => isDigit_of_mem_toString
  have h := @leaf?_of_digits _ [] (toList_toString_ne_nil n) hdigits nofun
  rw [List.append_nil] at h
  rw [h, numeralExpr?, digitsValue_toString]

theorem leaf?_bv (value : Nat) (width : UInt32) :
    leaf? ((toString value).toList ++ 'b' :: 'v' :: (toString width.toNat).toList) =
      some (.bv value width) := by
  have hrest : ∀ c ∈ ('b' :: 'v' :: (toString width.toNat).toList).head?, isDigit c = false := by
    intro c h
    cases h
    rfl
  rw [leaf?_of_digits (toList_toString_ne_nil value) (fun _ => isDigit_of_mem_toString) hrest,
    numeralExpr?, digitsValue_toString, digitsValue_toString_word]

/-- A word that does not begin with a digit is a name. -/
theorem leaf?_of_head {c : Char} {cs : List Char} (h : isDigit c = false) :
    leaf? (c :: cs) = some (nameExpr (c :: cs)) := by
  rw [leaf?, List.takeWhile_cons_of_neg (by simp [h])]
  rfl

theorem leaf?_ident {name : String} (h : isIdentifier name = true) :
    leaf? name.toList = some (.ident name) := by
  obtain ⟨-, ⟨c, cs, hname, hdigit⟩, hreserved⟩ := isIdentifier_iff.1 h
  have hne (word : String) (hword : word ∈ reservedWords) : name.toList ≠ word.toList := by
    intro heq
    rw [String.toList_inj.1 heq] at hreserved
    exact hreserved hword
  rw [hname, leaf?_of_head hdigit, ← hname, nameExpr, if_neg (hne _ (by decide)),
    if_neg (hne _ (by decide)), if_neg (hne _ (by decide)), String.ofList_toList]

/-! ### The beginning of an operand -/

theorem opening?_of_head {cs : List Char} (h : ∀ c ∈ cs.head?, c ≠ '!' ∧ c ≠ '-') :
    opening? cs = wordOpening? cs := by
  unfold opening?
  split
  · exact absurd rfl (h '!' rfl).1
  · exact absurd rfl (h '-' rfl).2
  · rfl

theorem opening?_of_isWordChar {word rest : List Char}
    (hword : ∀ c ∈ word, isWordChar c = true)
    (hrest : word = [] → ∀ c ∈ rest.head?, c ≠ '!' ∧ c ≠ '-') :
    opening? (word ++ rest) = wordOpening? (word ++ rest) := by
  apply opening?_of_head
  cases word with
  | nil => exact hrest rfl
  | cons c cs =>
    intro d hd
    cases hd
    have hc := hword c List.mem_cons_self
    constructor
    all_goals
      rintro rfl
      exact absurd hc (by decide)

/-- The beginning of a call. -/
theorem opening?_call {name : List Char} (hname : ∀ c ∈ name, isWordChar c = true)
    (rest : List Char) : opening? (name ++ '(' :: rest) = some (.call name, rest) := by
  have hparen : ∀ c ∈ ('(' :: rest).head?, isWordChar c = false := by
    intro c h
    cases h
    rfl
  rw [opening?_of_isWordChar hname (by simp), wordOpening?, takeWhile_append_of_head hname hparen,
    dropWhile_append_of_head hname hparen]
  rfl

/-- A word by itself is a leaf, but the word that begins a conditional. -/
theorem opening?_leaf {word rest : List Char} {e : Expr} (hword : ∀ c ∈ word, isWordChar c = true)
    (hleaf : leaf? word = some e) (hif : e ≠ .ident "if") (hrest : Boundary rest) :
    opening? (word ++ rest) = some (.leaf e, rest) := by
  have hend : ∀ c ∈ rest.head?, isWordChar c = false := fun c h => (hrest c h).1
  have hne : word ≠ [] := by
    rintro rfl
    cases hleaf
  rw [opening?_of_isWordChar hword (absurd · hne), wordOpening?,
    takeWhile_append_of_head hword hend, dropWhile_append_of_head hword hend]
  split
  · exact absurd rfl (hrest '(' rfl).2
  · have hne : word ≠ "if".toList := by
      rintro rfl
      cases hleaf
      exact hif rfl
    rw [if_neg hne, hleaf]
    rfl

theorem opening?_conditional (rest : List Char) :
    opening? ("if ".toList ++ rest) = some (.conditional, rest) := rfl

theorem opening?_unary (op : UnaryOp) (rest : List Char) :
    opening? (op.symbol.toList ++ rest) = some (.unary op, rest) := by
  cases op <;> rfl

/-! ### What follows an operand -/

theorem following?_operator (op : BinaryOp) (rest : List Char) :
    following? (" ".toList ++ (op.symbol.toList ++ (" ".toList ++ rest))) =
      some (.operator op, rest) := by
  cases op <;> rfl

/-! ### Names of functions -/

/-- A bitvector function at its widths. -/
inductive BvFunction where
  | unary (op : BvUnaryOp) (width : UInt32)
  | binary (op : BvBinaryOp) (width : UInt32)
  | extension (kind : Extension) (source target : UInt32)
  deriving DecidableEq

/-- The digits of a number end the part of a name that has none. -/
theorem head?_toString_append (n : Nat) (rest : List Char) :
    ∀ c ∈ ((toString n).toList ++ rest).head?, (!isDigit c) = false := by
  intro c h
  cases hdigits : (toString n).toList with
  | nil => exact absurd hdigits (toList_toString_ne_nil n)
  | cons d ds =>
    rw [hdigits] at h
    cases h
    rw [isDigit_of_mem_toString (hdigits ▸ List.mem_cons_self)]
    rfl

/-- A name is split where its digits begin. -/
theorem call?_append {stem widths : List Char} (hne : stem ≠ [])
    (hstem : ∀ c ∈ stem, (!isDigit c) = true) (hwidths : ∀ c ∈ widths.head?, (!isDigit c) = false)
    (arguments : List Expr) :
    call? (stem ++ widths) arguments =
      match arguments with
      | [e] => unaryCall? stem widths e
      | [lhs, rhs] => binaryCall? stem widths lhs rhs
      | _ => none := by
  unfold call?
  rw [takeWhile_append_of_head hstem hwidths, dropWhile_append_of_head hstem hwidths]
  cases stem with
  | nil => exact absurd rfl hne
  | cons c cs => rcases arguments with _ | ⟨lhs, _ | ⟨rhs, _ | ⟨e, rest⟩⟩⟩ <;> rfl

namespace BvFunction

/-- The name under which the function is declared. -/
def name : BvFunction → String
  | .unary op width => op.functionName width
  | .binary op width => op.functionName width
  | .extension kind source target => kind.functionName source target

/-- What the name begins with. -/
def stem : BvFunction → String
  | .unary op _ => op.smtName
  | .binary op _ => op.smtName
  | .extension kind _ _ => kind.stem

/-- What the name ends with. -/
def widths : BvFunction → List Char
  | .unary _ width | .binary _ width => (toString width.toNat).toList
  | .extension _ source target =>
    (toString source.toNat).toList ++ ("_to_".toList ++ (toString target.toNat).toList)

/-- The function applied to arguments, if there are as many as it has parameters. -/
def applied? : BvFunction → List Expr → Option Expr
  | .unary op width, [operand] => some (.bvUnary op width operand)
  | .binary op width, [lhs, rhs] => some (.bvBinary op width lhs rhs)
  | .extension kind source target, [operand] => some (.extend kind source target operand)
  | _, _ => none

theorem toList_name (f : BvFunction) : f.name.toList = f.stem.toList ++ f.widths := by
  cases f with
  | unary | binary => exact String.toList_append
  | extension kind =>
    cases kind <;> simp [name, Extension.functionName, stem, Extension.stem, widths]

theorem stem_letters (f : BvFunction) : f.stem.toList.head? = some 'b' ∧
    f.stem.toList.all isWordChar = true ∧ f.stem.toList.all (!isDigit ·) = true := by
  cases f with
  | unary op | binary op =>
    rw [stem]
    cases op <;> decide
  | extension kind =>
    rw [stem]
    cases kind <;> decide

theorem isWordChar_of_mem_name {f : BvFunction} {c : Char} (h : c ∈ f.name.toList) :
    isWordChar c = true := by
  obtain ⟨-, hstem, -⟩ := f.stem_letters
  have hto : "_to_".toList.all isWordChar = true := rfl
  rw [toList_name, List.mem_append] at h
  rcases h with h | h
  · exact List.all_eq_true.1 hstem c h
  cases f with
  | unary | binary => exact isWordChar_of_mem_toString h
  | extension =>
    rw [widths, List.mem_append, List.mem_append] at h
    rcases h with h | h | h
    · exact isWordChar_of_mem_toString h
    · exact List.all_eq_true.1 hto c h
    · exact isWordChar_of_mem_toString h

theorem head?_widths (f : BvFunction) : ∀ c ∈ f.widths.head?, (!isDigit c) = false := by
  cases f with
  | unary _ width | binary _ width =>
    rw [widths, ← List.append_nil (toString width.toNat).toList]
    exact head?_toString_append width.toNat []
  | extension => exact head?_toString_append _ _

theorem unaryCall?_stem (f : BvFunction) (e : Expr) :
    unaryCall? f.stem.toList f.widths e = f.applied? [e] := by
  cases f with
  | unary op width =>
    have hfind : BvUnaryOp.all.find? (·.smtName.toList == op.smtName.toList) = some op := by
      cases op <;> decide
    rw [stem, widths, unaryCall?, hfind]
    exact congrArg (fun width => some (Expr.bvUnary op width e)) (digitsValue_toString_word width)
  | binary op width =>
    have hunary : BvUnaryOp.all.find? (·.smtName.toList == op.smtName.toList) = none := by
      cases op <;> decide
    have hextension : Extension.all.find? (·.stem.toList == op.smtName.toList) = none := by
      cases op <;> decide
    rw [stem, unaryCall?, hunary, hextension]
    rfl
  | extension kind source target =>
    have hunary : BvUnaryOp.all.find? (·.smtName.toList == kind.stem.toList) = none := by
      cases kind <;> decide
    have hfind : Extension.all.find? (·.stem.toList == kind.stem.toList) = some kind := by
      cases kind <;> decide
    have hdigits : ∀ c ∈ (toString source.toNat).toList, isDigit c = true :=
      fun _ => isDigit_of_mem_toString
    have hto : ∀ c ∈ ("_to_".toList ++ (toString target.toNat).toList).head?,
        isDigit c = false := by
      intro c h
      cases h
      rfl
    rw [stem, widths, unaryCall?, hunary, hfind]
    dsimp only
    rw [takeWhile_append_of_head hdigits hto, dropWhile_append_of_head hdigits hto,
      digitsValue_toString_word]
    exact congrArg (fun target => some (Expr.extend kind source target e))
      (digitsValue_toString_word target)

theorem binaryCall?_stem (f : BvFunction) (lhs rhs : Expr) :
    binaryCall? f.stem.toList f.widths lhs rhs = f.applied? [lhs, rhs] := by
  cases f with
  | unary op =>
    have hfind : BvBinaryOp.all.find? (·.smtName.toList == op.smtName.toList) = none := by
      cases op <;> decide
    rw [stem, binaryCall?, hfind]
    rfl
  | binary op width =>
    have hfind : BvBinaryOp.all.find? (·.smtName.toList == op.smtName.toList) = some op := by
      cases op <;> decide
    rw [stem, widths, binaryCall?, hfind, Option.map_some, digitsValue_toString_word]
    rfl
  | extension kind =>
    have hfind : BvBinaryOp.all.find? (·.smtName.toList == kind.stem.toList) = none := by
      cases kind <;> decide
    rw [stem, binaryCall?, hfind]
    rfl

/-- The name of a function is read as the function. -/
theorem call?_name (f : BvFunction) (arguments : List Expr) :
    call? f.name.toList arguments = f.applied? arguments := by
  obtain ⟨hhead, -, hstem⟩ := f.stem_letters
  have hne : f.stem.toList ≠ [] := by
    intro h
    rw [h] at hhead
    cases hhead
  rw [toList_name, call?_append hne (List.all_eq_true.1 hstem) f.head?_widths]
  match arguments with
  | [e] => exact f.unaryCall?_stem e
  | [lhs, rhs] => exact f.binaryCall?_stem lhs rhs
  | [] | _ :: _ :: _ :: _ => cases f <;> rfl

end BvFunction

end SolidityEncoding
