import SolidityEncoding.Encoding.Arithmetic

/-!
# Transfer procedures

The three ways to move Ether are procedures on the map of balances.  `__transfer` moves an amount
and takes it that the sender has enough; `__send` either does the same or reports failure; `__call`
either credits the amount that comes with the call or reports failure.  Failure leaves the balances
alone, and the code of the receiver is not executed.

In the modular encoding every balance and amount is first taken to be in the range of `uint256`.
If overflow is checked, the condition of an update becomes an assertion.
-/

namespace SolidityEncoding.Transfer

/-- The shape of balances and amounts. -/
def uint256 : Shape := ⟨256, false⟩

/-- The balance of an account. -/
def balanceOf (account : Expr) : Expr := .select (.ident Reserved.balance) account

/-- The parameters that all three procedures have. -/
def callerParams (encoding : Encoding) : List Binding :=
  [⟨Reserved.this, Encoding.addressTy⟩, ⟨Reserved.msgSender, Encoding.addressTy⟩,
    ⟨Reserved.msgValue, encoding.wordTy 256⟩]

/-- The parameters of a procedure that is given an amount. -/
def amountParams (encoding : Encoding) : List Binding :=
  callerParams encoding ++ [⟨Reserved.amount, encoding.wordTy 256⟩]

/-- Takes it that an account has an amount. -/
def assumeFunds (account amount : Expr) : Encode Stmt := do
  let enough ← SourceBinaryOp.gte.encode uint256 (balanceOf account) amount none
  return .assume enough.value

/-- What is reported if an update of a balance is not exact. -/
def overflowMessage : SourceBinaryOp → String
  | .sub => "Balance underflow"
  | _ => "Balance overflow"

/-- Takes it that a balance and an amount are in range. -/
def assumeRange (encoding : Encoding) (account amount : Expr) : List Stmt :=
  match encoding with
  | .modular =>
    [.assume (rangeConstraint (balanceOf account) .uint256),
      .assume (rangeConstraint amount .uint256)]
  | .mathematical | .bitvector => []

/-- Asserts the condition of an update, if there is one and overflow is checked. -/
def assertExact (checkOverflow : Bool) (op : SourceBinaryOp) : Option Expr → List Stmt
  | some condition =>
    if checkOverflow then
      [.comment "Balances must not overflow",
        .assert condition [.message (overflowMessage op)]]
    else []
  | none => []

/-- Adds an amount to the balance of an account, or subtracts it. -/
def updateBalance (account amount : Expr) (op : SourceBinaryOp) : Encode (List Stmt) := do
  let config := (← get).config
  let updated ← op.encode uint256 (balanceOf account) amount none
  let balance := .ident Reserved.balance
  return assumeRange config.encoding account amount ++
    assertExact config.checkOverflow op updated.condition ++
    [.assign balance (.update balance account updated.value)]

/-- Moves an amount from the sender to the account that runs. -/
def moveFunds (amount : Expr) : Encode (List Stmt) := do
  let credit ← updateBalance (.ident Reserved.this) amount .add
  let debit ← updateBalance (.ident Reserved.msgSender) amount .sub
  return credit ++ debit

/-- Reports success or failure. -/
def setResult (success : Bool) : Stmt := .assign (.ident Reserved.result) (.bool success)

/-- A transfer procedure, which may change the balances and is inlined. -/
def procedure (name label : String) (params returns : List Binding) (body : List Stmt) :
    Procedure where
  name := name
  params := params
  returns := returns
  modifies := [Reserved.balance]
  attributes := [.inline, .message label]
  body := body

/-- The comment that stands for the code of the receiver of an amount. -/
def receiverComment : Stmt := .comment "Fallback function of the receiver is not modelled"

/-- The procedure that moves an amount. -/
def transfer : Encode Procedure := do
  let encoding ← Session.getEncoding
  let funds ← assumeFunds (.ident Reserved.msgSender) (.ident Reserved.amount)
  let move ← moveFunds (.ident Reserved.amount)
  return procedure Reserved.transfer "transfer" (amountParams encoding) []
    (funds :: move ++ [receiverComment])

/-- The procedure that moves an amount or reports failure. -/
def send : Encode Procedure := do
  let encoding ← Session.getEncoding
  let move ← moveFunds (.ident Reserved.amount)
  let funds ← assumeFunds (.ident Reserved.msgSender) (.ident Reserved.amount)
  return procedure Reserved.send "send" (amountParams encoding) [⟨Reserved.result, .bool⟩]
    [funds, receiverComment, .choice (move ++ [setResult true]) [setResult false]]

/-- The procedure that credits the amount of a call or reports failure. -/
def call : Encode Procedure := do
  let encoding ← Session.getEncoding
  let credit ← updateBalance (.ident Reserved.this) (.ident Reserved.msgValue) .add
  return procedure Reserved.call "call" (callerParams encoding)
    [⟨Reserved.result, .bool⟩, ⟨Reserved.calldata, encoding.wordTy 256⟩]
    [.comment "Code of the callee is not modelled",
      .choice (credit ++ [setResult true]) [setResult false]]

/-- All three procedures. -/
def all : Encode (List Procedure) := do
  let transfer ← transfer
  let send ← send
  let call ← call
  return [transfer, send, call]

end SolidityEncoding.Transfer
