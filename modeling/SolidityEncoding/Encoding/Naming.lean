import SolidityEncoding.Encoding.Error
import SolidityEncoding.Ty

/-!
# Reserved names

The names that encoded programs share: the balances of accounts, the parameters and results of the
transfer procedures, and the type of addresses.
-/

namespace SolidityEncoding

namespace Reserved

/-- The map from addresses to balances. -/
def balance : String := "__balance"

/-- The account that a procedure runs for. -/
def this : String := "__this"

/-- The account that calls. -/
def msgSender : String := "__msg_sender"

/-- The amount that comes with a call. -/
def msgValue : String := "__msg_value"

/-- The procedure that transfers or has no execution. -/
def transfer : String := "__transfer"

/-- The procedure that transfers or reports failure. -/
def send : String := "__send"

/-- The procedure that calls another account. -/
def call : String := "__call"

/-- Whether a procedure succeeded. -/
def result : String := "__result"

/-- The data that a call returns. -/
def calldata : String := "__calldata"

/-- The amount to be transferred. -/
def amount : String := "amount"

/-- The type of addresses. -/
def addressTy : String := "address_t"

/-- What the names of constructors begin with. -/
def constructor : String := "__constructor"

end Reserved

/-- The name of the constructor of a contract. -/
def constructorName (contract : UInt32) : String :=
  Reserved.constructor ++ "#" ++ toString contract.toNat

/-- Where a value of a reference type lives. -/
inductive DataLocation where
  | storage
  | memory
  | callData
  deriving DecidableEq, Inhabited

/-- The suffix that tells the variants of a reference type apart. -/
def DataLocation.suffix : DataLocation → Except EncodingError String
  | .storage => .ok "stor"
  | .memory => .ok "mem"
  | .callData => .error (.inconsistent .callData)

end SolidityEncoding
