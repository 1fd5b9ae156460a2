import SolidityEncoding.Encoding.Transfer

/-!
# The program that every encoded program starts from

It declares the type of addresses, the balances, the bitvector functions that the transfer
procedures use, and the three procedures.
-/

namespace SolidityEncoding

/-- A program, with the diagnostics that were reported on the way to it. -/
structure DiagnosedProgram where
  program : Program
  diagnostics : List Diagnostic
  deriving Inhabited

/-- Whether an error was reported. -/
def DiagnosedProgram.hasErrors (p : DiagnosedProgram) : Bool := !p.diagnostics.isEmpty

/-- The declarations that come first: the type of addresses and the balances. -/
def Encoding.preludeDecls (encoding : Encoding) : List Decl :=
  [.type ⟨Reserved.addressTy, []⟩, .var ⟨Reserved.balance, encoding.balanceTy, []⟩]

/-- The program of the declarations of a session, without procedures. -/
def Session.declaredProgram (s : Session) : Except ProgramError Program :=
  Program.empty.addAll (s.encoding.preludeDecls ++ s.builtinDecls)

/-- The program of the transfer procedures. -/
def builtinProgram (config : EncodingConfig) : Except ProgramError DiagnosedProgram := do
  let (procedures, s) := Transfer.all.run (Session.start config)
  let program ← s.declaredProgram
  return ⟨← program.addAll (procedures.map .procedure), s.diagnostics⟩

end SolidityEncoding
