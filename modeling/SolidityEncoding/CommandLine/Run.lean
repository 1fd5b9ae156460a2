import SolidityEncoding.CommandLine.Command
import SolidityEncoding.Encoding.Arithmetic
import SolidityEncoding.Encoding.Conversion
import SolidityEncoding.Encoding.Prelude
import SolidityEncoding.Json.Form
import SolidityEncoding.Json.Printer
import SolidityEncoding.Program.Printer
import SolidityEncoding.Text.Numeral

/-!
# What commands do

`Command.run` gives what a command prints, or the error that it ends with, and the file that it
writes.  Writing the file is left to the program; `Report.afterWriting` says what is printed then.
-/

namespace SolidityEncoding.CommandLine

/-- Why a file cannot be written, in the words of the system. -/
structure WriteError where
  text : String
  /-- The number that the system gives the cause. -/
  number : Option Nat
  deriving DecidableEq, Inhabited

/-- The text of an error, with its number if it has one. -/
def WriteError.message (error : WriteError) : String :=
  match error.number with
  | some number => error.text ++ " (os error " ++ toString number ++ ")"
  | none => error.text

/-- Why a command fails. -/
inductive CommandError where
  | noShape (type : SourceType)
  | unknownUnary (token : String)
  | badOperand (token : String)
  | badTerms
  | encoding (cause : EncodingError)
  | program (cause : ProgramError)
  | unprintable
  | notWritten (path : String) (cause : WriteError)

instance : Inhabited CommandError := ⟨.badTerms⟩

/-- The text of an error, with its cause. -/
def CommandError.message : CommandError → String
  | .noShape type => "type " ++ type.render ++ " has no fixed bit width"
  | .unknownUnary token => "unknown unary operator '" ++ token ++ "'"
  | .badOperand token => "'" ++ token ++ "' is neither an integer literal nor an identifier"
  | .badTerms => "expected `lhs op rhs` or `op operand`"
  | .encoding cause => cause.message
  | .program cause => cause.message
  | .unprintable => "the expression cannot be printed"
  | .notWritten path cause =>
    "failed to write " ++ path ++ "\n\nCaused by:\n    " ++ cause.message

/-- How a command ends. -/
structure Report where
  /-- The exit status. -/
  code : UInt8
  stdout : String
  stderr : String
  deriving DecidableEq, Inhabited

namespace Report

/-- The end of a command that succeeds. -/
def ok (stdout : String) : Report := ⟨0, stdout, ""⟩

/-- The end of a command that fails. -/
def failed (error : CommandError) : Report := ⟨1, "", "Error: " ++ error.message ++ "\n"⟩

/-- The end of a command line that is no command. -/
def misused : Report := ⟨2, "", "usage: builtins | encode | convert | tcc\n"⟩

end Report

/-- What a command does. -/
inductive Effect where
  /-- It ends. -/
  | done (report : Report)
  /-- It writes a file, and how it ends depends on that. -/
  | write (path content : String) (next : Except WriteError Unit → Report)

instance : Inhabited Effect := ⟨.done default⟩

/-- The end of a command that writes a file of a number of declarations. -/
def Report.afterWriting (path : String) (declarations : Nat) : Except WriteError Unit → Report
  | .ok () =>
    .ok (" SUCCESS: Wrote " ++ toString declarations ++ " declarations to " ++ path ++ "\n")
  | .error cause => .failed (.notWritten path cause)

namespace Command

/-- Whether a character may stand in an identifier after the first. -/
def isNameChar (c : Char) : Bool := c.isAlphanum || c == '_' || c == '.'

/-- Whether a text is an identifier: ASCII letters, digits, underscores and points, beginning with
a letter or an underscore. -/
def isName (text : String) : Bool :=
  match text.toList with
  | [] => false
  | c :: rest => (c.isAlpha || c == '_') && rest.all isNameChar

/-- The identifier that a word is. -/
def identifier (word : String) : Except CommandError Expr :=
  if isName word then .ok (.ident word) else .error (.badOperand word)

/-- The operand of a shape that a word is: an integer literal or an identifier. -/
def operand (encoding : Encoding) (bits : UInt32) (word : String) : Except CommandError Expr :=
  match Text.integer? word with
  | some value => .ok (encoding.literal value bits)
  | none => identifier word

/-- The lines of diagnostics. -/
def warnings (diagnostics : List Diagnostic) : String :=
  String.join (diagnostics.map fun d => "warning: " ++ d.message ++ "\n")

/-- The text of an expression. -/
def textOf (e : Expr) : Except CommandError String :=
  match e.render? with
  | some text => .ok text
  | none => .error .unprintable

/-- The operation that the words of `encode` are. -/
def operation (encoding : Encoding) (shape : Shape) (terms : List String) :
    Except CommandError (Encode Encoded) :=
  match terms with
  | [op, word] => do
    match SourceUnaryOp.ofToken? op with
    | none => throw (.unknownUnary op)
    | some op => return op.encode shape (← operand encoding shape.bits word) none
  | [lhs, op, rhs] => do
    let op ← (SourceBinaryOp.parse op).mapError .encoding
    let lhs ← operand encoding shape.bits lhs
    let rhs ← operand encoding shape.bits rhs
    return op.encode shape lhs rhs none
  | _ => throw .badTerms

/-- The text of a program. -/
def textOfProgram (style : Style) (program : Program) : Except CommandError String :=
  match program.render? style with
  | some text => .ok text
  | none => .error .unprintable

/-- What `encode` prints: the value, its condition, the functions declared, and the diagnostics. -/
def runEncode (encoding : Encoding) (type : SourceType) (terms : List String) :
    Except CommandError String := do
  let some shape := type.shape? | throw (.noShape type)
  let (encoded, s) := (← operation encoding shape terms).run (.start ⟨encoding, false⟩)
  let value ← textOf encoded.value
  let condition ← match encoded.condition with
    | some condition => textOf condition
    | none => pure "none"
  let functions ← (Program.empty.addAll s.builtinDecls).mapError .program
  return "value: " ++ value ++ "\ncondition: " ++ condition ++ "\n" ++
    (← textOfProgram .standard functions) ++ warnings s.diagnostics

/-- What `convert` prints. -/
def runConvert (encoding : Encoding) (source target : SourceType) (explicit : Bool)
    (word : String) : Except CommandError String := do
  let e ← match Text.integer? word with
    | some value => pure (.int value)
    | none => identifier word
  let conversion :=
    if explicit then explicitConversion e (some source) (some target)
    else implicitConversion e source target
  let (converted, _) := conversion.run (.start ⟨encoding, false⟩)
  return (← textOf (← converted.mapError .encoding)) ++ "\n"

/-- The program that `builtins` is about, and its text.  Nothing is reported on the way to it. -/
def runBuiltins (config : EncodingConfig) (json sourceAttributes colors : Bool) :
    Except CommandError (Program × String) := do
  let built ← (builtinProgram config).mapError .program
  let style := { Style.standard with colors, sourceAttributes }
  let text ← if json then pure built.program.toJson.pretty
    else textOfProgram style built.program
  return (built.program, text)

/-- The effect of a command that only prints. -/
def printing : Except CommandError String → Effect
  | .ok text => .done (.ok text)
  | .error error => .done (.failed error)

/-- What a command does.  Colours are only used on a terminal. -/
def run (terminal : Bool) : Command → Effect
  | .version => .done (.ok "solvc 0.1.0\n")
  | .help => .done (.ok "usage: builtins | encode | convert | tcc\n")
  | .builtins config json sourceAttributes color output =>
    let colors := terminal && color && output.isNone
    match runBuiltins config json sourceAttributes colors, output with
    | .error error, _ => .done (.failed error)
    | .ok (_, text), none => .done (.ok text)
    | .ok (program, text), some path => .write path text (Report.afterWriting path program.size)
  | .encode encoding type terms => printing (runEncode encoding type terms)
  | .convert encoding source target explicit word =>
    printing (runConvert encoding source target explicit word)
  | .range type name =>
    printing ((textOf (rangeConstraint (.ident name) type)).map (· ++ "\n"))

end Command

/-- What the words of a command line do. -/
def run (terminal : Bool) (words : List String) : Effect :=
  match Command.parse words with
  | some command => command.run terminal
  | none => .done .misused

end SolidityEncoding.CommandLine
