import SolidityEncoding.CommandLine.Arguments
import SolidityEncoding.Encoding.Basic
import SolidityEncoding.Source.TypeName

/-!
# Commands

The commands of the program, and the reading of a command from the words of a command line.
-/

namespace SolidityEncoding.CommandLine

/-- A command. -/
inductive Command where
  /-- Prints the version. -/
  | version
  /-- Prints how the program is used. -/
  | help
  /-- Prints the program of the transfer procedures, or writes it to a file. -/
  | builtins (config : EncodingConfig) (json sourceAttributes color : Bool)
      (output : Option String)
  /-- Encodes an operation on operands of a type. -/
  | encode (encoding : Encoding) (type : SourceType) (terms : List String)
  /-- Converts an operand between two types. -/
  | convert (encoding : Encoding) (source target : SourceType) (explicit : Bool)
      (operand : String)
  /-- Prints the range constraint of a type. -/
  | range (type : SourceType) (name : String)

namespace Command

/-- The type of a name. -/
def typeOf? (name : String) : Option SourceType := (SourceType.parse name).toOption

/-- Whether a text is the name of an encoding. -/
def isEncoding (name : String) : Bool := (Encoding.ofName? name).isSome

/-- Whether a text is the name of a type. -/
def isType (name : String) : Bool := (typeOf? name).isSome

/-- The options that every command has. -/
def commonOptions : List OptionSpec :=
  [.flag (some 'v') "verbose", .stopping (some 'h') "help"]

/-- The option for an encoding. -/
def encodingOption : OptionSpec := .valued (some 'e') "encoding" isEncoding

/-- Any words as operands. -/
def anyOperand (_ : Nat) (_ : String) : Bool := true

/-- The words before and including the name of a command; all others belong to the command. -/
def outerGrammar : Grammar :=
  ⟨commonOptions ++ [.stopping (some 'V') "version"], UInt64.size, anyOperand, false, true, false⟩

/-- The words of `builtins`.  The name of a file is not empty. -/
def builtinsGrammar : Grammar :=
  ⟨commonOptions ++
    [encodingOption, .flag none "check-overflow", .flag none "json", .flag none "no-source-attrs",
      .flag none "color", .valued (some 'o') "output" (!·.isEmpty)],
    0, anyOperand, false, false, true⟩

/-- The words of `encode`. -/
def encodeGrammar : Grammar :=
  ⟨commonOptions ++ [encodingOption, .valued (some 't') "type" isType],
    3, anyOperand, true, true, true⟩

/-- The words of `convert`. -/
def convertGrammar : Grammar :=
  ⟨commonOptions ++
    [encodingOption, .valued none "from" isType, .valued none "to" isType,
      .flag none "explicit"],
    1, anyOperand, true, false, true⟩

/-- The words of `tcc`: a type, and the name of a variable. -/
def rangeGrammar : Grammar :=
  ⟨commonOptions, 2, fun count word => count != 0 || isType word, false, false, true⟩

/-- The encoding that is given, or else the default one. -/
def encodingOf (given : Given) : Option Encoding :=
  match given.value? "encoding" with
  | some name => Encoding.ofName? name
  | none => some .mathematical

/-- Reads the words of `builtins`. -/
def ofBuiltins (given : Given) : Option Command := do
  let encoding ← encodingOf given
  return .builtins ⟨encoding, given.has "check-overflow"⟩ (given.has "json")
    (!given.has "no-source-attrs") (given.has "color") (given.value? "output")

/-- Reads the words of `encode`. -/
def ofEncode (given : Given) : Option Command := do
  let encoding ← encodingOf given
  let type ← typeOf? ((given.value? "type").getD "uint256")
  if given.operands.length < 2 then none
  return .encode encoding type given.operands

/-- Reads the words of `convert`. -/
def ofConvert (given : Given) : Option Command := do
  let encoding ← encodingOf given
  let source ← typeOf? (← given.value? "from")
  let target ← typeOf? (← given.value? "to")
  let operand ← given.operands.head?
  return .convert encoding source target (given.has "explicit") operand

/-- Reads the words of `tcc`. -/
def ofRange (given : Given) : Option Command := do
  let type ← typeOf? (← given.operands.head?)
  return .range type ((given.operands[1]?).getD "x")

/-- Reads the words after the name of a command. -/
def ofWords (g : Grammar) (read : Given → Option Command) (words : List String) :
    Option Command := do
  let given ← g.scan words
  if given.stopped.isSome then return .help
  read given

/-- Reads the words of `help`: at most one, which names what help is wanted for. -/
def ofHelp : List String → Option Command
  | [] => some .help
  | [name] => if ["builtins", "encode", "convert", "tcc", "help"].contains name then some .help
    else none
  | _ => none

/-- Reads a command from the words of a command line; `none` if they are no command. -/
def parse (words : List String) : Option Command := do
  let outer ← outerGrammar.scan words
  match outer.stopped with
  | some "version" => return .version
  | some _ => return .help
  | none =>
    match outer.operands with
    | "builtins" :: words => ofWords builtinsGrammar ofBuiltins words
    | "encode" :: words => ofWords encodeGrammar ofEncode words
    | "convert" :: words => ofWords convertGrammar ofConvert words
    | "tcc" :: words => ofWords rangeGrammar ofRange words
    | "help" :: words => ofHelp words
    | _ => none

end Command

end SolidityEncoding.CommandLine
