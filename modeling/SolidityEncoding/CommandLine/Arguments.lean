/-!
# Options and operands

The words of a command line are options, values of options, and operands.  A `Grammar` says which
options a command knows and how many operands it takes; `Grammar.scan` tells the words apart.

A long option is `--name`, with its value in the next word or after `=`.  Short options stand in
clusters such as `-ab`; one that takes a value takes the rest of its cluster, or else the next word.
After `--` all words are operands.  Every option may be given once.  A value or an operand that its
place does not accept is refused where it stands, before the words after it are looked at.

A command may take operands that begin with a hyphen.  Then a word that names no option it knows is
such an operand, and a cluster is one if any of its letters is unknown.
-/

namespace SolidityEncoding.CommandLine

/-- An option of a command. -/
structure OptionSpec where
  short : Option Char
  long : String
  takesValue : Bool
  /-- Whether a text may be the value of the option. -/
  accepts : String → Bool
  /-- Whether the words after the option do not matter. -/
  stops : Bool
  deriving Inhabited

namespace OptionSpec

/-- An option without a value. -/
def flag (short : Option Char) (long : String) : OptionSpec :=
  ⟨short, long, false, fun _ => true, false⟩

/-- An option with a value that is of some form. -/
def valued (short : Option Char) (long : String) (accepts : String → Bool) : OptionSpec :=
  ⟨short, long, true, accepts, false⟩

/-- An option without a value after which no words matter. -/
def stopping (short : Option Char) (long : String) : OptionSpec :=
  ⟨short, long, false, fun _ => true, true⟩

end OptionSpec

/-- What the words of a command may be. -/
structure Grammar where
  options : List OptionSpec
  /-- How many operands there may be. -/
  maxOperands : Nat
  /-- Whether a word may be the operand after so many others. -/
  accepts : Nat → String → Bool
  /-- Whether operands may begin with a hyphen. -/
  hyphens : Bool
  /-- Whether all words after the first operand are operands. -/
  greedy : Bool
  /-- Whether `--` may stand before the operands. -/
  endsOptions : Bool

/-- What has been told apart so far. -/
structure Given where
  /-- The options with their values; an option without a value has the empty one. -/
  options : List (String × String)
  operands : List String
  /-- An option whose value is in the next word. -/
  pending : Option OptionSpec
  /-- An option after which no words matter. -/
  stopped : Option String
  deriving Inhabited

namespace Given

/-- Nothing. -/
def none : Given := ⟨[], [], .none, .none⟩

/-- Adds an option with its value, unless it is given already or does not accept the value. -/
def addOption (given : Given) (spec : OptionSpec) (value : String) : Option Given :=
  if given.options.any (·.1 == spec.long) || !spec.accepts value then .none
  else some { given with options := given.options ++ [(spec.long, value)] }

/-- Adds a word that is no option: the value of the pending option, or an operand. -/
def addWord (given : Given) (g : Grammar) (word : String) : Option Given :=
  match given.pending with
  | some spec => { given with pending := .none }.addOption spec word
  | .none =>
    let count := given.operands.length
    if count < g.maxOperands && g.accepts count word then
      some { given with operands := given.operands ++ [word] }
    else .none

/-- Adds an option that has been recognised, with the value attached to it. -/
def addSpec (given : Given) (spec : OptionSpec) (attached : Option String) : Option Given :=
  if spec.takesValue then
    match attached with
    | some value => given.addOption spec value
    | .none => some { given with pending := spec }
  else if attached.isSome then .none
  else if spec.stops then some { given with stopped := spec.long }
  else given.addOption spec ""

/-- Whether an option is given. -/
def has (given : Given) (name : String) : Bool := given.options.any (·.1 == name)

/-- The value of an option. -/
def value? (given : Given) (name : String) : Option String :=
  (given.options.find? (·.1 == name)).map Prod.snd

end Given

/-- What a word is. -/
inductive WordKind where
  /-- The word `--`. -/
  | endOfOptions
  /-- A long option that is known, with the value attached to it. -/
  | long (spec : OptionSpec) (attached : Option String)
  /-- A cluster of short options. -/
  | cluster (letters : List Char)
  /-- A value of an option or an operand. -/
  | word
  /-- An option that is not known. -/
  | unknown

namespace Grammar

/-- The long option of a name. -/
def long? (g : Grammar) (name : String) : Option OptionSpec := g.options.find? (·.long == name)

/-- The short option of a letter. -/
def short? (g : Grammar) (letter : Char) : Option OptionSpec :=
  g.options.find? (·.short == some letter)

/-- Tells what a word is when so many operands have been found. -/
def classify (g : Grammar) (operands : Nat) (word : String) : WordKind :=
  let hyphenated := g.hyphens && operands < g.maxOperands
  if g.greedy && operands > 0 then .word
  else
    match word.toList with
    | ['-'] => .word
    | ['-', '-'] => .endOfOptions
    | '-' :: '-' :: rest =>
      let name := String.ofList (rest.takeWhile (· != '='))
      let attached := match rest.dropWhile (· != '=') with
        | [] => none
        | _ :: value => some (String.ofList value)
      match g.long? name with
      | some spec => .long spec attached
      | none => if hyphenated then .word else .unknown
    | '-' :: letters =>
      if hyphenated && letters.any (fun c => (g.short? c).isNone) then .word
      else .cluster letters
    | _ => .word

/-- Adds the options of a cluster. -/
def addCluster (g : Grammar) (given : Given) : List Char → Option Given
  | [] => some given
  | letter :: rest => do
    let spec ← g.short? letter
    if spec.takesValue then
      match rest with
      | [] => given.addSpec spec none
      | '=' :: value => given.addSpec spec (some (String.ofList value))
      | value => given.addSpec spec (some (String.ofList value))
    else
      let given ← given.addSpec spec none
      if given.stopped.isSome then return given else g.addCluster given rest

/-- Tells the words of a command line apart; `none` if they do not fit the grammar. -/
def scanFrom (g : Grammar) (given : Given) : List String → Option Given
  | [] => if given.pending.isSome then none else some given
  | word :: rest => do
    match g.classify given.operands.length word with
    | .word => g.scanFrom (← given.addWord g word) rest
    | .unknown => none
    | .endOfOptions =>
      if given.pending.isSome || !g.endsOptions then none
      else rest.foldlM (fun given word => given.addWord g word) given
    | .long spec attached =>
      if given.pending.isSome then none
      let given ← given.addSpec spec attached
      if given.stopped.isSome then return given else g.scanFrom given rest
    | .cluster letters =>
      if given.pending.isSome then none
      let given ← g.addCluster given letters
      if given.stopped.isSome then return given else g.scanFrom given rest

/-- Tells the words of a command line apart; `none` if they do not fit the grammar. -/
def scan (g : Grammar) (words : List String) : Option Given := g.scanFrom .none words

end Grammar

end SolidityEncoding.CommandLine
