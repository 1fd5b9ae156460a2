import SolidityEncoding.CommandLine.Run

/-!
# The program

Runs the words of the command line, writes the file that the command asks for, and prints.
-/

namespace SolidityEncoding.CommandLine

/-- The cause of an error of the system. -/
def writeErrorOf : IO.Error → WriteError
  | .alreadyExists _ number text | .invalidArgument _ number text
  | .permissionDenied _ number text | .resourceExhausted _ number text
  | .inappropriateType _ number text | .noSuchThing _ number text
  | .noFileOrDirectory _ number text | .interrupted _ number text
  | .otherError number text | .resourceBusy number text | .resourceVanished number text
  | .unsupportedOperation number text | .hardwareFault number text
  | .unsatisfiedConstraints number text | .illegalOperation number text
  | .protocolError number text | .timeExpired number text => ⟨text, some number.toNat⟩
  | .unexpectedEof => ⟨"unexpected end of file", none⟩
  | .userError text => ⟨text, none⟩

/-- Carries out what a command does. -/
def perform : Effect → IO Report
  | .done report => return report
  | .write path content next => do
    let written ← (IO.FS.writeFile path content).toBaseIO
    return next (written.mapError writeErrorOf)

end SolidityEncoding.CommandLine

open SolidityEncoding.CommandLine in
/-- Runs the words of the command line. -/
def main (words : List String) : IO UInt32 := do
  let stdout ← IO.getStdout
  let report ← perform (run (← stdout.isTty) words)
  stdout.putStr report.stdout
  (← IO.getStderr).putStr report.stderr
  return report.code.toUInt32
