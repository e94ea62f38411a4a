/-
# The program

Reads what the command asks for, and hands out its outcome.

Key definitions: `main`.
-/
import SelectLang.Command.Basic

namespace SelectLang
namespace Program

/-- Why a read failed. -/
def readError : IO.Error → ReadError
  | .noFileOrDirectory .. => .missing
  | .permissionDenied .. => .forbidden
  | .inappropriateType _ 21 _ | .otherError 21 _ => .directory
  | .alreadyExists _ code reason | .otherError code reason | .resourceBusy code reason
  | .resourceVanished code reason | .unsupportedOperation code reason
  | .hardwareFault code reason | .unsatisfiedConstraints code reason
  | .illegalOperation code reason | .protocolError code reason | .timeExpired code reason
  | .interrupted _ code reason | .invalidArgument _ code reason
  | .resourceExhausted _ code reason | .inappropriateType _ code reason
  | .noSuchThing _ code reason => .other reason.capitalize code.toInt32.toInt.natAbs
  | .unexpectedEof | .userError _ => .notText

def readFile (path : String) : IO (Except ReadError String) := do
  try
    let bytes ← IO.FS.readBinFile path
    match String.fromUTF8? bytes with
    | some text => return .ok text
    | none => return .error .notText
  catch e => return .error (readError e)

def readInput : IO Input := do
  let input ← IO.getStdin
  if ← input.isTty then return .terminal
  try
    return .stream (.ok (← input.readToEnd))
  catch e => return .stream (.error (readError e))

/-- The surroundings as far as the command looks at them. -/
def surroundings : Except Notice Command → IO Surroundings
  | .ok (.run script sources _) => do
    let input ← if script.isSome then pure .terminal else readInput
    let contents ← readFile sources
    return ⟨input, fun _ => contents⟩
  | _ => return ⟨.terminal, fun _ => .error .notText⟩

end Program
end SelectLang

/-- Runs the command that the arguments make up. -/
def main (arguments : List String) : IO UInt32 := do
  let around ← SelectLang.Program.surroundings (SelectLang.Command.parse arguments)
  let outcome := SelectLang.programOutcome around arguments
  (← IO.getStdout).putStr outcome.output
  (← IO.getStderr).putStr outcome.errors
  return UInt32.ofNat outcome.exitCode
