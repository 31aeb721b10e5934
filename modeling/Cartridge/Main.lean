/-
# `Cartridge.Main` — the program

Carries the steps of a command out on real files.
-/
import Cartridge.Command.Run

namespace Cartridge

/-- The file error of a number that the system gives, and its words for it. -/
def fileErrorOf (code : UInt32) (text : String) : FileError :=
  if code = 2 then .notFound
  else if code = 20 then .notDirectory
  else if code = 21 then .isDirectory
  else if code = 36 then .nameTooLong
  else .other s!"{text} (os error {code})"

/-- A failure of the file system as a file error. -/
def fileError : IO.Error → FileError
  | .noFileOrDirectory _ code text | .interrupted _ code text => fileErrorOf code text
  | .alreadyExists _ code text | .invalidArgument _ code text | .permissionDenied _ code text
  | .resourceExhausted _ code text | .inappropriateType _ code text
  | .noSuchThing _ code text => fileErrorOf code text
  | .otherError code text | .resourceBusy code text | .resourceVanished code text
  | .unsupportedOperation code text | .hardwareFault code text
  | .unsatisfiedConstraints code text | .illegalOperation code text
  | .protocolError code text | .timeExpired code text => fileErrorOf code text
  | .unexpectedEof => .other "unexpected end of file"
  | .userError text => .other text

/-- Try to do something with a file. -/
def attempt {α : Type} (action : IO α) : IO (Except FileError α) := do
  try
    let a ← action
    return .ok a
  catch e => return .error (fileError e)

/-- Carry a script out; the exit code is returned. -/
def Script.perform (verbose : Bool) : Script → IO UInt32
  | .done => return 0
  | .fail context cause => do
      IO.eprint (failureText context cause)
      return UInt32.ofNat Outcome.failed
  | .crash fault => do
      IO.eprintln ("fault: " ++ fault.message.getD "offset out of range")
      return UInt32.ofNat Outcome.crashed
  | .print text next => do
      IO.print text
      next.perform verbose
  | .report events next => do
      if verbose then
        events.forM fun e => IO.eprintln s!"{e.level.name} {e.message}"
      next.perform verbose
  | .read path next => do
      let contents ← attempt (IO.FS.withFile path .read fun file => file.readBinToEnd)
      (next (contents.map ByteArray.data)).perform verbose
  | .write path contents next => do
      let answer ← attempt (IO.FS.writeBinFile path ⟨contents⟩)
      (next answer).perform verbose

end Cartridge

/-- The entry point. -/
def main (args : List String) : IO UInt32 :=
  match Cartridge.Args.parse args with
  | .error e => do
      IO.eprintln s!"error: {e.message}"
      return UInt32.ofNat Cartridge.Outcome.misused
  | .ok request => request.command.script.perform request.verbose
