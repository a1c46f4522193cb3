import Stencil.Command.Run

/-!
# The program

Reads the command line, runs it on the files of the system, prints what it has to say and exits
with its status.
-/

namespace Stencil.Program

open Stencil.Command

/-- The number that the operating system gives an error. -/
def codeOf? : IO.Error → Option UInt32
  | .noFileOrDirectory _ code _ => some code
  | .inappropriateType _ code _ => some code
  | .permissionDenied _ code _ => some code
  | .invalidArgument _ code _ => some code
  | _ => none

/-- Why the system could not reach a file. -/
def faultOf (error : IO.Error) : FileFault :=
  match (codeOf? error).bind fun code => FileFault.ofCode? code.toNat with
  | some fault => fault
  | none => .other (toString error)

/-- An action on files, with its fault if it has one. -/
def attempt {α : Type} (action : IO α) : IO (Except FileFault α) := do
  try return .ok (← action)
  catch error => return .error (faultOf error)

/-- All bytes of a stream, behind those read so far. -/
partial def readAll (stream : IO.FS.Stream) (bytes : ByteArray) : IO ByteArray := do
  let more ← stream.read 65536
  if more.isEmpty then return bytes else readAll stream (bytes ++ more)

/-- The files of the system. -/
def files : Files IO where
  read path := attempt do return (← IO.FS.readBinFile path).data.toList
  readInput := attempt do return (← readAll (← IO.getStdin) .empty).data.toList
  write path bytes := attempt (IO.FS.writeBinFile path ⟨bytes.toArray⟩)

/-- What a mistaken command line is answered with. -/
def usage : String :=
  "usage: snap compile|dump|check FILE [OPTIONS]\n"

end Stencil.Program

open Stencil.Command Stencil.Program in
/-- Runs a command line. -/
def main (args : List String) : IO UInt32 := do
  match Invocation.parse? args with
  | none =>
    (← IO.getStderr).putStr usage
    return 2
  | some invocation =>
    let stdout ← IO.getStdout
    let stderr ← IO.getStderr
    let outIsTerminal ← stdout.isTty
    let errIsTerminal ← stderr.isTty
    let terminal : Channel → Bool
      | .stdout => outIsTerminal
      | .stderr => errIsTerminal
    let outcome ← run files terminal invocation
    stderr.putStr outcome.stderr
    stdout.write ⟨outcome.stdout.toArray⟩
    stdout.flush
    return .ofNat outcome.status
