import Peg.Cli.Outcome

/-! # The program

Reads the arguments and whichever of the standard input and the files is asked for,
prints the outcome and exits with its code.
-/
namespace Peg.Cli

def readPath (path : String) : IO (Except ReadError (Array UInt8)) := do
  try
    return .ok (← IO.FS.readBinFile path).data
  catch
    | .noFileOrDirectory .. => return .error .notFound
    | .inappropriateType _ code _ =>
      return .error (if code = 21 then .isDirectory else .notDirectory)
    | .invalidArgument _ code _ =>
      return .error (if code = 0 - 36 then .nameTooLong else .other "Invalid argument")
    | e => return .error (.other (toString e))

partial def readRest (stream : IO.FS.Stream) (acc : ByteArray) : IO ByteArray := do
  let chunk ← stream.read 65536
  if chunk.isEmpty then return acc else readRest stream (acc ++ chunk)

end Peg.Cli

open Peg.Cli in
/-- Only what the options name is read. -/
def main (args : List String) : IO UInt32 := do
  let file := match Request.ofArguments args with
    | .start o => some o.file
    | _ => none
  let stdin ← match file with
    | some none => pure (← readRest (← IO.getStdin) .empty).data
    | _ => pure #[]
  let found ← match file with
    | some (some path) => readPath path
    | _ => pure (.error .notFound)
  let outcome := run args stdin fun _ => found
  IO.print outcome.stdout
  IO.eprint (outcome.stderr.getD (if outcome.code = 2 then usage else ""))
  return outcome.code.toUInt32
