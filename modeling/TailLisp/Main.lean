import TailLisp.CommandLine

namespace TailLisp

/-!
The program.

Arguments, files and standard input are taken as bytes and handed to the
command line; its result is written out as it is.
-/

namespace CommandLine

/-- What can be read from the file that a request names, if it can be opened.
A directory can be opened, but there is nothing to read in it. -/
def readNamedFile (name : Bytes) : IO (Option Bytes) := do
  match String.fromUTF8? (ByteArray.mk name.toArray) with
  | none => return none
  | some path =>
      let opened <- try
          pure (some (<- IO.FS.Handle.mk path .read))
        catch _ =>
          pure none
      match opened with
      | none => return none
      | some file =>
          try
            return some (<- file.readBinToEnd).toList
          catch _ =>
            return some []

end CommandLine

end TailLisp

open TailLisp

def main (arguments : List String) : IO UInt32 := do
  let request := CommandLine.request (arguments.map fun argument => argument.toUTF8.toList)
  let mut input : Bytes := []
  let mut file : Option Bytes := none
  if let .run options := request then
    if options.file.isEmpty then
      input := (<- (<- IO.getStdin).readBinToEnd).toList
    else
      file := <- CommandLine.readNamedFile options.file
  let contents := file
  let result := request.result input fun _ => contents
  let stdout <- IO.getStdout
  stdout.write (ByteArray.mk result.output.toArray)
  stdout.flush
  let stderr <- IO.getStderr
  stderr.write (ByteArray.mk result.diagnostics.toArray)
  stderr.flush
  return result.status.toUInt32
