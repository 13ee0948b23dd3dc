import Lisplet.CommandLine

/-! The executable. -/
namespace Lisplet.CommandLine

partial def readToEnd (stream : IO.FS.Stream) (bytes : ByteArray) : IO ByteArray := do
  let chunk ← stream.read 65536
  if chunk.isEmpty then return bytes else readToEnd stream (bytes ++ chunk)

def jobOf : List String → IO Job
  | [] => return .prompt
  | path :: _ => do
    try return .program (← IO.FS.readFile path)
    catch
      | .noFileOrDirectory .. => return .unreadable path noSuchFile
      | e => return .unreadable path (toString e)

end Lisplet.CommandLine

open Lisplet CommandLine in
def main (args : List String) : IO UInt32 := do
  let job ← jobOf args
  let input ← readToEnd (← IO.getStdin) .empty
  let transcript := CommandLine.run job input.toList
  (← IO.getStdout).putStr transcript.output
  (← IO.getStderr).putStr transcript.errors
  return transcript.status.toUInt32
