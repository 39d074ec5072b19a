import ChainCalc.Command.Report

/-!
# The program

Reads what the command asks for, runs it and prints the report.
-/

namespace ChainCalc.Program

def sourceOf? : Command → Option Source
  | .version => none
  | .eval source _ _ => some source
  | .peek source => some source

partial def readAll (stream : IO.FS.Stream) (bytes : ByteArray) : IO ByteArray := do
  let more ← stream.read 65536
  if more.isEmpty then return bytes else readAll stream (bytes ++ more)

def readFile (path : String) : IO (Except ReadError ByteArray) :=
  try
    return .ok (← IO.FS.readBinFile path)
  catch
    | .noFileOrDirectory .. => return .error .notFound
    | .inappropriateType _ 20 _ => return .error .notDirectory
    | .inappropriateType _ 21 _ => return .error .isDirectory
    | e => return .error (.other (toString e))

/-- The bytes that a source needs. -/
def surroundings : Option Source → IO Surroundings
  | some .standardInput => do
    return ⟨← readAll (← IO.getStdin) .empty, fun _ => .error .notFound⟩
  | some (.file path) => do
    let bytes ← readFile path
    return ⟨.empty, fun _ => bytes⟩
  | _ => return ⟨.empty, fun _ => .error .notFound⟩

end ChainCalc.Program

open ChainCalc in
def main (args : List String) : IO UInt32 := do
  let around ← Program.surroundings ((Command.parse? args).bind Program.sourceOf?)
  let report := runProgram around args
  (← IO.getStdout).putStr report.output
  (← IO.getStderr).putStr report.errors
  return UInt32.ofNat report.code
