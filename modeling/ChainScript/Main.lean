import ChainScript.CommandLine

/-!
The program: reads the file that its arguments name, prints, and ends with an exit code.
-/

namespace ChainScript.CommandLine

def readFile (path : String) : IO (Except FileFault String) := do
  try
    let bytes ← IO.FS.readBinFile path
    match String.fromUTF8? bytes with
    | some content => return .ok content
    | none => return .error .notText
  catch
    | .inappropriateType _ 21 _ => return .error .directory
    | .inappropriateType .. => return .error .notDirectory
    | .invalidArgument .. => return .error .nameTooLong
    | .permissionDenied .. => return .error .denied
    | _ => return .error .missing

end ChainScript.CommandLine

open ChainScript.CommandLine in
def main (args : List String) : IO UInt32 := do
  let reading ← match readArguments args with
    | some ⟨_, some file⟩ => readFile file
    | _ => pure (.error .missing)
  let output := execute args fun _ => reading
  IO.print output.stdout
  IO.eprint output.stderr
  return output.code.toUInt32
