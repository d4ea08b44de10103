import NaturalNames.Demonstration

/-!
# `NaturalNames.Main`: the command line of the demonstration

Takes a directory of C files, or nothing. Walking through the directory and printing the
transcript is all that happens here.
-/

set_option autoImplicit false

namespace NaturalNames

/-- The files in a directory and below, by their way from the top of the walk. Links are not
followed, and files that cannot be read are left out. -/
partial def filesIn (entries : Array IO.FS.DirEntry) (way : Path) :
    IO (List (Path × List UInt8)) := do
  let found ← entries.toList.mapM fun entry => do
    let next := way ++ [entry.fileName]
    match (← entry.path.symlinkMetadata).type with
    | .dir => filesIn (← entry.path.readDir) next
    | .file =>
        try return [(next, (← IO.FS.readBinFile entry.path).data.toList)] catch _ => return []
    | _ => return []
  return found.flatten

/-- Walks through the directory with the given name. -/
def walkThrough (name : String) : IO (Except Error Walk) := do
  let place := (IO.FS.DirEntry.mk name "").root
  try
    let files ← match (← place.metadata).type with
      | .dir => filesIn (← place.readDir) []
      | _ => return .ok ⟨name, .ofList [([], (← IO.FS.readBinFile place).data.toList)]⟩
    return .ok ⟨name, .ofList files⟩
  catch _ => return .error .io

end NaturalNames

open NaturalNames

/-- Prints the transcript of the demonstration. -/
def main (args : List String) : IO UInt32 := do
  let found ← args.head?.mapM walkThrough
  let transcript := Demonstration.run (.inTurn 1) found
  for text in transcript.printed do
    IO.println text
  if let some e := transcript.error? then
    IO.eprintln ("Error: " ++ e.message)
  return transcript.status.toUInt32
