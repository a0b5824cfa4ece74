import AttributeTrees.Command
/-!
# The program

Takes a picture of the part of the disk that the arguments name, runs the command on it, and writes
what comes out.
-/
namespace AttributeTrees.Command

/-- Puts what lies at a path into a picture of the disk. Links lead to where they end. -/
partial def takePicture (picture : Disk) (path : String) : IO Disk := do
  let here ← IO.currentDir
  let file := here / path
  if (picture.linkStat? path).isSome then return picture
  try
    let info ← file.symlinkMetadata
    match info.type with
    | .symlink =>
      let real := (← IO.FS.realPath file).toString
      let picture := picture.makeLink path real
      if real == file.toString then return picture else takePicture picture real
    | .dir =>
      let mut picture := picture.makeDirectory path
      for entry in ← file.readDir do
        picture ← takePicture picture (Disk.join path entry.fileName)
      return picture
    | .file => return picture.write path (← IO.FS.readBinFile file).toList
    | .other => return picture.makeDevice path
  catch _ => return picture

def environmentOf (command : Command) : IO (List (String × String)) := do
  match command.neededVariable with
  | some name => return ((← IO.getEnv name).map (name, ·)).toList
  | none => return []

def runHere (command : Command) : IO Outcome := do
  let here := Disk.pieces (← IO.currentDir).toString
  let working := here.filter fun piece => !piece.isEmpty
  let mut picture : Disk := Disk.makeDirectory ⟨[], working⟩ (Disk.absolute working)
  for path in command.paths do
    picture ← takePicture picture path
  return command.outcome picture (← environmentOf command)

end AttributeTrees.Command

def main (arguments : List String) : IO UInt32 := do
  let outcome ←
    match AttributeTrees.Command.ofArguments? arguments with
    | none => pure AttributeTrees.Command.refusal
    | some command => command.runHere
  (← IO.getStdout).write ⟨outcome.output.toArray⟩
  (← IO.getStderr).putStr outcome.errors
  return outcome.code.toUInt32
