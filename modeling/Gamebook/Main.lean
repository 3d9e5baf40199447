import Gamebook.Command.Run

/-!
# The program

Reads the files that the arguments name, runs the command, and writes what it leaves.
-/

namespace Gamebook.Main

open Gamebook.Command

/-- The cause of a failure of the system. -/
def fileError (e : IO.Error) : FileError :=
  match e with
  | .noFileOrDirectory .. => .notFound
  | .alreadyExists .. => .alreadyExists
  | .inappropriateType _ 20 _ => .notFolder
  | .inappropriateType _ 21 _ => .isFolder
  | .invalidArgument _ 36 _ => .nameTooLong
  | .noSuchThing _ code text | .permissionDenied _ code text | .resourceExhausted _ code text
  | .inappropriateType _ code text | .invalidArgument _ code text => .other text code.toNat
  | e => .other (toString e) 0

/-- The contents of a file. -/
def readFile (path : String) : IO (Except FileError (List UInt8)) := do
  try return .ok (← IO.FS.readBinFile path).toList
  catch e => return .error (fileError e)

/-- The contents of the files that settings name. -/
def readAll (s : Settings) : IO Reader := do
  let found ← (s.input :: s.images ++ s.tracks).mapM fun path => do
    return (path, ← readFile path)
  return fun path => (found.lookup path).getD (.error .notFound)

/-- Prints what is said on the way. -/
def say (stdout stderr : String) : IO Unit := do
  IO.print stdout
  IO.eprint stderr

/-- Makes a folder and those it lies in, unless it is there. -/
def makeFolder (folder : String) : IO Unit := do
  try IO.FS.createDir folder
  catch e =>
    try IO.FS.createDirAll folder
    catch e' => throw (if fileError e = .notFound then e' else e)

/-- Writes the files of a build, and returns what went wrong. -/
def write (d : Delivery) : IO (Except Failure Unit) := do
  try
    if d.folder ≠ "" then makeFolder d.folder
  catch e =>
    return .error ⟨"Failed to create directory: " ++ d.folder, some (fileError e).message⟩
  let mut index := 0
  for bytes in d.banks do
    let path := Path.within d.folder (bankFile index)
    try IO.FS.writeBinFile path ⟨bytes.toArray⟩
    catch e => return .error ⟨"Failed to write: " ++ path, some (fileError e).message⟩
    index := index + 1
  return .ok ()

/-- Says why the command fails. -/
def fail (f : Failure) : IO UInt32 := do
  say "" f.text
  return 1

/-- Runs the command with settings. -/
def compile (s : Settings) : IO UInt32 := do
  match s.build (← readAll s) with
  | none =>
    IO.eprintln "attempt to divide with overflow"
    return 101
  | some b =>
    say b.stdout b.stderr
    match b.result with
    | .error f => fail f
    | .ok d =>
      match ← write d with
      | .error f => fail f
      | .ok () =>
        say d.summary ""
        return 0

end Gamebook.Main

/-- The command. -/
def main (arguments : List String) : IO UInt32 :=
  match Gamebook.Command.Settings.ofArguments arguments with
  | .error .usage => do
    IO.eprint Gamebook.Command.usageText
    return 2
  | .error .version => do
    IO.print Gamebook.Command.versionText
    return 0
  | .error .help => do
    IO.print Gamebook.Command.usageText
    return 0
  | .ok s => Gamebook.Main.compile s
