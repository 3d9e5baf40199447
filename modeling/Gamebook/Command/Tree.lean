/-!
# Folders and files

The files under the folder in which the command runs. A path is the list of names that lead to a
place: from that folder on, or from the root of all folders if the first name is `/`. Names that lead
out of the folder are `..` and stand first. `Tree.read`, `Tree.makeFolder` and `Tree.write` take paths
as they are written, and fail in the same cases as a file system does.
-/

namespace Gamebook.Command

/-- Why a file cannot be used. -/
inductive FileError where
  | notFound
  | alreadyExists
  | notFolder
  | isFolder
  | nameTooLong
  /-- Anything else, with the number the system has for it. -/
  | other (text : String) (code : Nat)
deriving DecidableEq

/-- The wording of the error. -/
def FileError.message : FileError → String
  | .notFound => "No such file or directory (os error 2)"
  | .alreadyExists => "File exists (os error 17)"
  | .notFolder => "Not a directory (os error 20)"
  | .isFolder => "Is a directory (os error 21)"
  | .nameTooLong => "File name too long (os error 36)"
  | .other text code => text ++ " (os error " ++ toString code ++ ")"

/-- The names that lead to a file or a folder. -/
abbrev Path := List String

namespace Path

/-- The root of all folders. -/
def root : Path := ["/"]

/-- Whether a name in a path stays where it is. -/
def isStill (name : String) : Bool := name == "" || name == "."

/-- The folder in which the path lies. The root lies in itself. -/
def up (path : Path) : Path :=
  if path = root then root
  else if path.all (· == "..") then path ++ [".."]
  else path.dropLast

/-- The path one name further. -/
def step (path : Path) (name : String) : Path :=
  if isStill name then path else if name = ".." then path.up else path ++ [name]

/-- Whether the path leads out of the folder in which the command runs. -/
def isOutside (path : Path) : Bool := path.head? = some ".." || path.head? = some "/"

/-- Folders that every system has. -/
def systemFolders : List Path :=
  root :: ["bin", "dev", "etc", "home", "lib", "proc", "root", "sys", "tmp", "usr", "var"].map
    (root ++ [·])

/-- The file of every system that holds nothing and takes everything. -/
def nullFile : Path := root ++ ["dev", "null"]

/-- The written path of a file in a folder. -/
def within (folder file : String) : String :=
  if folder = "" ∨ folder.endsWith "/" then folder ++ file else folder ++ "/" ++ file

end Path

/-! ## Routes -/

/-- A written path: where it begins, and its names as they stand. -/
structure Route where
  start : Path
  names : List String

namespace Route

/-- The most bytes that a written path may have. -/
def limit : Nat := 4095

/-- The most bytes that a name may have. -/
def nameLimit : Nat := 255

/-- The route that a text describes. -/
def ofText (text : String) : Except FileError Route :=
  if text = "" then .error .notFound
  else if limit < text.utf8ByteSize then .error .nameTooLong
  else .ok ⟨if text.startsWith "/" then Path.root else [], text.splitOn "/"⟩

/-- The route without what follows its last name. -/
def trimmed (r : Route) : Route :=
  { r with names := (r.names.reverse.dropWhile (· == "")).reverse }

/-- The names of the route that do not stay where they are, the last one first. -/
def steps (r : Route) : List String := (r.names.filter (!Path.isStill ·)).reverse

end Route

/-- Files with their contents, and folders. A folder in which a file lies need not be listed. -/
structure Tree where
  files : List (Path × List UInt8) := []
  folders : List Path := []

namespace Tree

/-- The tree of files with written paths. -/
def ofFiles (files : List (String × List UInt8)) : Tree :=
  { files := files.map fun (text, bytes) => ((text.splitOn "/").foldl Path.step [], bytes) }

/-- Whether there is a folder. -/
def hasFolder (t : Tree) (path : Path) : Bool :=
  path.all (· == "..") || Path.systemFolders.contains path || t.folders.contains path ||
    t.files.any fun (file, _) => path.isPrefixOf file && path != file

/-- The contents of a file, if there is one. -/
def file? (t : Tree) (path : Path) : Option (List UInt8) :=
  if path = Path.nullFile then some [] else t.files.lookup path

/-- The place that a name has in a folder, whether or not something is there. -/
def enter (t : Tree) (path : Path) (name : String) : Except FileError Path :=
  if t.hasFolder path then
    if Route.nameLimit < name.utf8ByteSize then .error .nameTooLong else .ok (path.step name)
  else .error (if (t.file? path).isSome then .notFolder else .notFound)

/-- Where names lead from a folder. Every name but the last has to be that of a folder. -/
def walk (t : Tree) (path : Path) : List String → Except FileError Path
  | [] => .ok path
  | name :: rest => do walk t (← t.enter path name) rest

/-- Where a route leads. -/
def follow (t : Tree) (r : Route) : Except FileError Path := t.walk r.start r.names

/-- The contents of a file. -/
def read (t : Tree) (text : String) : Except FileError (List UInt8) := do
  let path ← t.follow (← Route.ofText text)
  if t.hasFolder path then .error .isFolder
  match t.file? path with
  | some bytes => .ok bytes
  | none => .error .notFound

/-- Writes a file. Outside of the folder in which the command runs, nothing is kept. -/
def write (t : Tree) (text : String) (bytes : List UInt8) : Except FileError Tree := do
  let path ← t.follow (← Route.ofText text)
  if t.hasFolder path then .error .isFolder
  if path.isOutside then return t
  return { t with files := (path, bytes) :: t.files.filter (·.1 != path) }

/-! ## Making folders -/

/-- Makes one folder. -/
def make (t : Tree) (r : Route) : Except FileError Tree := do
  let path ← t.follow r.trimmed
  if t.hasFolder path || (t.file? path).isSome then .error .alreadyExists
  return { t with folders := path :: t.folders }

/-- Makes one folder, unless there is one. -/
def ensure (t : Tree) (r : Route) : Except FileError Tree :=
  match t.make r, t.follow r with
  | .ok t, _ => .ok t
  | .error e, .ok path => if t.hasFolder path then .ok t else .error e
  | .error e, .error _ => .error e

/-- Makes a folder, and if it has no folder to lie in, that one before. -/
def ensureAfter (t : Tree) (r : Route) (before : Tree → Except FileError Tree) :
    Except FileError Tree :=
  match t.make r with
  | .error .notFound => do (← before t).ensure r
  | _ => t.ensure r

/-- Makes the folders to which names lead, the last name first. -/
def makeAlong (start : Path) : List String → Tree → Except FileError Tree
  | [], t => .ok t
  | name :: rest, t => t.ensureAfter ⟨start, (name :: rest).reverse⟩ (makeAlong start rest)

/-- Makes a folder and those it lies in. The folder in which the command runs has an empty path. -/
def makeFolder (t : Tree) (text : String) : Except FileError Tree :=
  if text = "" then .ok t
  else do
    let r ← Route.ofText text
    t.ensureAfter r (makeAlong r.start r.steps.tail)

/-- The files that are not as they were. -/
def changesSince (t before : Tree) : List (Path × List UInt8) :=
  t.files.filter fun (path, bytes) => before.files.lookup path != some bytes

end Tree

end Gamebook.Command
