/-!
# File trees

The part of a file system that a command looks at, as data.

* `FileTree`: files and directories by path.
* `PathContent`: what a path names.
* `FileTree.lookup`: follows a written path, part by part.
* `inputsOf`: the inputs that a path stands for.

Names and paths have bounded lengths, in bytes.  A path that is too long names nothing, whatever its
parts are; a name that is too long is refused where it is looked up.
-/

namespace Dataflow

/-- Why a path cannot be read. -/
inductive FileError where
  /-- A part of the path does not exist. -/
  | notFound
  /-- A part of the path that should be a directory is a file. -/
  | notDirectory
  /-- The path is a directory and should be a file. -/
  | isDirectory
  /-- The path, or a part of it, is too long. -/
  | nameTooLong
  /-- The file is not text. -/
  | notText
deriving DecidableEq

/-- The wording of an error. -/
def FileError.message : FileError → String
  | .notFound => "No such file or directory (os error 2)"
  | .notDirectory => "Not a directory (os error 20)"
  | .isDirectory => "Is a directory (os error 21)"
  | .nameTooLong => "File name too long (os error 36)"
  | .notText => "stream did not contain valid UTF-8"

/-- What a path names. -/
inductive PathContent where
  | missing (error : FileError)
  | file (content : ByteArray)
  /-- All files and all directories beneath a directory, by relative path. -/
  | directory (files directories : List (List String))

/-- Files and directories, by the parts of their paths.  Directories that hold something need not be
listed. -/
structure FileTree where
  files : List (List String × ByteArray)
  directories : List (List String)

/-- The greatest length of a name. -/
def nameLimit : Nat := 255

/-- The greatest length of a path. -/
def pathLimit : Nat := 4095

namespace FileTree

/-- The path is a directory: it is the root, is listed, or holds something. -/
def isDirectory (t : FileTree) (path : List String) : Bool :=
  path.isEmpty || t.directories.any path.isPrefixOf
    || t.files.any fun e => path.isPrefixOf e.1 && path.length < e.1.length

/-- Those of some paths that lie beneath a directory, relative to it. -/
def relativeTo (path : List String) (paths : List (List String)) : List (List String) :=
  (paths.filter fun p => path.isPrefixOf p && path.length < p.length).map (·.drop path.length)

/-- A path and all directories on the way to it. -/
def ancestry (path : List String) : List (List String) :=
  (List.range path.length).map fun k => path.take (k + 1)

/-- All files and all directories beneath a directory. -/
def beneath (t : FileTree) (path : List String) : PathContent :=
  let files := t.files.map Prod.fst
  let directories := (t.directories ++ files.map List.dropLast).flatMap ancestry
  .directory (relativeTo path files) (relativeTo path directories.eraseDups)

/-- A name of a path that stays where it is: nothing, or a single dot. -/
def isStay (part : String) : Bool :=
  part = "" || part = "."

/-- Why a path that leaves the tree names nothing.  Nothing is known outside, but a name that is too
long is refused there too. -/
def outsideError (parts : List String) : FileError :=
  match parts.find? fun part => !isStay part && part != ".." with
  | some part => if nameLimit < part.utf8ByteSize then .nameTooLong else .notFound
  | none => .notFound

/-- Follows the parts of a path from a directory.  Two dots go up, and only a directory has anything
beneath it. -/
def follow (t : FileTree) (here : List String) : List String → PathContent
  | [] => t.beneath here
  | part :: rest =>
    if isStay part then t.follow here rest
    else if part = ".." then
      if here.isEmpty then .missing (outsideError rest) else t.follow here.dropLast rest
    else if nameLimit < part.utf8ByteSize then .missing .nameTooLong
    else
      let path := here ++ [part]
      if t.isDirectory path then t.follow path rest
      else match t.files.lookup path with
        | some content => if rest.isEmpty then .file content else .missing .notDirectory
        | none => .missing .notFound

/-- What is found from the root of every file system: devices that hold nothing, and a place for
what is kept for a while. -/
def system : FileTree :=
  { files := [(["dev", "null"], .empty), (["dev", "stdin"], .empty)], directories := [["tmp"]] }

/-- What a written path names.  A path that begins with a slash starts at the root of the file
system, any other in the tree. -/
def lookup (t : FileTree) (path : String) : PathContent :=
  if pathLimit < path.utf8ByteSize then .missing .nameTooLong
  else (if path.startsWith "/" then system else t).follow [] (path.splitOn "/")

end FileTree

/-! ## Inputs -/

/-- The first path comes before the second when siblings are sorted by name and directories are
entered. -/
def pathPrecedes : List String → List String → Bool
  | [], _ => true
  | _ :: _, [] => false
  | a :: p, b :: q => if a = b then pathPrecedes p q else a < b

/-- A file is taken from a directory if its name ends with the extension and does not consist of
it. -/
def isProgramFile (path : List String) : Bool :=
  match path.getLast? with
  | some name => name.endsWith ".ll" && name != ".ll"
  | none => false

/-- A path beneath another. -/
def joinPath (directory : String) (path : List String) : String :=
  (if directory.endsWith "/" then directory else directory ++ "/") ++ "/".intercalate path

/-- The text that a path names. -/
def PathContent.text : PathContent → Except FileError String
  | .missing error => .error error
  | .directory .. => .error .isDirectory
  | .file content =>
    match String.fromUTF8? content with
    | some text => .ok text
    | none => .error .notText

/-- A directory that is met on a walk and cannot be entered. -/
structure WalkError where
  path : String
  error : FileError
deriving DecidableEq

/-- The error that entering a directory gives. -/
def walkError? (read : String → PathContent) (path : String) : Option WalkError :=
  match read path with
  | .missing error => some { path, error }
  | _ => none

/-- Paths beneath a directory in the order of a walk, written out. -/
def walked (directory : String) (paths : List (List String)) : List String :=
  (paths.mergeSort pathPrecedes).map (joinPath directory)

/-- The inputs that a path stands for, with what they hold: itself, or the program files beneath it,
where `read` tells what a path names.  Every directory beneath it is entered before any file is
read. -/
def inputsOf (read : String → PathContent) (path : String) :
    Except WalkError (List (String × Except FileError String)) :=
  let input (path : String) := (path, (read path).text)
  match read path with
  | .directory files directories =>
    match (walked path directories).findSome? (walkError? read) with
    | some error => .error error
    | none => .ok ((walked path (files.filter isProgramFile)).map input)
  | _ => .ok [input path]

end Dataflow
