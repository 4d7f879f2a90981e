import Dataflow.Command.Basic

/-!
# The command line

Reads the arguments, looks at what the path names, prints the outcome and returns the exit code.
-/

namespace Dataflow

/-- All files and all directories beneath a directory, by path relative to it. -/
partial def entriesBeneath (relative : List String) (directory : String) :
    IO (List (List String) × List (List String)) := do
  let mut files := []
  let mut directories := []
  for entry in ← (← IO.FS.realPath directory).readDir do
    let name := relative ++ [entry.fileName]
    match (← entry.path.symlinkMetadata).type with
    | .dir =>
      let (files', directories') ← entriesBeneath name (directory ++ "/" ++ entry.fileName)
      files := files' ++ files
      directories := name :: directories' ++ directories
    | .file => files := name :: files
    | _ => pure ()
  return (files, directories)

/-- The path names a directory, as a test. -/
def isDirectory (path : String) : IO Bool := do
  try (← IO.FS.realPath path).isDir
  catch _ => return false

/-- What a path of the file system names. -/
def readPath (path : String) : IO PathContent := do
  if ← isDirectory path then
    let (files, directories) ← entriesBeneath [] (← IO.FS.realPath path).toString
    return .directory files directories
  try return .file (← IO.FS.readBinFile path)
  catch
    | .noFileOrDirectory .. => return .missing .notFound
    | .inappropriateType .. => return .missing .notDirectory
    | .invalidArgument .. => return .missing .nameTooLong
    | e => throw e

/-- What a path names, and what the program files and directories beneath it are. -/
def readInput (path : String) : IO (List (String × PathContent)) := do
  let content ← readPath path
  let beneath := match content with
    | .directory files directories => directories ++ files.filter isProgramFile
    | _ => []
  let contents ← (beneath.map (joinPath path)).mapM fun path => return (path, ← readPath path)
  return (path, content) :: contents

/-- Verdicts are coloured on a terminal, unless the environment says otherwise. -/
def wantsColours : IO Bool := do
  if let some force ← IO.getEnv "CLICOLOR_FORCE" then
    if force ≠ "0" then return true
  if (← IO.getEnv "NO_COLOR").isSome || (← IO.getEnv "CLICOLOR") = some "0" then return false
  (← IO.getStdout).isTty

/-- Answers the request that the arguments make. -/
def runArguments (args : List String) : IO UInt32 := do
  let request := Request.ofArguments args
  let contents ← match request with
    | .run command => readInput command.input
    | _ => pure []
  let read (path : String) := (contents.lookup path).getD (.missing .notFound)
  let outcome := request.answer read (← wantsColours)
  IO.print outcome.stdout
  IO.eprint outcome.stderr
  return outcome.exit.toUInt32

end Dataflow

def main (args : List String) : IO UInt32 :=
  Dataflow.runArguments args
