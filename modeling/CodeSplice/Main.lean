/-
Module: CodeSplice.Main
Purpose: The program. It takes the files that a command looks at from the disk, lets the command work on
  them as values, puts a changed file back, and shows the reply.
Main exports: main
-/
import CodeSplice.Command.Basic

namespace CodeSplice

/-- What is at a path on the disk. Whatever is there and is no file counts as a directory. -/
def nodeOnDisk (path : String) : IO (Option Node) := do
  try
    let bytes ← IO.FS.readBinFile path
    return some (.file (.ofBytes bytes.toList) newFileMode)
  catch
    | .noFileOrDirectory .. => return none
    | _ => return some .directory

/-- Take what is at a path on the disk into a tree. -/
def takeFromDisk (tree : FileTree) (path : String) : IO FileTree := do
  match ← nodeOnDisk path with
  | none => return tree
  | some node =>
    match (pathParts path).reverse with
    | [] => return tree
    | name :: above =>
      match tree.makeDirectories (startOf path) above.reverse with
      | (some directory, tree) => return tree.put (directory ++ [name]) node
      | (none, tree) => return tree

/-- The directory of the project that a command is about. -/
def Command.directory : Command → String
  | inject directory _ _ => directory
  | check directory _ => directory
  | format directory _ => directory
  | plan directory _ => directory

/-- Perform a command on the disk. -/
def Command.performOnDisk (command : Command) : IO Reply := do
  let tree ← takeFromDisk {} (joinPath command.directory configFile)
  match Config.load tree command.directory with
  | .error fault => return .ofFault fault
  | .ok config =>
    let path := config.targetPath command.directory
    let tree ← takeFromDisk tree path
    let (reply, after) := command.perform tree
    match after.read path with
    | .text content =>
      if after = tree then return reply
      else
        try
          IO.FS.writeFile path content
          return reply
        catch _ => return .ofFault (.unpatched path)
    | _ => return reply

/-- Show a reply, and give its exit code. -/
def Reply.show (reply : Reply) : IO UInt32 := do
  let stderr ← IO.getStderr
  for line in reply.complaints do
    stderr.putStrLn line
  if let some fault := reply.fault then
    stderr.putStrLn ("× " ++ fault.message)
    if let some help := fault.help then
      stderr.putStrLn ("  help: " ++ help)
  (← IO.getStdout).putStr reply.text
  return reply.code.toUInt32

end CodeSplice

open CodeSplice in
/-- The program. -/
def main (arguments : List String) : IO UInt32 := do
  match Invocation.ofArguments? arguments with
  | some (.run command) => (← command.performOnDisk).show
  | _ => (performArguments arguments {}).1.show
