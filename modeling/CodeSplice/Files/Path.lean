/-
Module: CodeSplice.Files.Path
Purpose: Paths as they are written. A path is joined to another one as text and is not simplified; what
  it leads to depends on the files. A path that is too long, or that holds the character with the number
  zero, leads nowhere.
Main exports: joinPath, parentPath, pathParts, isAbsolute, isSpeakable, asksForDirectory
-/

namespace CodeSplice

/-- The path of a file within a directory. A path from the root stands for itself. -/
def joinPath (directory file : String) : String :=
  if file.startsWith "/" || directory.isEmpty then file
  else if directory.endsWith "/" then directory ++ file
  else directory ++ "/" ++ file

/-- The pieces of a text between slashes. -/
def splitSlashes : List Char → List (List Char)
  | [] => [[]]
  | c :: cs =>
    if c == '/' then [] :: splitSlashes cs
    else
      match splitSlashes cs with
      | [] => [[c]]
      | piece :: pieces => (c :: piece) :: pieces

/-- The steps that a path is made of. A step to the same directory is none. -/
def pathParts (path : String) : List String :=
  ((splitSlashes path.toList).map String.ofList).filter fun part => !(part == "" || part == ".")

/-- Whether a path starts from the root. -/
def isAbsolute (path : String) : Bool :=
  path.startsWith "/"

/-- Whether a path is written so that only a directory can be meant. -/
def asksForDirectory (path : String) : Bool :=
  path.endsWith "/" || path.endsWith "/."

/-- The greatest number of bytes of a path. -/
def maxPathBytes : Nat := 4095

/-- The greatest number of bytes of a name in a path. -/
def maxNameBytes : Nat := 255

/-- Whether a path can be asked for at all. -/
def isSpeakable (path : String) : Bool :=
  decide (path.utf8ByteSize ≤ maxPathBytes) && path.toList.all (· != '\x00')

/-- Leave out steps to the same directory at the end of a path that is written backwards. -/
def dropStandstill : List Char → List Char
  | '/' :: cs => dropStandstill cs
  | '.' :: '/' :: cs => dropStandstill cs
  | cs => cs

/-- The path of the directory above: what stands in front of the last step. It is empty if nothing does. -/
def parentPath (path : String) : String :=
  let last := dropStandstill path.toList.reverse
  let above := (dropStandstill (last.dropWhile (· != '/'))).reverse
  if above.isEmpty && isAbsolute path then "/" else String.ofList above

end CodeSplice
