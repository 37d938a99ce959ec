/-
Module: CodeSplice.Files.Tree
Purpose: The files that a run works on, as a value. Each path that exists holds a directory or a file;
  a file has a content, which need not be text, and permission bits. A system may refuse to do
  something at a place, for want of rights or of room. A file is replaced as a whole: the new content
  goes to a temporary file beside it, which then takes its place with the permission bits that it had.
  If a step on the way is refused, the temporary file is taken away again. The directories that a file
  needs are made first, and they stay even if the file cannot be put in place.
Main exports: FileTree, FileTree.resolve, FileTree.read, SavingStep, FileTree.takeSteps,
  FileTree.replace, FileTree.save
-/
import CodeSplice.Files.Path

namespace CodeSplice

/-- What a file holds. -/
inductive Content where
  | text (text : String)
  /-- Bytes that are no text. -/
  | binary (bytes : List UInt8)
deriving DecidableEq, Repr, Inhabited

/-- The content that bytes make. -/
def Content.ofBytes (bytes : List UInt8) : Content :=
  match String.fromUTF8? ⟨bytes.toArray⟩ with
  | some content => .text content
  | none => .binary bytes

/-- What can be found at a path. -/
inductive Node where
  | directory
  | file (content : Content) (mode : Nat)
deriving DecidableEq, Repr, Inhabited

/-- The names on the way from the root to a place, without detours. -/
abbrev Place := List String

/-- The place that paths start from if they do not start from the root. No path can spell its name, nor
the name of the directory above it, so only such paths lead there. -/
def workingDirectory : Place := ["", ""]

/-- A step of putting a file in place. -/
inductive SavingStep where
  /-- An empty file is made under a temporary name. -/
  | create
  /-- The content is written to the temporary file. -/
  | fill
  /-- The content is brought onto the disk. -/
  | flush
  /-- The temporary file gets the permission bits of the file that it replaces. -/
  | permit
  /-- The temporary file is moved to its place. -/
  | move
deriving DecidableEq, Repr, Inhabited

/-- The steps in the order in which they are taken. -/
def SavingStep.all : List SavingStep := [create, fill, flush, permit, move]

/-- What a system may refuse to do at a place. -/
inductive Operation where
  | read
  | makeDirectory
  /-- Take a step of putting a file there. -/
  | save (step : SavingStep)
deriving DecidableEq, Repr, Inhabited

/-- The files of a system, and what the system refuses to do with them. -/
structure FileTree where
  entries : List (Place × Node) := []
  refusals : List (Place × Operation) := []
deriving DecidableEq, Repr, Inhabited

/-- What a path leads to. -/
inductive Target where
  /-- A place where something is. -/
  | existing (place : Place)
  /-- A name that is not taken in a directory that exists. -/
  | free (directory : Place) (name : String)
  /-- A way through directories that do not exist. -/
  | missing
  /-- A way that a file bars, or a name that is too long. -/
  | barred
deriving DecidableEq, Repr, Inhabited

/-- What reading a path gives. -/
inductive ReadResult where
  | missing
  /-- Something is there, but it cannot be read as text, or the path leads nowhere. -/
  | unreadable
  | text (text : String)
deriving DecidableEq, Repr, Inhabited

/-- What saving did. -/
inductive Saved where
  | written
  /-- The file had this content already. -/
  | unchanged
deriving DecidableEq, Repr, Inhabited

/-- The permission bits of a file that did not exist before: its owner may read and write it. -/
def newFileMode : Nat := 0o600

/-- Whether a directory can hold a name. -/
def isName (part : String) : Bool :=
  decide (part.utf8ByteSize ≤ maxNameBytes)

/-- The place that a path starts from. -/
def startOf (path : String) : Place :=
  if isAbsolute path then [] else workingDirectory

namespace FileTree

/-- What is at a place. The working directory and all above it are always there. -/
def node? (tree : FileTree) (place : Place) : Option Node :=
  if place.isPrefixOf workingDirectory then some .directory
  else (tree.entries.find? (·.1 == place)).map (·.2)

/-- Put something at a place. -/
def put (tree : FileTree) (place : Place) (node : Node) : FileTree :=
  if tree.entries.any (·.1 == place) then
    { tree with
      entries := tree.entries.map fun entry => if entry.1 == place then (place, node) else entry }
  else { tree with entries := tree.entries ++ [(place, node)] }

/-- Take away what is at a place and below it. -/
def remove (tree : FileTree) (place : Place) : FileTree :=
  { tree with entries := tree.entries.filter fun entry => !place.isPrefixOf entry.1 }

/-- Take away the file at a place. -/
def unlink (tree : FileTree) (place : Place) : FileTree :=
  { tree with entries := tree.entries.filter (·.1 != place) }

/-- Whether the system refuses to do something at a place. -/
def refuses (tree : FileTree) (place : Place) (operation : Operation) : Bool :=
  tree.refusals.contains (place, operation)

/-- Whether a place is a directory. -/
def isDirectory (tree : FileTree) (place : Place) : Bool :=
  tree.node? place == some .directory

/-- Follow the steps of a path from a place. Every step has to start from a directory, and none leads
above the root. -/
def follow (tree : FileTree) (place : Place) : List String → Target
  | [] => .existing place
  | part :: parts =>
    if !tree.isDirectory place then .barred
    else if part == ".." then tree.follow place.dropLast parts
    else if !isName part then .barred
    else if (tree.node? (place ++ [part])).isSome then tree.follow (place ++ [part]) parts
    else if parts.isEmpty then .free place part
    else .missing

/-- What a path leads to. -/
def resolve (tree : FileTree) (path : String) : Target :=
  if !isSpeakable path then .barred
  else if path.isEmpty then .missing
  else tree.follow (startOf path) (pathParts path)

/-- Read the text at a path. -/
def read (tree : FileTree) (path : String) : ReadResult :=
  match tree.resolve path with
  | .existing place =>
    match tree.node? place with
    | some (.file (.text text) _) =>
      if asksForDirectory path || tree.refuses place .read then .unreadable else .text text
    | _ => .unreadable
  | .free _ _ => .missing
  | .missing => .missing
  | .barred => .unreadable

/-- Follow steps from a directory, and make the directories that are missing on the way. It gives the
place that the steps lead to, unless a file bars the way, a name is too long or the system refuses. -/
def makeDirectories (tree : FileTree) (place : Place) : List String → Option Place × FileTree
  | [] => (some place, tree)
  | part :: parts =>
    if part == ".." then tree.makeDirectories place.dropLast parts
    else if !isName part then (none, tree)
    else
      let next := place ++ [part]
      match tree.node? next with
      | some .directory => tree.makeDirectories next parts
      | some (.file _ _) => (none, tree)
      | none =>
        if tree.refuses next .makeDirectory then (none, tree)
        else (tree.put next .directory).makeDirectories next parts

/-- Make the directories that the file at a path needs. It gives the place of the file, if the path
leads to one; no path through a directory that cannot be asked for does. -/
def makeRoom (tree : FileTree) (path : String) : Option Place × FileTree :=
  match (pathParts path).reverse with
  | [] => (none, tree)
  | name :: above =>
    if !isSpeakable (parentPath path) then (none, tree)
    else
      let (directory, tree) := tree.makeDirectories (startOf path) above.reverse
      if name == ".." || asksForDirectory path || !isName name || !isSpeakable path then (none, tree)
      else (directory.map (· ++ [name]), tree)

/-- The place of the temporary file of the given number, beside a place. -/
def temporaryPlace (place : Place) (number : Nat) : Place :=
  place.dropLast ++ [".tmp" ++ toString number]

/-- A place for a temporary file beside a place, where nothing is yet. -/
def sparePlace? (tree : FileTree) (place : Place) : Option Place :=
  ((List.range (tree.entries.length + 1)).map (temporaryPlace place)).find? fun spare =>
    (tree.node? spare).isNone

/-- Whether a step of putting a file at a place cannot be taken: the system refuses it, or the file
would have to take the place of a directory. -/
def bars (tree : FileTree) (place : Place) (step : SavingStep) : Bool :=
  tree.refuses place (.save step) || (step == .move && tree.isDirectory place)

/-- What a step makes of the files; the temporary file is at `spare`. -/
def take (tree : FileTree) (spare place : Place) (content : String) : SavingStep → FileTree
  | .create => tree.put spare (.file (.text "") newFileMode)
  | .fill => tree.put spare (.file (.text content) newFileMode)
  | .flush => tree
  | .permit =>
    match tree.node? place with
    | some (.file _ mode) => tree.put spare (.file (.text content) mode)
    | _ => tree
  | .move =>
    match tree.node? spare with
    | some node => (tree.unlink spare).put place node
    | none => tree

/-- Take steps until one cannot be taken. It tells whether all of them were. -/
def takeSteps (tree : FileTree) (spare place : Place) (content : String) :
    List SavingStep → Bool × FileTree
  | [] => (true, tree)
  | step :: steps =>
    if tree.bars place step then (false, tree)
    else (tree.take spare place content step).takeSteps spare place content steps

/-- Put a file at a place, or replace the one that is there. A step that cannot be taken ends this, and
the temporary file is taken away. -/
def install (tree : FileTree) (place : Place) (content : String) : Bool × FileTree :=
  match tree.sparePlace? place with
  | none => (false, tree)
  | some spare =>
    match tree.takeSteps spare place content SavingStep.all with
    | (true, tree) => (true, tree)
    | (false, tree) => (false, tree.unlink spare)

/-- Put a file at a path, or replace the one that is there. It tells whether this was possible. -/
def replace (tree : FileTree) (path content : String) : Bool × FileTree :=
  match tree.makeRoom path with
  | (none, tree) => (false, tree)
  | (some place, tree) => tree.install place content

/-- Give the file at a path a content, unless it has it already. It tells what this did, or nothing if
it was not possible. -/
def save (tree : FileTree) (path content : String) : Option Saved × FileTree :=
  let replaced : Option Saved × FileTree :=
    let (done, tree) := tree.replace path content
    (if done then some .written else none, tree)
  match tree.read path with
  | .unreadable => (none, tree)
  | .missing => replaced
  | .text text => if text = content then (some .unchanged, tree) else replaced

end FileTree

end CodeSplice
