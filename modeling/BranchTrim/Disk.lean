/-!
What the program needs of a file system, and a file system held in memory that provides it.
-/

set_option autoImplicit false

namespace BranchTrim

inductive DiskError where
  | notFound
  | notFolder
  | isFolder
  | noSpace
  | nameTooLong
  | invalidName
  | notText
  | other (text : String)
  deriving DecidableEq, Repr

namespace DiskError

def message : DiskError → String
  | notFound => "No such file or directory (os error 2)"
  | notFolder => "Not a directory (os error 20)"
  | isFolder => "Is a directory (os error 21)"
  | noSpace => "No space left on device (os error 28)"
  | nameTooLong => "File name too long (os error 36)"
  | invalidName => "file name contained an unexpected NUL byte"
  | notText => "stream did not contain valid UTF-8"
  | other text => text

end DiskError

structure Disk (m : Type → Type) where
  read : String → m (Except DiskError String)
  write : String → String → m (Except DiskError Unit)

inductive Content where
  | text (text : String)
  /-- A file that is not text. -/
  | bytes
  | folder
  /-- A file that is always empty and takes whatever is written to it. -/
  | sink
  /-- A file that has no room for anything. -/
  | full
  /-- A file that shows what is written to it. -/
  | display
  deriving DecidableEq, Repr

/-- A file system: its files and folders, each under the names that lead to it from the root, the
names of the current folder, and the text that was shown. -/
structure FileTree where
  entries : List (List String × Content)
  current : List String
  shown : String

namespace FileTree

/-- What a list of names leads to from the root. A folder is also there if something is below it. -/
def content? (tree : FileTree) (names : List String) : Option Content :=
  match tree.entries.lookup names with
  | some content => some content
  | none =>
    if names.isPrefixOf tree.current || tree.entries.any fun entry => names.isPrefixOf entry.1 then
      some .folder
    else none

def maxName : Nat := 255

/-- The size from which on a path is too long, in bytes. -/
def maxPath : Nat := 4096

/-- Follows a name. A dot stands for the folder itself and two for the one above. -/
def follow (place : List String) (name : String) : Except DiskError (List String) :=
  if name = "." then .ok place
  else if name = ".." then .ok place.dropLast
  else if maxName < name.utf8ByteSize then .error .nameTooLong
  else .ok (place ++ [name])

def enter (tree : FileTree) (place : List String) (name : String) :
    Except DiskError (List String) := do
  let place ← follow place name
  match tree.content? place with
  | some .folder => return place
  | some _ => throw .notFolder
  | none => throw .notFound

def parts (path : String) : List String :=
  ((path.toList.splitOn '/').filter fun part => !part.isEmpty).map String.ofList

/-- Whether a path ends in a slash, so that it can only mean a folder. -/
def asksForFolder (path : String) : Bool :=
  path.toList.getLast? == some '/'

def checkPath (path : String) : Except DiskError Unit :=
  if path.isEmpty then .error .notFound
  else if path.toList.contains '\x00' then .error .invalidName
  else if maxPath ≤ path.utf8ByteSize then .error .nameTooLong
  else .ok ()

/-- The folder in which the last name of a path is looked up. -/
def parent (tree : FileTree) (path : String) : Except DiskError (List String) := do
  checkPath path
  let start := if path.toList.head? == some '/' then [] else tree.current
  (parts path).dropLast.foldlM tree.enter start

def resolve (tree : FileTree) (path : String) : Except DiskError (List String) := do
  let place ← tree.parent path
  follow place ((parts path).getLast?.getD ".")

def read (tree : FileTree) (path : String) : Except DiskError String := do
  match tree.content? (← tree.resolve path) with
  | none => throw .notFound
  | some .folder => throw .isFolder
  | some content =>
    if asksForFolder path then throw .notFolder
    match content with
    | .text text => return text
    | .bytes | .full => throw .notText
    | .folder | .sink | .display => return ""

def write (tree : FileTree) (path text : String) : Except DiskError FileTree := do
  let _ ← tree.parent path
  if asksForFolder path then throw .isFolder
  let names ← tree.resolve path
  match tree.content? names with
  | some .folder => throw .isFolder
  | some .sink => return tree
  | some .full => if text.isEmpty then return tree else throw .noSpace
  | some .display => return { tree with shown := tree.shown ++ text }
  | some (.text _) | some .bytes | none =>
    let others := tree.entries.filter fun entry => entry.1 != names
    return { tree with entries := (names, .text text) :: others }

def disk : Disk (StateM FileTree) where
  read path := do return (← get).read path
  write path text := do
    match (← get).write path text with
    | .ok tree =>
      set tree
      return .ok ()
    | .error e => return .error e

end FileTree

end BranchTrim
