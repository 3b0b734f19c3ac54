/-
Directories, files and the paths to them.

A file tree knows the folders and files below two directories: the root of the
system, and a working directory of which nothing else is known than that there are
directories above it.

* `FileTree.locate` — where a path leads, one component after the other;
* `FileTree.read` — the bytes of the file that a path leads to: a way to read files,
  as the command takes one.
-/
import ByteMachine.ObjectFile.Error

namespace ByteMachine

open ObjectFile (ReadFault)

/-- A directory that paths are counted from. -/
inductive Base where
  /-- The root of the system. -/
  | root
  /-- Some directory above the working directory. -/
  | above
  /-- The working directory. -/
  | working
deriving DecidableEq

/-- A position in the tree: the components that lead to it from a base. -/
structure Location where
  base : Base
  path : List String
deriving DecidableEq

/-- The directory above a directory.  The root is above itself. -/
def Location.parent (l : Location) : Location :=
  match l.base, l.path with
  | .working, [] => ⟨.above, []⟩
  | base, path => ⟨base, path.dropLast⟩

/-- The folders and files that are known. -/
structure FileTree where
  folders : List Location
  files : List (Location × ByteArray)

/-- What a path can lead to. -/
inductive Place where
  | folder (location : Location)
  | file (contents : ByteArray)

namespace FileTree

/-- The most bytes that the name of a file or folder can have. -/
def nameLimit : Nat := 255

/-- The most bytes that a path can have. -/
def pathLimit : Nat := 4095

/-- What every system holds: folders for devices and for temporary files, and the
device that is always empty. -/
def system : FileTree where
  folders := [⟨.root, ["dev"]⟩, ⟨.root, ["tmp"]⟩]
  files := [(⟨.root, ["dev", "null"]⟩, .empty)]

/-- The tree of a system with these folders and files in the working directory. -/
def ofWorking (folders : List (List String)) (files : List (List String × ByteArray)) :
    FileTree where
  folders := folders.map (⟨.working, ·⟩) ++ system.folders
  files := files.map (fun (path, contents) => (⟨.working, path⟩, contents)) ++ system.files

def entry (tree : FileTree) (l : Location) : Except ReadFault Place :=
  match tree.files.lookup l with
  | some contents => .ok (.file contents)
  | none => if l ∈ tree.folders then .ok (.folder l) else .error .notFound

/-- Where a component leads.  From a file it leads nowhere.  From a folder, an empty
component and a dot stay, two dots go up, and anything else is looked up as a name. -/
def step (tree : FileTree) (place : Place) (component : String) : Except ReadFault Place :=
  match place with
  | .file _ => .error .notADirectory
  | .folder l =>
    if component ∈ ["", "."] then .ok (.folder l)
    else if component = ".." then .ok (.folder l.parent)
    else if nameLimit < component.utf8ByteSize then .error .nameTooLong
    else tree.entry ⟨l.base, l.path ++ [component]⟩

def components (path : String) : List String :=
  (path.toList.splitOn '/').map String.ofList

/-- Where a path leads.  It starts in the working directory unless it starts with a
slash, and the empty path leads nowhere. -/
def locate (tree : FileTree) (path : String) : Except ReadFault Place :=
  if path.isEmpty then .error .notFound
  else if pathLimit < path.utf8ByteSize then .error .nameTooLong
  else
    let base := if path.toList.head? = some '/' then .root else .working
    (components path).foldlM tree.step (.folder ⟨base, []⟩)

def read (tree : FileTree) (path : String) : Except ReadFault ByteArray := do
  match ← tree.locate path with
  | .file contents => .ok contents
  | .folder _ => .error .isADirectory

end FileTree

end ByteMachine
