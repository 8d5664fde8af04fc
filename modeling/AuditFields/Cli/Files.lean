import AuditFields.Entries

/-!
# Files

What the program asks of a file system, and a tree of files that answers it. Paths of the tree are
relative to its root and do not lead out of it.
-/

namespace AuditFields.Cli

/-- The operations on files that the program uses, in a monad. -/
structure FileSystem (m : Type → Type) where
  /-- The text of the file at a path, if it can be read. -/
  read : String → m (Option String)
  /-- Makes the directory at a path and those on the way to it; whether that could be done. -/
  makeDirectories : String → m Bool
  /-- Writes the file at a path; whether that could be done. -/
  write : String → String → m Bool

def joinPath (directory file : String) : String :=
  if directory.toList.getLast? = some '/' then directory ++ file else directory ++ "/" ++ file

/-- A tree of files: their texts and the directories, each by the names on the way to it. -/
structure FileTree where
  files : List (List String × String) := []
  directories : List (List String) := []
  deriving DecidableEq, Repr

namespace FileTree

def isDirectory (tree : FileTree) (path : List String) : Bool :=
  path.isEmpty || tree.directories.contains path

def file? (tree : FileTree) (path : List String) : Option String :=
  tree.files.lookup path

def put (tree : FileTree) (path : List String) (text : String) : FileTree :=
  if (tree.file? path).isSome then
    { tree with files := tree.files.map fun file => if file.1 = path then (path, text) else file }
  else { tree with files := tree.files ++ [(path, text)] }

/-! ## Paths -/

/-- The names of a path, empty ones included. -/
def namesOf (path : String) : List String :=
  (path.toList.splitOn '/').map String.ofList

/-- The directory that names lead to from another one, if all on the way are directories. -/
def walk (tree : FileTree) (base : List String) : List String → Option (List String)
  | [] => some base
  | name :: names =>
    if name = "" || name = "." then walk tree base names
    else if name = ".." then
      if base.isEmpty then none else walk tree base.dropLast names
    else if tree.isDirectory (base ++ [name]) then walk tree (base ++ [name]) names
    else none

/-- The place that a path leads to: a directory, and a name in it. A path that starts at the root of
all files, or ends without a name, leads to no place. -/
def place? (tree : FileTree) (path : String) : Option (List String) :=
  let names := namesOf path
  match names.getLast? with
  | none => none
  | some name =>
    if path.toList.head? = some '/' || ["", ".", ".."].contains name then none
    else (tree.walk [] names.dropLast).map (· ++ [name])

/-- The tree with the directories that names lead through, unless a file is in the way. -/
def makeAll (base : List String) : List String → FileTree → Option FileTree
  | [], tree => some tree
  | name :: names, tree =>
    if name = "" || name = "." then makeAll base names tree
    else if name = ".." then
      if base.isEmpty then none else makeAll base.dropLast names tree
    else
      let path := base ++ [name]
      if (tree.file? path).isSome then none
      else if tree.isDirectory path then makeAll path names tree
      else makeAll path names { tree with directories := tree.directories ++ [path] }

/-! ## The operations -/

def read (tree : FileTree) (path : String) : Option String :=
  (tree.place? path).bind tree.file?

def makeDirectories (tree : FileTree) (path : String) : Option FileTree :=
  if path.toList.head? = some '/' then none else makeAll [] (namesOf path) tree

def write (tree : FileTree) (path text : String) : Option FileTree :=
  match tree.place? path with
  | none => none
  | some place => if tree.isDirectory place then none else some (tree.put place text)

/-- The tree with nothing but these files. It has no directories, so a file whose path leads into one
is left out. -/
def ofFiles (files : List (String × String)) : FileTree :=
  files.foldl (fun tree file => (tree.write file.1 file.2).getD tree) {}

/-- The files of a tree that another one does not have as they are. -/
def changedFrom (tree before : FileTree) : List (String × String) :=
  (tree.files.filter fun file => before.file? file.1 != some file.2).map fun file =>
    ("/".intercalate file.1, file.2)

/-- Does what changes a tree, if it can be done. -/
def attempt (change : FileTree → Option FileTree) : StateM FileTree Bool := do
  match change (← get) with
  | some tree => set tree; return true
  | none => return false

/-- The operations on a tree of files. -/
def fileSystem : FileSystem (StateM FileTree) where
  read path := return (← get).read path
  makeDirectories path := attempt (·.makeDirectories path)
  write path text := attempt (·.write path text)

end FileTree

end AuditFields.Cli
