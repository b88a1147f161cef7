/-!
# Files

Paths as they are written, and the files that they lead to.
-/

/-!
## Paths

A path is a text with `/` between its parts. Paths are put together and taken apart as they are
written; nothing is looked up. Empty parts and `.` do not count as parts, except for a `.` at the
very start.
-/

namespace QueryAudit.Path

/-- The parts of a text between its slashes; there is at least one. -/
def split : List Char → List (List Char)
  | [] => [[]]
  | c :: rest =>
      match split rest with
      | [] => [[c]]
      | part :: parts => if c = '/' then [] :: part :: parts else (c :: part) :: parts

def isIdle (part : List Char) : Bool := part == [] || part == ['.']

def isAbsolute (path : String) : Bool := path.toList.head? == some '/'

/-- The start of a path that counts as it stands, a root or a `.`, and the text after it. -/
def splitHead : List Char → List Char × List Char
  | '/' :: rest => (['/'], rest)
  | ['.'] => (['.'], [])
  | '.' :: '/' :: rest => (['.'], '/' :: rest)
  | chars => ([], chars)

def trimEnd (parts : List (List Char)) : List (List Char) :=
  (parts.reverse.dropWhile isIdle).reverse

def parent? (path : String) : Option String :=
  let (head, body) := splitHead path.toList
  match (trimEnd (split body)).reverse with
  | [] => if head = ['.'] then some "" else none
  | _ :: before =>
      some (String.ofList (head ++ ['/'].intercalate (trimEnd before.reverse)))

/-- A path below a directory; an absolute path is not changed. -/
def join (directory path : String) : String :=
  if isAbsolute path || directory.isEmpty then path
  else if directory.toList.getLast? = some '/' then directory ++ path
  else directory ++ "/" ++ path

end QueryAudit.Path

/-!
## Trees of files

The files that can be read, each under the parts of its path from the working directory. Directories
are there for the sake of files in them. Whatever is named above the working directory, or from the
root, does not exist.
-/

namespace QueryAudit

inductive FileError where
  | notFound
  | isDirectory
  | notDirectory
deriving DecidableEq, Repr

/-- Files: the parts of the path of each, and its content. -/
structure FileTree where
  files : List (List String × String)

namespace FileTree

def parts (path : String) : List String :=
  ((Path.split path.toList).filter fun part => !Path.isIdle part).map String.ofList

def ofList (files : List (String × String)) : FileTree :=
  ⟨files.map fun (path, content) => (parts path, content)⟩

inductive Place where
  /-- In the working directory or below. -/
  | below (path : List String)
  /-- So many levels above the working directory. -/
  | above (levels : Nat)
deriving DecidableEq, Repr

def content? (tree : FileTree) (path : List String) : Option String :=
  (tree.files.find? fun file => file.1 = path).map Prod.snd

def hasDirectory (tree : FileTree) (path : List String) : Bool :=
  path.isEmpty || tree.files.any fun file => path.isPrefixOf file.1 && file.1 ≠ path

/-- Take one more part of a path from a place, which must be a directory. -/
def enter (tree : FileTree) (place : Place) (part : String) : Except FileError Place :=
  match place with
  | .above levels => if part = ".." then .ok (.above (levels + 1)) else .error .notFound
  | .below path =>
      if tree.hasDirectory path then
        if part = ".." then .ok (if path.isEmpty then .above 1 else .below path.dropLast)
        else .ok (.below (path ++ [part]))
      else if (tree.content? path).isSome then .error .notDirectory
      else .error .notFound

def read (tree : FileTree) (path : String) : Except FileError String :=
  if path.isEmpty then .error .notFound
  else if Path.isAbsolute path then
    if (parts path).all fun part => part = ".." then .error .isDirectory else .error .notFound
  else
    match (parts path).foldlM (enter tree) (.below []) with
    | .error error => .error error
    | .ok (.above _) => .error .isDirectory
    | .ok (.below place) =>
        if tree.hasDirectory place then .error .isDirectory
        else
          match tree.content? place with
          | none => .error .notFound
          | some content =>
              let written := Path.split path.toList
              if (written.getLast?.map Path.isIdle).getD false then .error .notDirectory
              else .ok content

end FileTree

end QueryAudit
