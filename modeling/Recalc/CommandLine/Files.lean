/-!
# Files by path

A tree of files stands for the working directory. A path is followed part by part: an empty part or a
dot stays where it is, two dots go up, and a name goes down. A path can leave the tree upwards, where
there are only directories.
-/

namespace Recalc

inductive Located
  | missing
  | directory
  | file (content : ByteArray)

/-- Files by the names of the directories above them and their own. -/
structure FileTree where
  files : List (List String × ByteArray)

namespace FileTree

inductive Place
  | above
  | directory (names : List String)
  | file (content : ByteArray)

def isDirectory (tree : FileTree) (names : List String) : Bool :=
  tree.files.any fun f => names.isPrefixOf f.1 && names.length < f.1.length

def enter? (tree : FileTree) (names : List String) (name : String) : Option Place :=
  match tree.files.lookup (names ++ [name]) with
  | some content => some (.file content)
  | none =>
    if tree.isDirectory (names ++ [name]) then some (.directory (names ++ [name])) else none

/-- Follows one part of a path. A file has nothing below it. -/
def follow? (tree : FileTree) (place : Place) (part : String) : Option Place :=
  match place with
  | .file _ => none
  | .above => if part = "" ∨ part = "." ∨ part = ".." then some .above else none
  | .directory names =>
    if part = "" ∨ part = "." then some (.directory names)
    else if part = ".." then
      if names.isEmpty then some .above else some (.directory names.dropLast)
    else tree.enter? names part

def pathParts (path : String) : List String := path.splitOn "/"

def locate (tree : FileTree) (path : String) : Located :=
  if path = "" then .missing
  else
    let start := if path.startsWith "/" then Place.above else .directory []
    match (pathParts path).foldlM (follow? tree) start with
    | none => .missing
    | some (.file content) => .file content
    | some _ => .directory

/-- A name without its last extension. A leading dot does not begin an extension. -/
def stem (name : String) : String :=
  match name.toList.reverse.dropWhile (· ≠ '.') with
  | '.' :: c :: rest => String.ofList (c :: rest).reverse
  | _ => name

/-- The name under which a notebook is shown: that of its file without the extension. -/
def displayName (path : String) : String :=
  match ((pathParts path).filter fun part => part ≠ "" ∧ part ≠ ".").getLast? with
  | none => "notebook"
  | some ".." => "notebook"
  | some name => stem name

end FileTree

end Recalc
