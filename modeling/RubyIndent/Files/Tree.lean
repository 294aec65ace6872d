import RubyIndent.Files.Path

/-!
# File trees

A tree of files and directories, held in memory. A place in it is the list of
names that lead to it from the root. Directories exist by themselves or because
something is in them.
-/

namespace RubyIndent

/-- The names that lead from the root to a file or directory. -/
abbrev Place := List String

structure FileTree where
  files : List (Place × ByteArray) := []
  directories : List Place := []

namespace FileTree

def file? (t : FileTree) (p : Place) : Option ByteArray :=
  t.files.lookup p

def places (t : FileTree) : List Place :=
  t.directories ++ t.files.map Prod.fst

/-- A directory is the root, a named directory, or has something in it. -/
def isDirectory (t : FileTree) (p : Place) : Bool :=
  p.isEmpty || t.directories.contains p ||
    t.places.any fun q => p.isPrefixOf q && p.length < q.length

/-- The names in a directory, each once. -/
def names (t : FileTree) (p : Place) : List String :=
  (t.places.filterMap fun q =>
    if p.isPrefixOf q then (q.drop p.length).head? else none).eraseDups

/-- Replaces the contents of a file in a list, or adds the file at its end. -/
def putFile (p : Place) (contents : ByteArray) :
    List (Place × ByteArray) → List (Place × ByteArray)
  | [] => [(p, contents)]
  | (q, old) :: rest =>
    if q = p then (q, contents) :: rest
    else (q, old) :: putFile p contents rest

def setFile (t : FileTree) (p : Place) (contents : ByteArray) : FileTree :=
  { t with files := putFile p contents t.files }

/-- Follows the steps of a path. Every step needs a directory to start
from. -/
def follow (t : FileTree) (at_ : Place) : List Path.Component → Option Place
  | [] => some at_
  | .root :: cs => t.follow [] cs
  | .here :: cs => if t.isDirectory at_ then t.follow at_ cs else none
  | .up :: cs => if t.isDirectory at_ then t.follow at_.dropLast cs else none
  | .name n :: cs =>
    if t.isDirectory at_ then t.follow (at_ ++ [n]) cs else none

/-- The place that a path leads to from a directory, if there is anything. -/
def locate? (t : FileTree) (from_ : Place) (p : Path) : Option Place :=
  if p.text = "" then none
  else
    (t.follow from_ p.components).filter fun q =>
      t.isDirectory q || ((t.file? q).isSome && !p.endsAsDirectory)

end FileTree

end RubyIndent
