import RubyIndent.Files.Tree

/-!
# Hosts

What a run needs from its surroundings: files, directories, and the three
standard streams. The program is written for any host. One host is the
operating system; another is `World`, a file tree in memory, about which
statements can be made.
-/

namespace RubyIndent

class Host (m : Type → Type) where
  isFile : Path → m Bool
  isDirectory : Path → m Bool
  names : Path → m (List String)
  /-- The contents of a file, unless it cannot be read. -/
  read? : Path → m (Option ByteArray)
  write : Path → ByteArray → m Unit
  currentDirectory : m Path
  home? : m (Option Path)
  input : m ByteArray
  putOutput : ByteArray → m Unit
  putError : String → m Unit

structure World where
  tree : FileTree
  /-- The working directory, from the root. -/
  working : Place
  home : Option Path
  stdin : ByteArray := .empty
  stdout : ByteArray := .empty
  stderr : String := ""

namespace World

def locate? (w : World) (p : Path) : Option Place :=
  w.tree.locate? w.working p

def file? (w : World) (p : Path) : Option ByteArray :=
  (w.locate? p).bind w.tree.file?

/-- The world with other contents in a file; a path that leads nowhere cannot be
written to. -/
def put (w : World) (p : Path) (contents : ByteArray) : World :=
  match w.locate? p with
  | some q => { w with tree := w.tree.setFile q contents }
  | none => w

instance : Host (StateM World) where
  isFile p := do return ((← get).file? p).isSome
  isDirectory p := do
    let w ← get
    return (w.locate? p).any w.tree.isDirectory
  names p := do
    let w ← get
    return ((w.locate? p).map w.tree.names).getD []
  read? p := do return (← get).file? p
  write p contents := modify fun w => w.put p contents
  currentDirectory := do
    return ⟨"/" ++ "/".intercalate (← get).working⟩
  home? := do return (← get).home
  input := do return (← get).stdin
  putOutput b := modify fun w => { w with stdout := w.stdout ++ b }
  putError s := modify fun w => { w with stderr := w.stderr ++ s }

end World

end RubyIndent
