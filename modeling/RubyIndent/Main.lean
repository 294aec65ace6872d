import RubyIndent.Run

/-!
# The program

The operating system as a host, and the program that runs on it. An operation
that the system refuses counts as finding nothing.
-/

namespace RubyIndent

def fileType? (p : Path) : IO (Option IO.FS.FileType) := do
  try
    let found ← IO.FS.realPath p.text
    return some (← found.metadata).type
  catch _ => return none

instance : Host IO where
  isFile p := do return (← fileType? p) == some .file
  isDirectory p := do return (← fileType? p) == some .dir
  names p := do
    try
      let found ← IO.FS.realPath p.text
      return (← found.readDir).toList.map fun entry => entry.fileName
    catch _ => return []
  read? p := do
    try
      return some (← IO.FS.readBinFile p.text)
    catch _ => return none
  write p contents := IO.FS.writeBinFile p.text contents
  currentDirectory := do return ⟨(← IO.currentDir).toString⟩
  home? := do
    match ← IO.getEnv "HOME" with
    | some home => return some ⟨home⟩
    | none => return (← IO.getEnv "USERPROFILE").map Path.mk
  input := do (← IO.getStdin).readBinToEnd
  putOutput b := do
    let out ← IO.getStdout
    out.write b
    out.flush
  putError s := do (← IO.getStderr).putStr s

end RubyIndent

def main (args : List String) : IO UInt32 := do
  let status : Nat ← RubyIndent.runCommandLine RubyIndent.formatBytes args
  return status.toUInt32
