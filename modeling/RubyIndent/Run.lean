import RubyIndent.CommandLine.Parser
import RubyIndent.Files.Selection
import RubyIndent.Report

/-!
# A run of the program

A run finds the documents and their configurations, carries out the report on
each document, and sums up. It returns its exit status. A fault is the end of
the run: the documents that were to come are left alone.
-/

namespace RubyIndent

open RubyIndent.CommandLine

/-! ## Configuration -/

/-- Applies the options of the command line, which are stronger than any
file. -/
def CommandLine.Options.applyTo (o : Options) (config : Config) :
    Except Fault Config := do
  let config ← match o.indent with
    | some width => config.setWidth width
    | none => pure config
  let config := if o.tabs then config.withTabs else config
  return if o.noIndent then config.withImposeIndent false else config

def checked (config : Config) : Except RunError Config :=
  match config.problem? with
  | some problem => .error (.configuration problem)
  | none => .ok config

def CommandLine.Options.configure (o : Options) (config : Config) :
    Except RunError Config :=
  match o.applyTo config with
  | .error f => .error (.fault f)
  | .ok config => checked config

variable {m : Type → Type} [Monad m] [Host m]

/-- The configuration for a path: from the file that the command line names,
or from the files around the path. -/
def configFor (o : Options) (p : Path) : m (Except RunError Config) := do
  match o.config with
  | some file =>
    match ← Config.ofFile file with
    | .error e => return .error (.settings e)
    | .ok config => return o.configure config
  | none => return o.configure (← Config.discovered p)

/-! ## All documents -/

variable (format : Formatter)

/-- Tells of a failure, with the name of its file. A fault is left to the end of
the run. -/
def complain (o : Options) (p : Path) (r : Report) : m Unit := do
  if r.fault?.isNone then
    if let some e := r.error then
      Host.putError
        (o.note ("Error reindenting " ++ p.text ++ ": " ++ e.message))

def perform (o : Options) (p : Path) (r : Report) : m Unit := do
  Host.putError r.messages
  Host.putOutput r.output
  if let some contents := r.replacement then Host.write p contents
  complain o p r

def examineUnder (o : Options) (p : Path) (config : Except RunError Config) :
    m Report := do
  match config with
  | .error e => return { error := some e }
  | .ok config =>
    match ← Host.read? p with
    | none => return { error := some (.unreadable p) }
    | some contents => return report format o p contents config

/-- The report on a file, under a shared configuration or one of its own. -/
def examine (o : Options) (shared : Option Config) (p : Path) : m Report := do
  match shared with
  | some config => examineUnder format o p (.ok config)
  | none => examineUnder format o p (← configFor o p)

def visit (o : Options) (shared : Option Config) (t : Tally) (p : Path) :
    m (Except Fault Tally) := do
  let r ← examine format o shared p
  perform o p r
  match r.fault? with
  | some f => return .error f
  | none => return .ok (t.add r)

def visitAll (o : Options) (shared : Option Config) (t : Tally) :
    List Path → m (Except Fault Tally)
  | [] => return .ok t
  | p :: files => do
    match ← visit format o shared t p with
    | .error f => return .error f
    | .ok t => visitAll o shared t files

/-- Which files a command line selects. Patterns that cannot be read are
ignored. -/
def CommandLine.Options.selection (o : Options) : Selection where
  recursive := o.recursive
  exclude := o.exclude.filterMap Glob.ofText?
  extensions := o.extensions

def crash (f : Fault) : m Nat := do
  Host.putError (f.message ++ "\n")
  return 101

def abort (e : RunError) : m Nat := do
  match e.fault? with
  | some f => crash f
  | none =>
    Host.putError ("Error: " ++ e.message ++ "\n")
    return 1

def CommandLine.Options.readsInput (o : Options) : Bool :=
  o.inputs = [] || o.inputs = [⟨"-"⟩]

def runInput (o : Options) : m Nat := do
  match ← configFor o (← Host.currentDirectory) with
  | .error e => abort e
  | .ok config =>
    match reportInput format o (← Host.input) config with
    | .error e => abort e
    | .ok r =>
      Host.putOutput r.output
      return if o.check && r.changed = some true then 1 else 0

def reindentFiles (o : Options) (shared : Option Config) (files : List Path) :
    m Nat := do
  if files.isEmpty then
    Host.putError (o.note "No Ruby files found to reindent.")
    return 0
  else
    match ← visitAll format o shared {} files with
    | .error f => crash f
    | .ok t =>
      Host.putError (o.note (t.summary o.check))
      return t.exitCode o.check

def runFiles (o : Options) (shared : Option Config) : m Nat := do
  reindentFiles format o shared (← o.selection.collect o.inputs)

/-- Does what the options ask for and returns the exit status. A configuration
file named on the command line is shared by all files. -/
def run (o : Options) : m Nat := do
  if o.readsInput then runInput format o
  else if o.config.isSome then
    match ← configFor o ⟨""⟩ with
    | .error e => abort e
    | .ok config => runFiles format o (some config)
  else runFiles format o none

def versionText : String := "rbeautify 0.1.0\n"

/-- Runs a command line, without the name of the program, and returns the exit
status. The status of a line that cannot be understood is 2. -/
def runCommandLine (words : List String) : m Nat := do
  match CommandLine.parse words with
  | .ok o => run format o
  | .error .help =>
    Host.putOutput CommandLine.usage.toUTF8
    return 0
  | .error .version =>
    Host.putOutput versionText.toUTF8
    return 0
  | .error e =>
    Host.putError ("error: " ++ e.message ++ "\n")
    return 2

end RubyIndent
