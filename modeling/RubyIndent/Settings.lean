import RubyIndent.Config
import RubyIndent.Files.Host
import RubyIndent.Toml.Parser

/-!
# Settings files

Settings are read from TOML files. Those that a document does not name itself
are looked for around it: in the home directory, then in every directory from
the root down to the document's own. Later files win, so nearer ones do. A file
that cannot be used is passed over.
-/

namespace RubyIndent

/-- What a settings file says; what it does not mention is unset. -/
structure Settings where
  indent : Option Nat := none
  tabs : Option Bool := none
  indentUnit : Option String := none
  imposeIndent : Option Bool := none
  deriving DecidableEq, Repr

namespace Settings

/-- Reads an optional key. The outer option tells whether a value that is
there has the right form. -/
def optional {α : Type} (entries : Toml.Entries) (key : String)
    (decode : Toml.Value → Option α) : Option (Option α) :=
  match entries.lookup key with
  | none => some none
  | some v => (decode v).map some

def asWidth? : Toml.Value → Option Nat
  | .integer n => if n < 0 then none else some n.toNat
  | _ => none

def asBoolean? : Toml.Value → Option Bool
  | .boolean b => some b
  | _ => none

def asString? : Toml.Value → Option String
  | .string s => some s
  | _ => none

/-- The settings in a TOML document. Keys that are not known are ignored. -/
def ofEntries? (entries : Toml.Entries) : Option Settings := do
  return {
    indent := ← optional entries "indent" asWidth?
    tabs := ← optional entries "tabs" asBoolean?
    indentUnit := ← optional entries "indent_unit" asString?
    imposeIndent := ← optional entries "impose_indent" asBoolean? }

/-- Applies the settings: a width first, then tabs, then a unit. The numbers of
a TOML document are never too great for a text. -/
def applyTo (s : Settings) (config : Config) : Config :=
  let config := match s.indent with
    | some width => config.withWidth width
    | none => config
  let config := if s.tabs = some true then config.withTabs else config
  let config := match s.indentUnit with
    | some unit => config.withUnit unit
    | none => config
  match s.imposeIndent with
  | some impose => config.withImposeIndent impose
  | none => config

inductive FileError where
  | cannotRead (path : Path)
  | invalid (path : Path)
  deriving DecidableEq, Repr

def FileError.message : FileError → String
  | .cannotRead p => "cannot read " ++ p.text
  | .invalid p => "invalid TOML in " ++ p.text

def ofContents (path : Path) (contents : Option ByteArray) :
    Except FileError Settings :=
  match contents.bind String.fromUTF8? with
  | none => .error (.cannotRead path)
  | some source =>
    match (Toml.parse? source).bind ofEntries? with
    | some s => .ok s
    | none => .error (.invalid path)

/-! ## Looking for files -/

/-- The names of settings files; the later one wins. -/
def fileNames : List String :=
  ["rbeautify.toml", ".rbeautify.toml"]

def directories (home : Option Path) (start : Path) : List Path :=
  home.toList ++ start.ancestors.reverse

def candidates (home : Option Path) (start : Path) : List Path :=
  (directories home start).flatMap fun d => fileNames.map d.join

/-- Adds a path, unless one that describes the same way is there. -/
def addNew (found : List Path) (p : Path) : List Path :=
  if found.any p.sameAs then found else found ++ [p]

variable {m : Type → Type} [Monad m] [Host m]

/-- The directory where the search for a path's settings starts: the directory
of a file, a directory itself, or else the working directory. -/
def searchStart (p : Path) : m Path := do
  if ← Host.isFile p then return p.parent?.getD p
  else if ← Host.isDirectory p then return p
  else Host.currentDirectory

/-- The settings files around a path, the strongest last and none twice. -/
def discover (p : Path) : m (List Path) := do
  let start ← searchStart p
  let files ← (candidates (← Host.home?) start).filterM Host.isFile
  return files.foldl addNew []

def load (p : Path) : m (Except FileError Settings) := do
  return ofContents p (← Host.read? p)

end Settings

namespace Config

variable {m : Type → Type} [Monad m] [Host m]

def ofFile (p : Path) : m (Except Settings.FileError Config) := do
  return (← Settings.load p).map fun s => s.applyTo {}

def discovered (p : Path) : m Config := do
  let loaded ← (← Settings.discover p).mapM Settings.load
  return loaded.foldl
    (fun config result =>
      match result with
      | .ok s => s.applyTo config
      | .error _ => config) {}

end Config

end RubyIndent
