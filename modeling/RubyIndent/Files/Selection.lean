import RubyIndent.Files.Glob
import RubyIndent.Files.Host

/-!
# Choosing files

Files named on the command line are taken as they are. In a directory the Ruby
files are taken: those with a certain name or a certain extension. Patterns
exclude files from both.
-/

namespace RubyIndent

structure Selection where
  recursive : Bool := false
  exclude : List Glob := []
  /-- Extensions of Ruby files beside the usual ones. -/
  extensions : List String := []

namespace Selection

/-- File names without an extension that are Ruby all the same. -/
def rubyNames : List String :=
  ["Rakefile", "Gemfile", "Guardfile", "Capfile", "Vagrantfile"]

def rubyExtensions : List String :=
  ["rb", "rake", "gemspec", "ru", "thor", "builder", "jbuilder"]

def maxDepth : Nat := 256

def dropDot (extension : String) : String :=
  match extension.toList with
  | '.' :: rest => String.ofList rest
  | _ => extension

def isRuby (s : Selection) (p : Path) : Bool :=
  p.fileName?.any rubyNames.contains || p.extension?.any fun e =>
    rubyExtensions.contains e || s.extensions.any fun extra => dropDot extra = e

def isExcluded (s : Selection) (p : Path) : Bool :=
  s.exclude.any fun g => g.covers p

variable {m : Type → Type} [Monad m] [Host m]

/-- The files in a directory, down to a depth. -/
def walk : Nat → Path → m (List Path)
  | 0, _ => return []
  | depth + 1, dir => do
    let found ← (← Host.names dir).mapM fun name => do
      let p := dir.join name
      if ← Host.isFile p then return [p]
      else if ← Host.isDirectory p then walk depth p
      else return []
    return found.flatten

def expand (s : Selection) (input : Path) : m (List Path) := do
  if ← Host.isFile input then
    return if s.isExcluded input then [] else [input]
  else if ← Host.isDirectory input then
    let files ← walk (if s.recursive then maxDepth else 1) input
    return files.filter fun p => s.isRuby p && !s.isExcluded p
  else return []

def collect (s : Selection) (inputs : List Path) : m (List Path) := do
  return (← inputs.mapM s.expand).flatten

end Selection

end RubyIndent
