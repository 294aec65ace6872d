import RubyIndent.Changes
import RubyIndent.CommandLine.Options
import RubyIndent.Directive
import RubyIndent.Document
import RubyIndent.Settings

/-!
# Reports

What is done with one document is decided without any effects: a report says
what to print, what to write back and how to count the document. Reports are
added up to a tally, from which the last line of a run and its exit status are
made.

How contents are reindented once their configuration is known is left to a
formatter; the one that programs use is `formatBytes`.
-/

namespace RubyIndent

open RubyIndent.CommandLine RubyIndent.Text

/-! ## Sizes of documents -/

def mebibyte : Nat := 1024 * 1024

def sizeLimit : Nat := 100 * mebibyte

/-- The number of lines, the last one without a newline included. -/
def countLines (contents : ByteArray) : Nat :=
  (splitLines 10 contents.toList).length

inductive Skip where
  | large (size : Nat)
  | long (lines limit : Nat)
  deriving DecidableEq, Repr

def Skip.message : Skip → String
  | .large size =>
    s!"{size / mebibyte} MiB is over the {sizeLimit / mebibyte} MiB limit"
  | .long lines limit => s!"{lines} lines is over the limit of {limit}"

def CommandLine.Options.skip? (o : Options) (contents : ByteArray) :
    Option Skip :=
  if contents.size > sizeLimit then some (.large contents.size)
  else
    match o.maxLines with
    | some limit =>
      let n := countLines contents
      if n > limit then some (.long n limit) else none
    | none => none

/-! ## Errors -/

inductive RunError where
  | settings (e : Settings.FileError)
  | configuration (problem : Config.Problem)
  | directive (e : DirectiveError)
  | format (e : FormatError)
  | unreadable (path : Path)
  | largeInput
  | fault (f : Fault)
  deriving DecidableEq, Repr

def RunError.message : RunError → String
  | .settings e => e.message
  | .configuration problem => "Invalid configuration: " ++ problem.message
  | .directive e => e.message
  | .format e => e.message
  | .unreadable p => p.text ++ ": cannot be read"
  | .largeInput => s!"stdin is over the {sizeLimit / mebibyte} MiB limit"
  | .fault f => f.message

def RunError.fault? : RunError → Option Fault
  | .directive (.fault f) | .fault f => some f
  | _ => none

/-- Reindents the contents of a document under its own directive. -/
def reindentBytes (format : Formatter) (contents : ByteArray) (config : Config)
    (name : String) : Except RunError ByteArray :=
  match effectiveConfig config contents name with
  | .error e => .error (.directive e)
  | .ok config =>
    match format contents config name with
    | .error e => .error (.format e)
    | .ok output => .ok output

/-! ## One document -/

def differ (a b : ByteArray) : Bool :=
  a.data != b.data

theorem differ_iff {a b : ByteArray} : differ a b ↔ a ≠ b := by
  obtain ⟨a⟩ := a
  obtain ⟨b⟩ := b
  simp [differ]

/-- What to do about a document. -/
structure Report where
  /-- What goes to standard output. -/
  output : ByteArray := .empty
  /-- What goes to standard error. -/
  messages : String := ""
  replacement : Option ByteArray := none
  /-- Whether the document was processed, and then whether it changes. -/
  changed : Option Bool := none
  error : Option RunError := none

def Report.fault? (r : Report) : Option Fault :=
  r.error.bind RunError.fault?

/-- A line of output, unless the run is to be silent. -/
def CommandLine.Options.note (o : Options) (line : String) : String :=
  if o.silent then "" else line ++ "\n"

def renderChange (c : LineChange) : String :=
  s!"{c.line}:\n- " ++ c.before ++ "\n+ " ++ c.after ++ "\n"

def renderChanges (o : Options) (name : String) (before after : ByteArray) :
    String :=
  match String.fromUTF8? before, String.fromUTF8? after with
  | some before, some after =>
    match changedLines before after with
    | [] => ""
    | changes =>
      o.note ("=== " ++ name ++ " ===") ++
        String.join (changes.map renderChange)
  | _, _ => ""

/-- What to do about a file with the given contents and configuration. Checking
is stronger than printing, which is stronger than showing the differences;
with none of these the file is written if it changes. -/
def report (format : Formatter) (o : Options) (p : Path) (contents : ByteArray)
    (config : Config) : Report :=
  match o.skip? contents with
  | some skip =>
    { messages := o.note ("Skipping " ++ p.text ++ ": " ++ skip.message) }
  | none =>
    let messages := if o.stdout || o.check then ""
      else o.note ("Reindenting: " ++ p.text)
    match reindentBytes format contents config p.text with
    | .error e => { messages, error := some e }
    | .ok output =>
      let changed := differ output contents
      let done : Report := { messages, changed := some changed }
      if o.check then
        if changed then
          { done with output := (o.note ("would reindent: " ++ p.text)).toUTF8 }
        else done
      else if o.stdout then { done with output }
      else if o.diff then
        { done with output := (renderChanges o p.text contents output).toUTF8 }
      else if changed then { done with replacement := some output }
      else done

/-- What to do about standard input. There is no file to write, so the result
is printed where a file would be written. -/
def reportInput (format : Formatter) (o : Options) (contents : ByteArray)
    (config : Config) : Except RunError Report := do
  if contents.size > sizeLimit then throw .largeInput
  let output ← reindentBytes format contents config "stdin"
  let changed := differ output contents
  let done : Report := { changed := some changed }
  if o.check then
    return if changed then
      { done with output := (o.note "would reindent: stdin").toUTF8 }
    else done
  else if o.diff then
    return { done with output := (renderChanges o "stdin" contents output).toUTF8 }
  else return { done with output }

/-! ## Counting documents -/

structure Tally where
  processed : Nat := 0
  changed : Nat := 0
  errors : Nat := 0
  deriving DecidableEq, Repr

namespace Tally

def add (t : Tally) (r : Report) : Tally where
  processed := t.processed + (if r.changed.isSome then 1 else 0)
  changed := t.changed + (if r.changed = some true then 1 else 0)
  errors := t.errors + (if r.error.isSome then 1 else 0)

def summary (t : Tally) (check : Bool) : String :=
  if check then
    s!"{t.changed} of {t.processed} files would be reindented, {t.errors} errors."
  else if t.errors = 0 then s!"Reindented {t.processed} files successfully."
  else s!"Reindented {t.processed} files, {t.errors} errors."

/-- The status of a run: failed documents, or documents that a check finds,
make it 1. -/
def exitCode (t : Tally) (check : Bool) : Nat :=
  if t.errors > 0 ∨ (check ∧ t.changed > 0) then 1 else 0

end Tally

end RubyIndent
