import RubyIndent.CommandLine.Options
import RubyIndent.Text.Size

/-!
# Reading a command line

Words are read from left to right. A value option whose value is the next word
waits for it, and inputs are collected in the same way: what waits is only
looked at, and its mistakes only reported, when the next known option comes or
the line ends. An unknown option is reported at once, whatever is waiting.
After two dashes alone all words are inputs.
-/

namespace RubyIndent.CommandLine

open RubyIndent.Text

inductive Pending where
  | nothing
  | inputs (paths : List String)
  /-- An option, and its value once the value has come. -/
  | setting (s : Setting) (value : Option String)
  deriving DecidableEq, Repr

structure Progress where
  options : Options := {}
  pending : Pending := .nothing
  /-- Two dashes alone have come. -/
  inputsOnly : Bool := false
  deriving DecidableEq, Repr

/-! ## Single options -/

def Options.setFlag (o : Options) : Flag → Except UsageError Options
  | .tabs => once o.tabs { o with tabs := true }
  | .noIndent => once o.noIndent { o with noIndent := true }
  | .stdout => once o.stdout { o with stdout := true }
  | .diff => once o.diff { o with diff := true }
  | .check => once o.check { o with check := true }
  | .recursive => once o.recursive { o with recursive := true }
  | .debug => once o.debug { o with debug := true }
  | .silent => once o.silent { o with silent := true }
where
  once (already : Bool) (after : Options) : Except UsageError Options :=
    if already then .error .conflict else .ok after

def readNumber (already : Option Nat) (value : String) :
    Except UsageError Nat :=
  if already.isSome then .error .conflict
  else
    match readSize? value.toList with
    | some n => .ok n
    | none => .error .badNumber

def readPath (value : String) : Except UsageError Path :=
  if value = "" then .error .missingValue else .ok ⟨value⟩

/-- Gives an option its value. Excluded patterns and extensions add up; the
other options can be given once. -/
def Options.setValue (o : Options) (s : Setting) (value : String) :
    Except UsageError Options := do
  match s with
  | .indent => return { o with indent := some (← readNumber o.indent value) }
  | .jobs => return { o with jobs := some (← readNumber o.jobs value) }
  | .maxLines =>
    return { o with maxLines := some (← readNumber o.maxLines value) }
  | .config =>
    if o.config.isSome then throw .conflict
    return { o with config := some (← readPath value) }
  | .exclude => return { o with exclude := o.exclude ++ [value] }
  | .extension => return { o with extensions := o.extensions ++ [value] }

/-! ## Words -/

namespace Progress

def resolve (p : Progress) : Except UsageError Progress := do
  let options ← match p.pending with
    | .nothing => pure p.options
    | .inputs paths =>
      let paths ← paths.mapM readPath
      pure { p.options with inputs := p.options.inputs ++ paths }
    | .setting _ none => throw .missingValue
    | .setting s (some value) => p.options.setValue s value
  return { p with options, pending := .nothing }

def setFlag (p : Progress) (f : Flag) : Except UsageError Progress := do
  let p ← p.resolve
  return { p with options := ← p.options.setFlag f }

/-- An option with its value in the same word, or waiting for it. -/
def setting (p : Progress) (s : Setting) (value : Option String) :
    Except UsageError Progress := do
  let p ← p.resolve
  match value with
  | some value => return { p with options := ← p.options.setValue s value }
  | none => return { p with pending := .setting s none }

/-- An option without a value of its own. -/
def switch (p : Progress) : Switch → Except UsageError Progress
  | .flag f => p.setFlag f
  | .setting s => p.setting s none
  | .help => p.resolve.bind fun _ => .error .help
  | .version => p.resolve.bind fun _ => .error .version

def long (p : Progress) (name : String) (value : Option String) :
    Except UsageError Progress :=
  match Switch.ofLong? name, value with
  | none, _ => .error .unknownArgument
  | some (.setting s), some value => p.setting s (some value)
  | some _, some _ => .error .valueForFlag
  | some switch, none => p.switch switch

/-- Options by letter. A value option takes the rest of the word, without a
`=` in front, as its value. -/
def letters (p : Progress) : List Char → Except UsageError Progress
  | [] => .ok p
  | c :: rest =>
    match Switch.ofShort? c with
    | none => .error .unknownArgument
    | some (.setting s) =>
      match rest with
      | [] => p.setting s none
      | '=' :: value => p.setting s (some (String.ofList value))
      | value => p.setting s (some (String.ofList value))
    | some switch => (p.switch switch).bind fun p => p.letters rest

def input (p : Progress) (word : String) : Except UsageError Progress := do
  match p.pending with
  | .inputs paths => return { p with pending := .inputs (paths ++ [word]) }
  | _ => return { ← p.resolve with pending := .inputs [word] }

/-- A word that is no option: the value that an option waits for, or an
input. -/
def plain (p : Progress) (word : String) : Except UsageError Progress :=
  match p.pending with
  | .setting s none => .ok { p with pending := .setting s (some word) }
  | _ => p.input word

def word (p : Progress) (w : String) : Except UsageError Progress :=
  if p.inputsOnly then p.input w
  else
    match w.toList with
    | ['-', '-'] => .ok { p with inputsOnly := true }
    | '-' :: '-' :: rest =>
      let name := String.ofList (rest.takeWhile (· ≠ '='))
      match rest.dropWhile (· ≠ '=') with
      | [] => p.long name none
      | _ :: value => p.long name (some (String.ofList value))
    | '-' :: c :: rest => p.letters (c :: rest)
    | _ => p.plain w

end Progress

/-- Reads a command line, without the name of the program. Tabs and a width
exclude each other. -/
def parse (words : List String) : Except UsageError Options := do
  let p ← words.foldlM Progress.word {}
  let options := (← p.resolve).options
  if options.tabs && options.indent.isSome then throw .conflict
  return options

end RubyIndent.CommandLine
