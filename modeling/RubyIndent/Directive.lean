import RubyIndent.Config
import RubyIndent.Text.Blank
import RubyIndent.Text.Lines
import RubyIndent.Text.Size

/-!
# Directives

A document may carry its own settings in a comment line such as
`# rbeautify: --indent 4`. The first line of that form counts, wherever it
stands, and later ones are ignored; unknown words in it are skipped.
-/

namespace RubyIndent

open RubyIndent.Text

/-- The settings of a directive; those that it does not mention are unset. -/
structure Directive where
  indent : Option Nat := none
  tabs : Option Bool := none
  imposeIndent : Option Bool := none
  deriving DecidableEq, Repr

namespace Directive

def isEmpty (d : Directive) : Bool :=
  d.indent.isNone && d.tabs.isNone && d.imposeIndent.isNone

/-- Applies the settings, tabs after a width. -/
def applyTo (d : Directive) (config : Config) : Except Fault Config := do
  let config ← match d.indent with
    | some width => config.setWidth width
    | none => pure config
  let config := if d.tabs = some true then config.withTabs else config
  match d.imposeIndent with
  | some impose => return config.withImposeIndent impose
  | none => return config

/-! ## Reading a directive -/

def keyword : List Char := "rbeautify:".toList

/-- Removes a word from the front of a text, whatever the case of its
letters. -/
def dropKeyword? : List Char → List Char → Option (List Char)
  | [], s => some s
  | _ :: _, [] => none
  | k :: ks, c :: s => if k.toLower = c.toLower then dropKeyword? ks s else none

/-- The settings part of a directive line. It must not reach over a newline,
but the line may end with one. -/
def arguments? (line : List Char) : Option (List Char) :=
  match trimStart line with
  | '#' :: rest =>
    (dropKeyword? keyword (trimStart rest)).bind fun args =>
      let args := trim args
      if args.contains '\n' then none else some args
  | _ => none

/-- Reads settings word by word. A width is the word after its option; one
that is no number unsets the width. -/
def readWords (d : Directive) : List String → Directive
  | [] => d
  | "-i" :: rest | "--indent" :: rest =>
    match rest with
    | [] => { d with indent := none }
    | w :: rest => readWords { d with indent := readSize? w.toList } rest
  | "-t" :: rest | "--tabs" :: rest => readWords { d with tabs := some true } rest
  | "--no-indent" :: rest | "--disable-indent" :: rest =>
    readWords { d with imposeIndent := some false } rest
  | "--enable-indent" :: rest =>
    readWords { d with imposeIndent := some true } rest
  | _ :: rest => readWords d rest

def isDirectiveLine (line : String) : Bool :=
  (arguments? line.toList).isSome

/-- The directive of a line; none if it sets nothing. -/
def ofLine? (line : String) : Option Directive :=
  (arguments? line.toList).bind fun args =>
    let d := readWords {} ((words args).map String.ofList)
    if d.isEmpty then none else some d

/-- The directive of the first line that has the form of one. The search ends
without a directive at a line that is not valid UTF-8. -/
def search : List (List UInt8) → Option Directive
  | [] => none
  | line :: rest =>
    match String.fromUTF8? ⟨line.toArray⟩ with
    | none => none
    | some s => if isDirectiveLine s then ofLine? s else search rest

def find? (contents : ByteArray) : Option Directive :=
  search (splitLines 10 contents.toList)

end Directive

inductive DirectiveError where
  | invalid (source : String) (problem : Config.Problem)
  | fault (f : Fault)
  deriving DecidableEq, Repr

def DirectiveError.message : DirectiveError → String
  | .invalid source problem => source ++ ": invalid directive: " ++ problem.message
  | .fault f => f.message

/-- The configuration for a document: the given one with the document's own
directive applied. Only a directive is a reason to check the result. -/
def effectiveConfig (config : Config) (contents : ByteArray) (source : String) :
    Except DirectiveError Config :=
  match Directive.find? contents with
  | none => .ok config
  | some d =>
    match d.applyTo config with
    | .error f => .error (.fault f)
    | .ok config =>
      match config.problem? with
      | some problem => .error (.invalid source problem)
      | none => .ok config

end RubyIndent
