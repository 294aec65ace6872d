import RubyIndent.Config
import RubyIndent.Ruby.Grammar

/-!
# Reindenting a document

A document is taken apart line by line. The blanks in front of a line are
dropped and the line is matched; what its action writes is the new line. All
lines share one parse state, so a heredoc body that was scanned for its
introducing line is not scanned again.
-/

namespace RubyIndent

open RubyIndent.Peg RubyIndent.Ruby RubyIndent.Text

namespace Document

variable {text : List Char}

def skipBlanks (s : State Indenter text) : State Indenter text :=
  (s.apply grammar Sym.spacing.id).state

def matchLine (s : State Indenter text) : Step s :=
  s.apply grammar Sym.line.id

def write (value : Value (Cursor text)) (s : State Indenter text) :
    State Indenter text :=
  { s with context := s.context.push value.toString }

/-- Reindents from the cursor on and returns the last state. A line always
takes text, if only its newline, so asking whether it did costs nothing and
shows that the loop ends. -/
def run (s : State Indenter text) :
    Except Diagnostic (State Indenter text) :=
  let spaced := skipBlanks s
  if spaced.atEnd then .ok spaced
  else
    let r := matchLine spaced
    match r.value with
    | none => .error (r.state.explain grammar Sym.line.name)
    | some value =>
      if h : s.cursor.index < r.state.cursor.index then
        have := Cursor.length_rest_lt h
        run (write value r.state)
      else .error (r.state.explain grammar Sym.line.name)
termination_by s.cursor.rest.length

end Document

def reindent (input : String) (config : Config) : Except Diagnostic String :=
  if config.imposeIndent then
    (Document.run
      (State.start input.toList { unit := config.indentUnit })).map
      fun s => s.context.output
  else .ok input

inductive FormatError where
  | notUtf8 (name : String)
  | noParse (name : String) (diagnostic : Diagnostic)
  deriving DecidableEq, Repr

def FormatError.message : FormatError → String
  | .notUtf8 name => name ++ ": input is not valid UTF-8"
  | .noParse name d => name ++ ": " ++ d.message ++ "\n" ++ d.caret

/-- A way to reindent contents under a configuration. The name only serves to
report errors. -/
abbrev Formatter := ByteArray → Config → String → Except FormatError ByteArray

def formatBytes (contents : ByteArray) (config : Config) (name : String) :
    Except FormatError ByteArray :=
  match String.fromUTF8? contents with
  | none => .error (.notUtf8 name)
  | some source =>
    match reindent source config with
    | .ok output => .ok output.toUTF8
    | .error d => .error (.noParse name d)

end RubyIndent
