import RubyIndent.Text.Position

/-!
# Diagnostics

What is said about a text that no rule matches: the rule that got furthest,
where it gave up, and the line in question with a mark under the place.
-/

namespace RubyIndent

open RubyIndent.Text

/-- A rule that failed, and where. The offset counts bytes and is kept as it
was given. -/
structure Diagnostic where
  rule : String
  offset : Nat
  line : Nat
  column : Nat
  sourceLine : String
  deriving DecidableEq, Repr

namespace Diagnostic

def atOffset (input : List Char) (rule : String) (offset : Nat) : Diagnostic where
  rule := rule
  offset := offset
  line := lineAt input offset
  column := columnAt input offset
  sourceLine := String.ofList (lineTextAt input offset)

def message (d : Diagnostic) : String :=
  s!"line {d.line}, column {d.column}: failed rule '{d.rule}'"

def caret (d : Diagnostic) : String :=
  d.sourceLine ++ "\n" ++ String.ofList (List.replicate (d.column - 1) ' ') ++ "^"

end Diagnostic

end RubyIndent
