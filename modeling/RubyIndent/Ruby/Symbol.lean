import RubyIndent.Indenter
import RubyIndent.Peg.Expr
import RubyIndent.Ruby.LineShape

/-!
# The symbols of the line grammar

The rules of the grammar by name. A symbol's number is its place in the list
of all symbols, so expressions can be written with symbols and the grammar is
that list with a body for each.
-/

namespace RubyIndent.Ruby

open RubyIndent.Peg

inductive Sym where
  | spacing
  | eol
  | eof
  | comment
  | sqString
  | dqString
  | interpPart
  | braceGroup
  | interpolation
  | dqPart
  | heredocStart
  | heredocLabel
  | heredocTerminator
  | physicalLine
  | heredocBody
  | blockOpener
  | blockTail
  | bracketTail
  | anyTail
  | leadStop
  | rest
  | lead
  | text
  | shape (s : LineShape)
  | line
  deriving DecidableEq, Repr

namespace Sym

def all : List Sym :=
  [spacing, eol, eof, comment, sqString, dqString, interpPart, braceGroup,
    interpolation, dqPart, heredocStart, heredocLabel, heredocTerminator,
    physicalLine, heredocBody, blockOpener, blockTail, bracketTail, anyTail,
    leadStop, rest, lead, text] ++ LineShape.all.map shape ++ [line]

def id (s : Sym) : RuleId :=
  all.idxOf s

theorem all_id (s : Sym) : all[s.id]? = some s := by
  cases s with
  | shape s => cases s <;> decide
  | _ => decide

def name : Sym → String
  | spacing => "spacing"
  | eol => "eol"
  | eof => "eof"
  | comment => "comment"
  | sqString => "sq_string"
  | dqString => "dq_string"
  | interpPart => "interp_part"
  | braceGroup => "brace_group"
  | interpolation => "interpolation"
  | dqPart => "dq_part"
  | heredocStart => "heredoc_start"
  | heredocLabel => "heredoc_label"
  | heredocTerminator => "heredoc_terminator"
  | physicalLine => "physical_line"
  | heredocBody => "heredoc_body"
  | blockOpener => "block_opener"
  | blockTail => "block_tail"
  | bracketTail => "bracket_tail"
  | anyTail => "any_tail"
  | leadStop => "lead_stop"
  | rest => "rest"
  | lead => "lead"
  | text => "text"
  | shape s => s.ruleName
  | line => "line"

def ref (s : Sym) : Expr Indenter :=
  .rule s.id

end Sym

end RubyIndent.Ruby
