/-!
# The shape of a line

What a line of Ruby does to the nesting depth is read off its first word or
bracket, its end, and whether it introduces a heredoc. There are ten shapes,
and a line has the first one that fits.
-/

namespace RubyIndent.Ruby

inductive LineShape where
  /-- Starts with a keyword that opens a block. -/
  | indentOpen
  /-- Starts with `end`. -/
  | outdent
  /-- Starts with a keyword in the middle of a block, such as `else`. -/
  | dual
  /-- Starts with a bracket that is closed on the same line. -/
  | bracketSameLine
  | bracketOpen
  | bracketClose
  /-- Ends with `do` or an opening brace, with block parameters if any. -/
  | blockOpener
  /-- Ends with an opening bracket. -/
  | bracketTail
  | heredocIntro
  | plain
  deriving DecidableEq, Repr

namespace LineShape

/-- All shapes, in the order in which they are tried. -/
def all : List LineShape :=
  [indentOpen, outdent, dual, bracketSameLine, bracketOpen, bracketClose,
    blockOpener, bracketTail, heredocIntro, plain]

theorem mem_all (s : LineShape) : s ∈ all := by
  cases s <;> decide

def ruleName : LineShape → String
  | indentOpen => "indent_line"
  | outdent => "outdent_line"
  | dual => "dual_line"
  | bracketSameLine => "bracket_same_line"
  | bracketOpen => "bracket_open_line"
  | bracketClose => "bracket_close_line"
  | blockOpener => "block_line"
  | bracketTail => "bracket_tail_line"
  | heredocIntro => "heredoc_line"
  | plain => "plain_line"

/-- The name by which the shape is reported. -/
def name : LineShape → String
  | indentOpen => "INDENT"
  | outdent => "OUTDENT"
  | dual => "DUAL"
  | bracketSameLine => "BRACKET_SAME_LINE"
  | bracketOpen => "BRACKET_OPEN"
  | bracketClose => "BRACKET_CLOSE"
  | blockOpener => "BLOCK"
  | bracketTail => "BRACKET_TAIL"
  | heredocIntro => "HEREDOC"
  | plain => "PLAIN"

/-- How the depth after the line differs from the depth before it, not
counting a block that the introducing line of a heredoc may open. -/
def depthDelta : LineShape → Int
  | indentOpen | bracketOpen | blockOpener | bracketTail => 1
  | outdent | bracketClose => -1
  | dual | bracketSameLine | heredocIntro | plain => 0

end LineShape

end RubyIndent.Ruby
