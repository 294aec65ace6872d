/-!
# The indenter

The indenter turns the text of a line into the line that is written, with the
indentation that the nesting depth asks for. It also carries what one line has
to tell a later one: the depth, and the label of a heredoc whose terminator is
being looked for.

The depth is not clamped. A document with a closing line too many goes to a
negative depth, where lines are written without indentation, and the opening
line that follows only brings the depth back.
-/

namespace RubyIndent

structure Indenter where
  /-- The indentation of one level. -/
  unit : String := "  "
  depth : Int := 0
  /-- The label of the heredoc that was opened last. -/
  label : Option String := none
  output : String := ""
  deriving DecidableEq, Repr

namespace Indenter

/-- The indentation at a depth; none at a negative one. -/
def indentation (i : Indenter) (depth : Int) : String :=
  String.join (List.replicate depth.toNat i.unit)

/-- Nothing but line ends. -/
def isBlankLine (text : String) : Bool :=
  text.toList.all fun c => c = '\n' || c = '\r'

/-- A text at a depth. A blank line stays as it is. -/
def render (i : Indenter) (depth : Int) (text : String) : String :=
  if isBlankLine text then text else i.indentation depth ++ text

/-! ## Lines and the depth

Each of these writes a line and says what the depth is afterwards. -/

/-- A line that leaves the depth as it is. -/
def emitSame (text : String) (i : Indenter) : String × Indenter :=
  (i.render i.depth text, i)

/-- A line that opens a level for the lines after it. -/
def emitOpen (text : String) (i : Indenter) : String × Indenter :=
  (i.render i.depth text, { i with depth := i.depth + 1 })

/-- A line that closes a level and stands outside of it. -/
def emitClose (text : String) (i : Indenter) : String × Indenter :=
  (i.render (i.depth - 1) text, { i with depth := i.depth - 1 })

/-- A line that closes a level and opens the next one. -/
def emitDual (text : String) (i : Indenter) : String × Indenter :=
  (i.render (i.depth - 1) text, i)

/-- The introducing line of a heredoc, its body as it stands, and its
terminator, which is aligned with the introducing line. -/
def emitHeredoc (head body terminator : String) (i : Indenter) :
    String × Indenter :=
  (i.render i.depth head ++ "\n" ++ body ++ i.render i.depth terminator ++ "\n",
    i)

def openLevel (i : Indenter) : Indenter :=
  { i with depth := i.depth + 1 }

def rememberLabel (label : String) (i : Indenter) : Indenter :=
  { i with label := some label }

def releaseLabel (i : Indenter) : Option String × Indenter :=
  (i.label, { i with label := none })

def push (text : String) (i : Indenter) : Indenter :=
  { i with output := i.output ++ text }

end Indenter

end RubyIndent
