import RubyIndent.Ruby.Symbol
import RubyIndent.Ruby.Token

/-!
# Literals

Quoted strings with their escapes and interpolations, and heredocs. What
stands inside a literal has no influence on the shape of a line, which is why
the line grammar has to know where literals end.

The label of a heredoc is remembered when its start is matched. A line that
looks like a terminator is matched by a rule that does not mention the label,
so that its match holds for every heredoc; whether it is the terminator of
the heredoc at hand is asked afterwards, by `closing`.
-/

namespace RubyIndent.Ruby

open RubyIndent.Peg

namespace Literal

/-- A single-quoted string; only a backslash is special in it. -/
def sqString : Expr Indenter :=
  .sequence [.literal "'", .pattern Token.sqBody, .literal "'"]

def dqString : Expr Indenter :=
  .sequence [.literal "\"", .many Sym.dqPart.ref, .literal "\""]

/-- A part of a double-quoted string. A `#` that starts no interpolation is
text. -/
def dqPart : Expr Indenter :=
  .choice [Sym.interpolation.ref, .pattern Token.dqEscape,
    .pattern Token.dqRun, .literal "#"]

def interpolation : Expr Indenter :=
  .sequence [.literal "#\x7b", .many Sym.interpPart.ref, .literal "\x7d"]

/-- A part of the code inside a string. Strings and braces in it are matched
as wholes; a quote or brace that belongs to no whole is text. -/
def interpPart : Expr Indenter :=
  .choice [Sym.sqString.ref, Sym.dqString.ref, .literal "\\\x7d",
    Sym.braceGroup.ref, .pattern Token.interpRun, .pattern Token.interpStray]

def braceGroup : Expr Indenter :=
  .sequence [.literal "\x7b", .many Sym.interpPart.ref, .literal "\x7d"]

def heredocStart : Expr Indenter :=
  .pattern Token.heredocStart

def heredocLabel : Expr Indenter :=
  .pattern Token.heredocLabel

def rememberLabel : Action Indenter := fun caps => do
  modify (Indenter.rememberLabel caps.text)
  return caps.text

/-- A line that holds a label and nothing else. -/
def heredocTerminator : Expr Indenter :=
  .sequence [Sym.spacing.ref, .pattern Token.heredocLabel, Sym.spacing.ref,
    .and (.choice [Sym.eol.ref, Sym.eof.ref])]

def trimBlanks (s : String) : String :=
  let isBlank := fun c : Char => c = ' ' || c = '\t'
  String.ofList ((s.toList.dropWhile isBlank).reverse.dropWhile isBlank).reverse

/-- The terminator just matched holds the remembered label. -/
def isActiveLabel : Predicate Indenter := fun caps i =>
  match caps.get? "terminator" with
  | some line => i.label == some (trimBlanks line)
  | none => false

def closing : Expr Indenter :=
  .sequence [.label "terminator" Sym.heredocTerminator.ref,
    .predicate isActiveLabel]

def physicalLine : Expr Indenter :=
  .sequence [.pattern Token.physicalLine, Sym.eol.ref]

/-- The lines before the terminator of the heredoc at hand. -/
def heredocBody : Expr Indenter :=
  .many (.sequence [.not closing, Sym.physicalLine.ref])

end Literal

end RubyIndent.Ruby
