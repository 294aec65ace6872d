import RubyIndent.Ruby.Literal

/-!
# Lines

One rule for each shape of line. The rules differ in how a line starts or
ends; in between they skip over the line token by token, taking comments and
literals as wholes. Each shape has an action that writes the line.
-/

namespace RubyIndent.Ruby

open RubyIndent.Peg

namespace Line

/-- A keyword as a whole word. Followed by one colon it is a hash key. -/
def keyword (word : String) : Expr Indenter :=
  .sequence [.literal word, .not (.pattern Token.identChar),
    .not (.sequence [.literal ":", .not (.literal ":")])]

def keywords (words : List String) : Expr Indenter :=
  .choice (words.map keyword)

/-! ## The end of a line -/

def blockOpener : Expr Indenter :=
  .choice [.pattern Token.doBlock, .pattern Token.braceBlock]

/-- An opener with nothing but a comment between it and the newline. -/
def tail (opener : Expr Indenter) : Expr Indenter :=
  .sequence [opener, Sym.spacing.ref, .optional Sym.comment.ref,
    .and Sym.eol.ref]

def blockTail : Expr Indenter :=
  tail Sym.blockOpener.ref

def bracketTail : Expr Indenter :=
  tail (.pattern Token.openBracket)

def anyTail : Expr Indenter :=
  .choice [Sym.blockTail.ref, Sym.bracketTail.ref]

/-- What ends the part of a line before a tail or a heredoc. -/
def leadStop : Expr Indenter :=
  .choice [Sym.anyTail.ref, .pattern Token.heredocAhead]

/-! ## The middle of a line -/

/-- Tokens of a line, where `word` is what a token may be other than an
escape, a comment or a literal. -/
def scan (word : Expr Indenter) : Expr Indenter :=
  .many (.choice [.pattern Token.escape, Sym.comment.ref, Sym.dqString.ref,
    Sym.sqString.ref, word])

/-- A word or character at which the given rule does not match. -/
def wordBefore (stop : Sym) : Expr Indenter :=
  .sequence [.not stop.ref, .pattern Token.wordOrChar]

/-- Tokens up to a tail. -/
def rest : Expr Indenter :=
  scan (wordBefore .anyTail)

/-- Tokens up to a tail or a heredoc. -/
def lead : Expr Indenter :=
  scan (wordBefore .leadStop)

def text : Expr Indenter :=
  scan (.pattern Token.wordOrChar)

/-! ## Shapes -/

/-- The introducing line of a heredoc up to its newline. A second heredoc
start on the line is text. -/
def heredocHead : Expr Indenter :=
  .sequence [Sym.lead.ref, Sym.heredocStart.ref, Sym.heredocLabel.ref,
    Sym.rest.ref, .optional (.label "opener" Sym.anyTail.ref)]

def body : LineShape → Expr Indenter
  | .indentOpen =>
    .sequence [keywords indentKeywords, Sym.rest.ref, Sym.eol.ref]
  | .outdent =>
    .sequence [keyword outdentKeyword, Sym.rest.ref, Sym.eol.ref]
  | .dual => .sequence [keywords dualKeywords, Sym.rest.ref, Sym.eol.ref]
  | .bracketSameLine =>
    .sequence [
      .choice [.sequence [.literal "[", .pattern Token.bracketEnd],
        .sequence [.literal "\x7b", .pattern Token.braceEnd]],
      Sym.rest.ref, Sym.eol.ref]
  | .bracketOpen =>
    .sequence [.choice [.literal "[", .literal "\x7b"], Sym.rest.ref,
      Sym.eol.ref]
  | .bracketClose =>
    .sequence [.choice [.literal "]", .literal "\x7d"], Sym.rest.ref,
      Sym.eol.ref]
  | .blockOpener =>
    .sequence [Sym.lead.ref, Sym.blockTail.ref, Sym.eol.ref]
  | .bracketTail =>
    .sequence [Sym.lead.ref, Sym.bracketTail.ref, Sym.eol.ref]
  | .heredocIntro =>
    .sequence [.label "head" heredocHead, Sym.eol.ref,
      .label "body" Sym.heredocBody.ref, Literal.closing, Sym.eol.ref]
  | .plain => .sequence [Sym.text.ref, Sym.eol.ref]

/-- Writes a heredoc. If its introducing line ends with an opener, the block
opens after the terminator. -/
def emitHeredoc : Action Indenter := fun caps => do
  let head := (caps.get? "head").getD ""
  let body := (caps.get? "body").getD ""
  let terminator ← modifyGet Indenter.releaseLabel
  let written ← modifyGet
    (Indenter.emitHeredoc head body (terminator.getD ""))
  if (caps.get? "opener").isSome then modify Indenter.openLevel
  return written

def action : LineShape → Action Indenter
  | .indentOpen | .bracketOpen | .blockOpener | .bracketTail =>
    fun caps => modifyGet (Indenter.emitOpen caps.text)
  | .outdent | .bracketClose =>
    fun caps => modifyGet (Indenter.emitClose caps.text)
  | .dual => fun caps => modifyGet (Indenter.emitDual caps.text)
  | .bracketSameLine | .plain =>
    fun caps => modifyGet (Indenter.emitSame caps.text)
  | .heredocIntro => emitHeredoc

def line : Expr Indenter :=
  .choice (LineShape.all.map fun s => (Sym.shape s).ref)

end Line

end RubyIndent.Ruby
