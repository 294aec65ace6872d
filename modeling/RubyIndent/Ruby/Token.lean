import RubyIndent.Pattern.Parser

/-!
# Keywords and tokens

The words that a line's shape depends on, and the patterns of the grammar.
Each pattern is given with the text that it is written as; `reads_tokens` says
that the two agree.
-/

namespace RubyIndent.Ruby

open RubyIndent.Pattern (Regex CharSet)

/-- Keywords that open a block when a line starts with them. -/
def indentKeywords : List String :=
  ["module", "class", "if", "until", "for", "unless", "while", "begin", "case",
    "then", "rescue", "def", "do"]

def outdentKeyword : String := "end"

/-- Keywords that stand between two parts of a block. -/
def dualKeywords : List String :=
  ["rescue", "ensure", "elsif", "else", "when"]

namespace Token

def only (c : Char) : Char × Char := (c, c)

def oneOf (ranges : List (Char × Char)) : Regex :=
  .one ⟨ranges, false⟩

def noneOf (ranges : List (Char × Char)) : Regex :=
  .one ⟨ranges, true⟩

def char (c : Char) : Regex :=
  .one (.single c)

/-- A character that continues a word, so that a keyword before it is none. -/
def identChar : Pattern where
  source := "[A-Za-z0-9_?!]"
  regex := oneOf [('A', 'Z'), ('a', 'z'), ('0', '9'), only '_', only '?',
    only '!']

/-- A whole word, or one other character that does not start a literal. -/
def wordOrChar : Pattern where
  source := "[A-Za-z0-9_]+|[^\\n\"']"
  regex := .alt
    (.plus .greedy
      (oneOf [('A', 'Z'), ('a', 'z'), ('0', '9'), only '_']))
    (noneOf [only '\n', only '\"', only '\''])

/-- A backslash and what it escapes on the same line. -/
def escape : Pattern where
  source := "\\\\[^\\n]"
  regex := .seq (char '\\') (noneOf [only '\n'])

def dqEscape : Pattern where
  source := "(?s)\\\\."
  regex := .seq (char '\\') (.one .any)

def comment : Pattern where
  source := "#[^\\n]*"
  regex := .seq (char '#') (.star .greedy (noneOf [only '\n']))

def doBlock : Pattern where
  source := "do(?:[ \\t]*\\|[^|\\n]+\\|)?"
  regex := .seq (char 'd') (.seq (char 'o') (.opt .greedy
    (.seq (.star .greedy (oneOf [only ' ', only '\t']))
      (.seq (char '|')
        (.seq (.plus .greedy (noneOf [only '|', only '\n'])) (char '|'))))))

def braceBlock : Pattern where
  source := "\\\x7b[ \\t]*\\|[^|\\n]+\\|"
  regex := .seq (char '\x7b')
    (.seq (.star .greedy (oneOf [only ' ', only '\t']))
      (.seq (char '|')
        (.seq (.plus .greedy (noneOf [only '|', only '\n'])) (char '|'))))

def openBracket : Pattern where
  source := "[\\[\x7b]"
  regex := oneOf [only '[', only '\x7b']

/-- Up to the last `]` that comes before any `[` on the line. -/
def bracketEnd : Pattern where
  source := "[^\\[\\n]*\\]"
  regex := .seq (.star .greedy (noneOf [only '[', only '\n'])) (char ']')

/-- Up to the last closing brace that comes before any opening one on the
line. -/
def braceEnd : Pattern where
  source := "[^\x7b\\n]*\\\x7d"
  regex := .seq (.star .greedy (noneOf [only '\x7b', only '\n'])) (char '\x7d')

def sqBody : Pattern where
  source := "(?s)(?:[^'\\\\]|\\\\.)*"
  regex := .star .greedy
    (.alt (noneOf [only '\'', only '\\']) (.seq (char '\\') (.one .any)))

def dqRun : Pattern where
  source := "[^\"\\\\#]+"
  regex := .plus .greedy (noneOf [only '\"', only '\\', only '#'])

def interpRun : Pattern where
  source := "[^\x7b\x7d'\"\\\\]+"
  regex := .plus .greedy
    (noneOf [only '\x7b', only '\x7d', only '\'', only '\"', only '\\'])

/-- A quote, backslash or brace in an interpolation that belongs to nothing. -/
def interpStray : Pattern where
  source := "['\"\\\\\x7b]"
  regex := oneOf [only '\'', only '\"', only '\\', only '\x7b']

def heredocStart : Pattern where
  source := "<<[-~]?"
  regex := .seq (char '<')
    (.seq (char '<') (.opt .greedy (oneOf [only '-', only '~'])))

def heredocLabel : Pattern where
  source := "[A-Z][A-Z0-9_]*"
  regex := .seq (oneOf [('A', 'Z')])
    (.star .greedy (oneOf [('A', 'Z'), ('0', '9'), only '_']))

/-- The start of a heredoc together with the first letter of its label. -/
def heredocAhead : Pattern where
  source := "<<[-~]?[A-Z]"
  regex := .seq (char '<')
    (.seq (char '<')
      (.seq (.opt .greedy (oneOf [only '-', only '~'])) (oneOf [('A', 'Z')])))

def physicalLine : Pattern where
  source := "[^\\n]*"
  regex := .star .greedy (noneOf [only '\n'])

def anyChar : Pattern where
  source := "(?s)."
  regex := .one .any

end Token

open Token in
def tokens : List Pattern :=
  [identChar, wordOrChar, escape, dqEscape, comment, doBlock, braceBlock,
    openBracket, bracketEnd, braceEnd, sqBody, dqRun, interpRun, interpStray,
    heredocStart, heredocLabel, heredocAhead, physicalLine, anyChar]

/-- Every pattern is the one that its text describes. -/
theorem reads_tokens : ∀ p ∈ tokens, Pattern.ofSource? p.source = some p := by
  decide +kernel

end RubyIndent.Ruby
