import RubyIndent.Peg.Parse
import RubyIndent.Ruby.Line

/-!
# The line grammar

The rules of all symbols as one grammar, and the shape of a single line.
-/

namespace RubyIndent.Ruby

open RubyIndent.Peg

def Sym.body : Sym → Expr Indenter
  | .spacing => .many (.choice [.literal " ", .literal "\t"])
  | .eol => .literal "\n"
  | .eof => .not (.pattern Token.anyChar)
  | .comment => .pattern Token.comment
  | .sqString => Literal.sqString
  | .dqString => Literal.dqString
  | .interpPart => Literal.interpPart
  | .braceGroup => Literal.braceGroup
  | .interpolation => Literal.interpolation
  | .dqPart => Literal.dqPart
  | .heredocStart => Literal.heredocStart
  | .heredocLabel => Literal.heredocLabel
  | .heredocTerminator => Literal.heredocTerminator
  | .physicalLine => Literal.physicalLine
  | .heredocBody => Literal.heredocBody
  | .blockOpener => Line.blockOpener
  | .blockTail => Line.blockTail
  | .bracketTail => Line.bracketTail
  | .anyTail => Line.anyTail
  | .leadStop => Line.leadStop
  | .rest => Line.rest
  | .lead => Line.lead
  | .text => Line.text
  | .shape s => Line.body s
  | .line => Line.line

def Sym.action : Sym → Option (Action Indenter)
  | .heredocLabel => some Literal.rememberLabel
  | .shape s => some (Line.action s)
  | _ => none

def Sym.rule (s : Sym) : Rule Indenter where
  name := s.name
  body := s.body
  action := s.action

def grammar : Grammar Indenter where
  rules := (Sym.all.map Sym.rule).toArray

theorem grammar_rule? (s : Sym) : grammar.rule? s.id = some s.rule := by
  simp only [Grammar.rule?, grammar, List.getElem?_toArray, List.getElem?_map,
    s.all_id, Option.map_some]

/-- The first of some shapes whose rule matches at the cursor, each being tried
with what is known from the ones before. -/
def firstShape? {text : List Char} :
    List LineShape → State Indenter text → Option LineShape
  | [], _ => none
  | s :: shapes, state =>
    let r := state.apply grammar (Sym.shape s).id
    if r.matched then some s else firstShape? shapes r.state

def classify (input : String) : Option LineShape :=
  let spaced := (State.start input.toList {}).apply grammar Sym.spacing.id
  if spaced.matched then firstShape? LineShape.all spaced.state else none

end RubyIndent.Ruby
