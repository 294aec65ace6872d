import RubyIndent.Diagnostic
import RubyIndent.Peg.Eval

/-!
# Parsing

A parse applies a rule and requires that it takes the whole text. If it does
not, the furthest failure explains why.
-/

namespace RubyIndent.Peg

open RubyIndent.Text

variable {Ctx : Type} {text : List Char}

namespace State

def failure? (g : Grammar Ctx) (s : State Ctx text) : Option Diagnostic :=
  s.furthest.map fun (id, place) => .atOffset text (g.name id) place.offset

/-- The diagnostic for the furthest failure; without one, a rule with the
given name is said to fail at the cursor. -/
def explain (g : Grammar Ctx) (name : String) (s : State Ctx text) :
    Diagnostic :=
  (s.failure? g).getD (.atOffset text name s.cursor.offset)

def parse (g : Grammar Ctx) (root : RuleId) (s : State Ctx text) :
    Except Diagnostic (Value (Cursor text)) × State Ctx text :=
  let r := s.apply g root
  match r.value with
  | some v =>
    if r.state.atEnd then (.ok v, r.state)
    else (.error (r.state.explain g (g.name root)), r.state)
  | none => (.error (r.state.explain g (g.name root)), r.state)

end State

end RubyIndent.Peg
