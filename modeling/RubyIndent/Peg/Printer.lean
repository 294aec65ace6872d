import RubyIndent.Peg.Grammar
import RubyIndent.Text.Quoted
import RubyIndent.Text.Replace

/-!
# Showing grammars

An expression is shown with its rule references as numbers in angle brackets.
A rule is shown as its name and its expression, and there each reference is
replaced by the name of the rule. The replacement works on the text: numbers
with more digits go first, and whatever looks like a reference counts as one.
-/

namespace RubyIndent.Peg

open RubyIndent.Text

variable {Ctx : Type}

def renderReference (id : RuleId) : String :=
  "<" ++ toString id ++ ">"

mutual

def Expr.render : Expr Ctx → String
  | .literal s => quote s
  | .pattern p => "/" ++ p.source ++ "/"
  | .sequence items => "(" ++ " ".intercalate (renderEach items) ++ ")"
  | .choice items => "(" ++ " | ".intercalate (renderEach items) ++ ")"
  | .many inner => inner.render ++ "*"
  | .optional inner => inner.render ++ "?"
  | .not inner => "!" ++ inner.render
  | .predicate _ => "&\x7b .. \x7d"
  | .label name inner => inner.render ++ ":" ++ name
  | .rule id => renderReference id

def renderEach : List (Expr Ctx) → List String
  | [] => []
  | e :: es => e.render :: renderEach es

end

/-- Puts a number before the first one that does not have more digits. -/
def insertByDigits (id : RuleId) : List RuleId → List RuleId
  | [] => [id]
  | other :: ids =>
    if (toString other).length ≤ (toString id).length then id :: other :: ids
    else other :: insertByDigits id ids

/-- All rule numbers, those with more digits first and otherwise in order. -/
def Grammar.idsByDigits (g : Grammar Ctx) : List RuleId :=
  (List.range g.size).foldr insertByDigits []

def Grammar.render (g : Grammar Ctx) (id : RuleId) : String :=
  match g.rule? id with
  | none => ""
  | some r =>
    let body := g.idsByDigits.foldl
      (fun s other =>
        replaceAll (renderReference other).toList (g.name other).toList s)
      r.body.render.toList
    r.name ++ " = " ++ String.ofList body

end RubyIndent.Peg
