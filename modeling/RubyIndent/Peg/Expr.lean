import RubyIndent.Pattern.Parser
import RubyIndent.Peg.Memo

/-!
# Parsing expressions

The expressions of a parsing-expression grammar. An expression refers to a
rule by the rule's number, which keeps expressions finite trees however
recursive the grammar is.

Two kinds of expression look beyond the text. A label binds what its inner
expression matched for the enclosing rule, and a predicate decides on those
bindings and on a context that the actions of rules may change. Both see the
bindings as `Captures`.
-/

namespace RubyIndent.Peg

open RubyIndent.Text

def Value.toString {text : List Char} : Value (Cursor text) → String
  | .span start stop => String.ofList (start.upTo stop)
  | .text s => s

/-- Names bound to values, the latest binding first. -/
abbrev Labels (text : List Char) := List (String × Value (Cursor text))

/-- What an action or a predicate sees of the rule that it belongs to: the
part of the input matched so far and the names bound in it. -/
structure Captures where
  input : List Char
  start : Cursor input
  stop : Cursor input
  labels : Labels input

namespace Captures

def text (caps : Captures) : String :=
  String.ofList (caps.start.upTo caps.stop)

/-- The text of the latest value bound to a name. -/
def get? (caps : Captures) (name : String) : Option String :=
  (caps.labels.lookup name).map Value.toString

end Captures

/-- Computes the text that a matched rule stands for, and may change the
context. -/
abbrev Action (Ctx : Type) := Captures → StateM Ctx String

abbrev Predicate (Ctx : Type) := Captures → Ctx → Bool

inductive Expr (Ctx : Type) where
  | literal (s : String)
  /-- The preferred match of a pattern. -/
  | pattern (p : Pattern)
  /-- All items in a row, or nothing at all. -/
  | sequence (items : List (Expr Ctx))
  /-- The first item that matches. -/
  | choice (items : List (Expr Ctx))
  /-- As many rounds as match, ending with a round that takes no text. -/
  | many (inner : Expr Ctx)
  | optional (inner : Expr Ctx)
  /-- Matches no text, where the inner expression does not match. -/
  | not (inner : Expr Ctx)
  /-- Matches no text, where the condition holds. -/
  | predicate (check : Predicate Ctx)
  /-- Binds what the inner expression matched. -/
  | label (name : String) (inner : Expr Ctx)
  | rule (id : RuleId)

/-- Matches no text, where the inner expression matches. -/
def Expr.and {Ctx : Type} (inner : Expr Ctx) : Expr Ctx :=
  .not (.not inner)

end RubyIndent.Peg
