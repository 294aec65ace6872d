import RubyIndent.Peg.Expr

/-!
# Grammars

A grammar is a list of named rules, numbered from zero. It is put together in
two steps, so that rules can refer to each other in any order: a `Builder`
first hands out a number for each declared name and then takes the bodies.
What goes wrong on the way is recorded and only reported at the end, where the
first mistake wins and a rule without a body comes last.
-/

namespace RubyIndent.Peg

variable {Ctx : Type}

/-- A named expression. With an action, the action's text is the value of the
rule; without one it is the value of the expression. -/
structure Rule (Ctx : Type) where
  name : String
  body : Expr Ctx
  action : Option (Action Ctx) := none

structure Grammar (Ctx : Type) where
  rules : Array (Rule Ctx)

namespace Grammar

def size (g : Grammar Ctx) : Nat :=
  g.rules.size

def isEmpty (g : Grammar Ctx) : Bool :=
  g.rules.isEmpty

def rule? (g : Grammar Ctx) (id : RuleId) : Option (Rule Ctx) :=
  g.rules[id]?

/-- The name of a rule; empty for a number that no rule has. -/
def name (g : Grammar Ctx) (id : RuleId) : String :=
  ((g.rule? id).map Rule.name).getD ""

def find? (g : Grammar Ctx) (name : String) : Option RuleId :=
  g.rules.findIdx? fun r => r.name == name

theorem lt_size_of_rule? {g : Grammar Ctx} {id : RuleId} {r : Rule Ctx}
    (h : g.rule? id = some r) : id < g.size := by
  obtain ⟨hlt, _⟩ := Array.getElem?_eq_some_iff.1 h
  exact hlt

end Grammar

inductive GrammarError where
  | duplicate (name : String)
  | undefined (name : String)
  | redefined (name : String)
  deriving DecidableEq, Repr

def GrammarError.message : GrammarError → String
  | .duplicate name => s!"rule '{name}' declared twice"
  | .undefined name => s!"rule '{name}' declared but never defined"
  | .redefined name => s!"rule '{name}' defined twice"

structure Declaration (Ctx : Type) where
  name : String
  definition : Option (Expr Ctx × Option (Action Ctx)) := none

/-- A grammar under construction: the declarations by number, and the mistakes
so far in the order in which they were made. -/
structure Builder (Ctx : Type) where
  declarations : Array (Declaration Ctx) := #[]
  errors : List GrammarError := []

namespace Builder

/-- Hands out the number for a name. A name declared before keeps its number,
and declaring it again is a mistake. -/
def declare (b : Builder Ctx) (name : String) : RuleId × Builder Ctx :=
  match b.declarations.findIdx? fun d => d.name == name with
  | some id => (id, { b with errors := b.errors ++ [.duplicate name] })
  | none =>
    (b.declarations.size,
      { b with declarations := b.declarations.push { name } })

/-- Gives a declared rule its body. A second body replaces the first and is a
mistake. -/
def define (b : Builder Ctx) (id : RuleId) (body : Expr Ctx)
    (action : Option (Action Ctx) := none) : Builder Ctx :=
  match b.declarations[id]? with
  | none => b
  | some d =>
    { declarations := b.declarations.setIfInBounds id
        { d with definition := some (body, action) }
      errors := if d.definition.isSome then b.errors ++ [.redefined d.name]
        else b.errors }

def add (b : Builder Ctx) (name : String) (body : Expr Ctx) :
    RuleId × Builder Ctx :=
  let (id, b) := b.declare name
  (id, b.define id body)

def finish (d : Declaration Ctx) : Except GrammarError (Rule Ctx) :=
  match d.definition with
  | some (body, action) => .ok { name := d.name, body, action }
  | none => .error (.undefined d.name)

def build (b : Builder Ctx) : Except GrammarError (Grammar Ctx) :=
  match b.errors with
  | e :: _ => .error e
  | [] => (b.declarations.mapM finish).map Grammar.mk

end Builder

end RubyIndent.Peg
