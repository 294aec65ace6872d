import RubyIndent.Text.Quoted
import RubyIndent.Text.Size
import RubyIndent.Text.Utf8

/-!
# Configuration

What can be chosen about the indentation: the text of one level, and whether
lines are indented at all. Only spaces and tabs, and not too many of them, make
a valid level; the check is separate, because settings from several places are
put together before the result is looked at.
-/

namespace RubyIndent

open RubyIndent.Text

/-- What the program has no answer to: it ends a run at once. -/
inductive Fault where
  /-- A text was to be made that would be longer than any text can be. -/
  | capacityOverflow
  deriving DecidableEq, Repr

def Fault.message : Fault → String
  | .capacityOverflow => "capacity overflow"

structure Config where
  /-- The indentation of one level. -/
  indentUnit : String := "  "
  /-- If not set, documents are copied as they are. -/
  imposeIndent : Bool := true
  deriving DecidableEq, Repr

namespace Config

def maxUnitLength : Nat := 16

inductive Problem where
  | empty
  | notBlank (unit : String)
  | tooLong (length : Nat)
  deriving DecidableEq, Repr

def Problem.message : Problem → String
  | .empty => "indent_unit must not be empty"
  | .notBlank unit =>
    "indent_unit " ++ quote unit ++ " may only contain spaces and tabs"
  | .tooLong length =>
    s!"indent_unit length {length} exceeds maximum of {maxUnitLength}"

def problem? (c : Config) : Option Problem :=
  let unit := c.indentUnit.toList
  if unit.isEmpty then some .empty
  else if unit.any fun ch => ch ≠ ' ' ∧ ch ≠ '\t' then
    some (.notBlank c.indentUnit)
  else if byteLength unit > maxUnitLength then some (.tooLong (byteLength unit))
  else none

def withWidth (width : Nat) (c : Config) : Config :=
  { c with indentUnit := String.ofList (List.replicate width ' ') }

/-- The text of a level is made before anyone looks at it, and a number that is
too great for a text is a fault. -/
def setWidth (width : Nat) (c : Config) : Except Fault Config :=
  if width ≤ maxLength then .ok (c.withWidth width)
  else .error .capacityOverflow

def withTabs (c : Config) : Config :=
  { c with indentUnit := "\t" }

def withUnit (unit : String) (c : Config) : Config :=
  { c with indentUnit := unit }

def withImposeIndent (impose : Bool) (c : Config) : Config :=
  { c with imposeIndent := impose }

end Config

end RubyIndent
