import RubyIndent.Text.Lines

/-!
# Changed lines

Reindenting keeps the number of lines, so an old and a new document are
compared line by line, by number. Where one of the two has no line of some
number, it is taken to be empty.
-/

namespace RubyIndent

open RubyIndent.Text

/-- A line that differs, with its number counted from one. -/
structure LineChange where
  line : Nat
  before : String
  after : String
  deriving DecidableEq, Repr

namespace LineChange

/-- Lines of the same number, as far as either document goes. -/
def pairLines : List String → List String → List (String × String)
  | [], [] => []
  | b :: bs, [] => (b, "") :: pairLines bs []
  | [], a :: as => ("", a) :: pairLines [] as
  | b :: bs, a :: as => (b, a) :: pairLines bs as

/-- The pairs that differ, where the first pair has the given number. -/
def differing : Nat → List (String × String) → List LineChange
  | _, [] => []
  | n, (b, a) :: rest =>
    if b = a then differing (n + 1) rest
    else ⟨n, b, a⟩ :: differing (n + 1) rest

end LineChange

def changedLines (before after : String) : List LineChange :=
  LineChange.differing 1
    (LineChange.pairLines (lineTexts before) (lineTexts after))

end RubyIndent
