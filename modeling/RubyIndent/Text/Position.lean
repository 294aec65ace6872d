/-!
# Lines and columns

A place is reported to people as a line and a column, both counted from one,
columns in characters. Places come in as byte offsets and need not be good
ones: an offset beyond the end means the end, and an offset inside a character
means the place before that character.
-/

namespace RubyIndent.Text

/-- Splits a text at the last place that is not beyond a byte offset. -/
def splitAtOffset : List Char → Nat → List Char × List Char
  | [], _ => ([], [])
  | c :: s, n =>
    if c.utf8Size ≤ n then
      let (before, after) := splitAtOffset s (n - c.utf8Size)
      (c :: before, after)
    else ([], c :: s)

/-- What stands after the last newline. -/
def lastLine (s : List Char) : List Char :=
  (s.reverse.takeWhile (· ≠ '\n')).reverse

def lineAt (s : List Char) (offset : Nat) : Nat :=
  (splitAtOffset s offset).1.count '\n' + 1

def columnAt (s : List Char) (offset : Nat) : Nat :=
  (lastLine (splitAtOffset s offset).1).length + 1

def lineTextAt (s : List Char) (offset : Nat) : List Char :=
  let (before, after) := splitAtOffset s offset
  lastLine before ++ after.takeWhile (· ≠ '\n')

end RubyIndent.Text
