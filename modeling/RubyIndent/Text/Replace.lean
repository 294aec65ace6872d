/-!
# Replacing a part of a text

Occurrences are replaced from left to right, and the text put in place of one
is not searched again.
-/

namespace RubyIndent.Text

/-- Replaces every occurrence of a non-empty text. -/
def replaceAll (old new : List Char) (s : List Char) : List Char :=
  match s with
  | [] => []
  | c :: t =>
    if old.isPrefixOf (c :: t) then
      new ++ replaceAll old new (t.drop (old.length - 1))
    else c :: replaceAll old new t
termination_by s.length
decreasing_by all_goals simp only [List.length_cons, List.length_drop]; omega

end RubyIndent.Text
