/-!
# Physical lines

A physical line ends with its newline; only the last line of a text may lack
one. The same cut serves characters and bytes.
-/

namespace RubyIndent.Text

variable {α : Type} [BEq α]

/-- The lines of `s`, each with its newline. They make up `s`, and none is
empty. -/
def splitLines (newline : α) (s : List α) : List (List α) :=
  match s with
  | [] => []
  | c :: t =>
    let line := (c :: t).takeWhile (· != newline)
    match h : (c :: t).dropWhile (· != newline) with
    | [] => [line]
    | d :: rest =>
      have : rest.length < (c :: t).length := by
        have hle : ((c :: t).dropWhile (· != newline)).length ≤ (c :: t).length :=
          (List.dropWhile_sublist _).length_le
        rw [h] at hle
        simp only [List.length_cons] at hle ⊢
        omega
      (line ++ [d]) :: splitLines newline rest
termination_by s.length
decreasing_by simp only [List.length_cons] at *; omega

/-- A line without its line end: the newline and, before it, one carriage
return. A carriage return without a newline belongs to the line. -/
def stripLineEnd (line : List Char) : List Char :=
  match line.reverse with
  | '\n' :: '\r' :: r => r.reverse
  | '\n' :: r => r.reverse
  | _ => line

def lineTexts (s : String) : List String :=
  (splitLines '\n' s.toList).map fun l => String.ofList (stripLineEnd l)

end RubyIndent.Text
