/-!
# Blanks

The characters with the Unicode property White_Space, and what is done with
them: trimming a text and cutting it into words.
-/

namespace RubyIndent.Text

/-- The code points with the property White_Space, as ranges with both
ends. -/
def blankRanges : List (Nat × Nat) :=
  [(0x9, 0xd), (0x20, 0x20), (0x85, 0x85), (0xa0, 0xa0), (0x1680, 0x1680),
    (0x2000, 0x200a), (0x2028, 0x2029), (0x202f, 0x202f), (0x205f, 0x205f),
    (0x3000, 0x3000)]

def isBlank (c : Char) : Bool :=
  blankRanges.any fun r => r.1 ≤ c.toNat && c.toNat ≤ r.2

def trimStart (s : List Char) : List Char :=
  s.dropWhile isBlank

def trim (s : List Char) : List Char :=
  (trimStart (trimStart s).reverse).reverse

/-- The words of a text: its longest stretches without blanks. -/
def words (s : List Char) : List (List Char) :=
  match h : trimStart s with
  | [] => []
  | c :: t =>
    have : (t.dropWhile (!isBlank ·)).length < s.length := by
      have h₁ : (trimStart s).length ≤ s.length :=
        (List.dropWhile_sublist _).length_le
      have h₂ : (t.dropWhile (!isBlank ·)).length ≤ t.length :=
        (List.dropWhile_sublist _).length_le
      rw [h, List.length_cons] at h₁
      omega
    (c :: t.takeWhile (!isBlank ·)) :: words (t.dropWhile (!isBlank ·))
termination_by s.length

end RubyIndent.Text
