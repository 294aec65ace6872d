import RubyIndent.Text.Utf8

/-!
# Cursors

A cursor is a place between two characters of a fixed text. It keeps the
characters that are still to come beside their index, so that reading on is
one pattern match and comparing two places is one comparison of numbers. The
index determines everything else: two cursors of a text with the same index
are equal (`Cursor.ext_index`), which is what lets a table be keyed by places.

Indices count characters. `Cursor.offset` gives the same place as a count of
bytes of the text's UTF-8 form, the unit in which places are reported.
-/

namespace RubyIndent.Text

/-- A place in `text`: how many characters stand before it, and those that
stand after it. -/
structure Cursor (text : List Char) where
  index : Nat
  rest : List Char
  rest_eq : rest = text.drop index
  index_le : index ≤ text.length

namespace Cursor

variable {text : List Char}

/-- The index alone determines the place. -/
theorem ext_index {c d : Cursor text} (h : c.index = d.index) : c = d := by
  obtain ⟨i, r, hr, _⟩ := c
  obtain ⟨j, q, hq, _⟩ := d
  simp only at h
  subst h hr hq
  rfl

/-- What stands before a place and what stands after it make up the text. -/
theorem index_add_length_rest (c : Cursor text) :
    c.index + c.rest.length = text.length := by
  have h := c.index_le
  rw [c.rest_eq, List.length_drop]
  omega

/-- Further right means that less is left. -/
theorem length_rest_lt {c d : Cursor text} (h : c.index < d.index) :
    d.rest.length < c.rest.length := by
  have hc := c.index_add_length_rest
  have hd := d.index_add_length_rest
  omega

def first (text : List Char) : Cursor text :=
  ⟨0, text, rfl, Nat.zero_le _⟩

def ofIndex (i : Fin (text.length + 1)) : Cursor text :=
  ⟨i.val, text.drop i.val, rfl, Nat.le_of_lt_succ i.isLt⟩

theorem tail_eq_drop {ch : Char} {r : List Char} {i : Nat}
    (h : ch :: r = text.drop i) : r = text.drop (i + 1) := by
  rw [← List.tail_drop, ← h, List.tail_cons]

theorem succ_le_length {ch : Char} {r : List Char} {i : Nat}
    (h : ch :: r = text.drop i) : i + 1 ≤ text.length := by
  have hlen := congrArg List.length h
  rw [List.length_cons, List.length_drop] at hlen
  omega

/-- The character to the right and the place after it, or nothing at the end
of the text. -/
def next? : Cursor text → Option (Char × Cursor text)
  | ⟨_, [], _, _⟩ => none
  | ⟨i, ch :: r, h, _⟩ => some (ch, ⟨i + 1, r, tail_eq_drop h, succ_le_length h⟩)

/-- The place `n` characters further on, or the end if there are fewer. -/
def skip : Nat → Cursor text → Cursor text
  | 0, c => c
  | n + 1, c =>
    match c.next? with
    | none => c
    | some (_, d) => d.skip n

def atEnd (c : Cursor text) : Bool :=
  c.rest.isEmpty

/-- The number of bytes to the left, in UTF-8. -/
def offset (c : Cursor text) : Nat :=
  byteLength (text.take c.index)

/-- The characters from `c` up to `d`; none if `d` does not lie to the right
of `c`. -/
def upTo (c d : Cursor text) : List Char :=
  c.rest.take (d.index - c.index)

def all (text : List Char) : List (Cursor text) :=
  (List.finRange (text.length + 1)).map ofIndex

theorem mem_all (c : Cursor text) : c ∈ all text := by
  have h : c.index < text.length + 1 := Nat.lt_succ_of_le c.index_le
  exact List.mem_map.2 ⟨⟨c.index, h⟩, List.mem_finRange _, ext_index rfl⟩

instance : Ord (Cursor text) where
  compare c d := compare c.index d.index

instance : Std.TransOrd (Cursor text) where
  eq_swap {c d} := Std.OrientedOrd.eq_swap (a := c.index) (b := d.index)
  isLE_trans {a b c} h₁ h₂ :=
    Std.TransOrd.isLE_trans (a := a.index) (b := b.index) (c := c.index) h₁ h₂

instance : Std.LawfulEqOrd (Cursor text) where
  eq_of_compare {_ _} h := ext_index (Std.LawfulEqOrd.eq_of_compare h)
  compare_self {c} := Std.ReflOrd.compare_self (a := c.index)

end Cursor

end RubyIndent.Text
