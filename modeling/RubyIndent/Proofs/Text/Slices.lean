import RubyIndent.Text.Cursor
import RubyIndent.Text.Position

/-!
# Slices of a text by byte offsets

A place is reported as a count of bytes, and a part of a text can be asked for
by two such counts. Most counts are no good for that: `slice?` refuses one that
points into a character or beyond the end, and a pair in the wrong order. The
offset of a cursor is never of the first two kinds (`isBoundary_offset`), so a
slice between two cursors is refused only if they are in the wrong order
(`slice?_offset`).
-/

namespace RubyIndent.Text

/-- A character starts at this byte offset, or the text ends there. -/
def IsBoundary (s : List Char) (n : Nat) : Prop :=
  ∃ t, t <+: s ∧ byteLength t = n

theorem IsBoundary.le {s : List Char} {n : Nat} (h : IsBoundary s n) :
    n ≤ byteLength s := by
  obtain ⟨t, ⟨r, rfl⟩, rfl⟩ := h
  simp

/-- The text before a byte offset and the text behind it, if the offset is a
boundary. -/
def cutAt? (s : List Char) (n : Nat) : Option (List Char × List Char) :=
  if byteLength (splitAtOffset s n).1 = n then some (splitAtOffset s n) else none

/-- The text between two byte offsets, if both are boundaries and in order. -/
def slice? (s : List Char) (start stop : Nat) : Option (List Char) :=
  if start ≤ stop then
    (cutAt? s start).bind fun p => (cutAt? p.2 (stop - start)).map Prod.fst
  else none

theorem splitAtOffset_append (s t : List Char) :
    splitAtOffset (s ++ t) (byteLength s) = (s, t) := by
  induction s with
  | nil =>
    cases t with
    | nil => rfl
    | cons c t =>
      have hc := c.utf8Size_pos
      simp only [List.nil_append, byteLength_nil, splitAtOffset]
      rw [if_neg (by omega)]
  | cons c s ih =>
    simp only [List.cons_append, byteLength_cons, splitAtOffset]
    rw [if_pos (Nat.le_add_right _ _), Nat.add_sub_cancel_left, ih]

theorem cutAt?_append (s t : List Char) :
    cutAt? (s ++ t) (byteLength s) = some (s, t) := by
  simp [cutAt?, splitAtOffset_append]

theorem slice?_append (r s t : List Char) :
    slice? (r ++ (s ++ t)) (byteLength r) (byteLength r + byteLength s)
      = some s := by
  simp [slice?, cutAt?_append]

theorem byteLength_pos {s : List Char} (h : s ≠ []) : 0 < byteLength s := by
  obtain ⟨c, t, rfl⟩ := List.exists_cons_of_ne_nil h
  have hc := c.utf8Size_pos
  rw [byteLength_cons]
  omega

namespace Cursor

variable {text : List Char}

theorem take_append_rest (c : Cursor text) :
    text.take c.index ++ c.rest = text := by
  rw [c.rest_eq, List.take_append_drop]

theorem isBoundary_offset (c : Cursor text) : IsBoundary text c.offset :=
  ⟨_, List.take_prefix c.index text, rfl⟩

/-- The text up to a place, in two parts. -/
theorem take_append_upTo {c d : Cursor text} (h : c.index ≤ d.index) :
    text.take c.index ++ c.upTo d = text.take d.index := by
  rw [upTo, c.rest_eq, ← List.take_add, Nat.add_sub_cancel' h]

theorem offset_add_byteLength_upTo {c d : Cursor text} (h : c.index ≤ d.index) :
    c.offset + byteLength (c.upTo d) = d.offset := by
  simp [offset, ← take_append_upTo h]

theorem offset_le_offset_iff {c d : Cursor text} :
    c.offset ≤ d.offset ↔ c.index ≤ d.index := by
  constructor
  · intro h
    refine Nat.le_of_not_lt fun hlt => ?_
    have hadd := offset_add_byteLength_upTo (Nat.le_of_lt hlt)
    have hne : d.upTo c ≠ [] := by
      have hd := d.index_add_length_rest
      have hc := c.index_le
      refine List.ne_nil_of_length_pos ?_
      simp only [upTo, List.length_take]
      omega
    have hpos := byteLength_pos hne
    omega
  · intro h
    have hadd := offset_add_byteLength_upTo h
    omega

theorem offset_lt_offset_iff {c d : Cursor text} :
    c.offset < d.offset ↔ c.index < d.index := by
  rw [← Nat.not_le, offset_le_offset_iff, Nat.not_le]

/-- Between two cursors a text can be sliced unless they are in the wrong
order. -/
theorem slice?_offset (c d : Cursor text) :
    slice? text c.offset d.offset
      = if c.index ≤ d.index then some (c.upTo d) else none := by
  split
  · rename_i h
    have htext : text.take c.index ++ (c.upTo d ++ d.rest) = text := by
      rw [← List.append_assoc, take_append_upTo h, take_append_rest]
    have hslice := slice?_append (text.take c.index) (c.upTo d) d.rest
    rw [htext] at hslice
    rw [← offset_add_byteLength_upTo h]
    exact hslice
  · rename_i h
    exact if_neg (mt offset_le_offset_iff.1 h)

/-- From a cursor on, a text can always be sliced. -/
theorem slice?_offset_end (c : Cursor text) :
    slice? text c.offset (byteLength text) = some c.rest := by
  have hslice := slice?_append (text.take c.index) c.rest []
  rw [List.append_nil, take_append_rest, ← byteLength_append,
    take_append_rest] at hslice
  exact hslice

end Cursor

end RubyIndent.Text
