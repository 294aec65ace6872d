import Mathlib.Algebra.GroupWithZero.Nat
import Mathlib.Data.Prod.Lex
import Mathlib.Order.Bounds.Basic
import RubyIndent.Diagnostic
import RubyIndent.Proofs.Text.PhysicalLines
import RubyIndent.Proofs.Text.Slices

/-!
# Lines and columns are exact

A byte offset is moved back to the last boundary that it does not lie before
(`isGreatest_splitAtOffset`), and then told as a line and a column. What is told is
enough to find that boundary again: `placeOffset` counts the bytes of the lines above
and of the characters to the left. The two sides meet in the pieces between the
newlines: what stands before a boundary is as many whole pieces as it has newlines and
the start of one more (`getElem?_splitOn_append`, `byteLength_eq_placeOffset`).
-/

namespace RubyIndent.Text

/-! ## The boundary that an offset stands for -/

theorem splitAtOffset_append_eq (s : List Char) (n : Nat) :
    (splitAtOffset s n).1 ++ (splitAtOffset s n).2 = s := by
  fun_induction splitAtOffset s n with
  | case1 => rfl
  | case2 c s n h before after heq ih =>
    rw [heq] at ih
    simp [ih]
  | case3 => rfl

theorem byteLength_splitAtOffset_le (s : List Char) (n : Nat) :
    byteLength (splitAtOffset s n).1 ≤ n := by
  fun_induction splitAtOffset s n with
  | case1 => exact Nat.zero_le _
  | case2 c s n h before after heq ih =>
    rw [heq] at ih
    simp only [byteLength_cons] at ih ⊢
    omega
  | case3 => exact Nat.zero_le _

/-- Every text that stands at the front and reaches no further than the offset is
before the cut. -/
theorem prefix_splitAtOffset {s t : List Char} (ht : t <+: s) {n : Nat}
    (hn : byteLength t ≤ n) : t <+: (splitAtOffset s n).1 := by
  induction t generalizing s n with
  | nil => exact List.nil_prefix
  | cons c t ih =>
    obtain ⟨r, rfl⟩ := ht
    rw [byteLength_cons] at hn
    rw [List.cons_append, splitAtOffset, if_pos (by omega)]
    exact List.cons_prefix_cons.2 ⟨rfl, ih (List.prefix_append t r) (by omega)⟩

theorem splitAtOffset_front (s : List Char) (n : Nat) :
    (splitAtOffset s n).1 <+: s :=
  ⟨_, splitAtOffset_append_eq s n⟩

/-- A text is cut at the last boundary that is neither beyond the offset nor beyond the
end. -/
theorem isGreatest_splitAtOffset (s : List Char) (n : Nat) :
    IsGreatest {o | IsBoundary s o ∧ o ≤ min n (byteLength s)}
      (byteLength (splitAtOffset s n).1) := by
  have hbound : IsBoundary s (byteLength (splitAtOffset s n).1) :=
    ⟨_, splitAtOffset_front s n, rfl⟩
  constructor
  · exact ⟨hbound, Nat.le_min.2 ⟨byteLength_splitAtOffset_le s n, hbound.le⟩⟩
  · rintro o ⟨⟨t, ht, rfl⟩, ho⟩
    obtain ⟨r, hr⟩ := prefix_splitAtOffset ht (Nat.le_min.1 ho).1
    rw [← hr, byteLength_append]
    exact Nat.le_add_right _ _

/-- A larger offset is not cut further left. -/
theorem splitAtOffset_mono (s : List Char) {m n : Nat} (h : m ≤ n) :
    (splitAtOffset s m).1 <+: (splitAtOffset s n).1 :=
  prefix_splitAtOffset (splitAtOffset_front s m)
    (Nat.le_trans (byteLength_splitAtOffset_le s m) h)

/-! ## The last line of a text -/

theorem lastLine_of_not_mem {s : List Char} (h : '\n' ∉ s) : lastLine s = s := by
  have hall : ∀ c ∈ s.reverse, decide (c ≠ '\n') = true := by
    intro c hc
    refine decide_eq_true ?_
    rintro rfl
    exact h (List.mem_reverse.1 hc)
  rw [lastLine, List.takeWhile_eq_self_iff.2 hall, List.reverse_reverse]

theorem lastLine_newline (s t : List Char) :
    lastLine (s ++ '\n' :: t) = lastLine t := by
  unfold lastLine
  rw [List.reverse_append, List.reverse_cons, List.append_assoc,
    List.takeWhile_append]
  split
  · rename_i h
    rw [List.singleton_append, List.takeWhile_cons_of_neg (by simp), List.append_nil,
      (List.takeWhile_prefix _).eq_of_length h]
  · rfl

theorem lastLine_append {t : List Char} (h : '\n' ∉ t) (s : List Char) :
    lastLine (s ++ t) = lastLine s ++ t := by
  induction s using lines_induction '\n' with
  | last line hline =>
    have hboth : '\n' ∉ line ++ t := by
      rw [List.mem_append]
      exact not_or.2 ⟨hline, h⟩
    rw [lastLine_of_not_mem hboth, lastLine_of_not_mem hline]
  | cons line rest _ ih =>
    rw [List.append_assoc, List.cons_append, lastLine_newline, ih, lastLine_newline]

theorem newline_not_mem_lastLine (s : List Char) : '\n' ∉ lastLine s := by
  intro h
  have := List.mem_takeWhile_imp (List.mem_reverse.1 h)
  simp at this

/-! ## Pieces between newlines -/

theorem newline_not_mem_lineTextAt (s : List Char) (n : Nat) :
    '\n' ∉ lineTextAt s n := by
  intro h
  rcases List.mem_append.1 h with h | h
  · exact newline_not_mem_lastLine _ h
  · simpa using List.mem_takeWhile_imp h

theorem head?_splitOn (s : List Char) :
    (s.splitOn '\n').head? = some (s.takeWhile (· ≠ '\n')) := by
  induction s with
  | nil => rfl
  | cons c s ih =>
    rw [List.splitOn_cons_eq_if_modifyHead]
    by_cases hc : c = '\n'
    · simp [hc]
    · simp [hc, ih]

/-- The piece in which a place stands: what there is of it to the left and to the
right. -/
theorem getElem?_splitOn_append (before after : List Char) :
    ((before ++ after).splitOn '\n')[before.count '\n']?
      = some (lastLine before ++ after.takeWhile (· ≠ '\n')) := by
  induction before using lines_induction '\n' with
  | last line h =>
    have hall : ∀ c ∈ line, decide (c ≠ '\n') = true := by
      intro c hc
      refine decide_eq_true ?_
      rintro rfl
      exact h hc
    rw [List.count_eq_zero_of_not_mem h, ← List.head?_eq_getElem?, head?_splitOn,
      List.takeWhile_append_of_pos hall, lastLine_of_not_mem h]
  | cons line rest h ih =>
    rw [List.append_assoc, List.cons_append,
      List.splitOn_append_cons_self_of_not_mem h, List.count_append,
      List.count_eq_zero_of_not_mem h, List.count_cons_self, Nat.zero_add,
      List.getElem?_cons_succ, ih, lastLine_newline]

/-- The bytes of some pieces with their newlines. -/
def piecesLength (pieces : List (List Char)) : Nat :=
  (pieces.map fun p => byteLength p + 1).sum

/-- The offset at which a character stands, given its line and column: the bytes of
the lines above, and those of the characters to its left. -/
def placeOffset (s : List Char) (line column : Nat) : Nat :=
  piecesLength ((s.splitOn '\n').take (line - 1)) +
    byteLength (((s.splitOn '\n').getD (line - 1) []).take (column - 1))

theorem piecesLength_splitOn_append (before after : List Char) :
    piecesLength (((before ++ after).splitOn '\n').take (before.count '\n'))
      + byteLength (lastLine before) = byteLength before := by
  induction before using lines_induction '\n' with
  | last line h =>
    simp [List.count_eq_zero_of_not_mem h, lastLine_of_not_mem h, piecesLength]
  | cons line rest h ih =>
    have hnewline : '\n'.utf8Size = 1 := rfl
    rw [List.append_assoc, List.cons_append,
      List.splitOn_append_cons_self_of_not_mem h, List.count_append,
      List.count_eq_zero_of_not_mem h, List.count_cons_self, Nat.zero_add,
      List.take_succ_cons, lastLine_newline, byteLength_append, byteLength_cons,
      ← ih, hnewline]
    simp only [piecesLength, List.map_cons, List.sum_cons]
    omega

/-! ## Lines and columns of an offset -/

variable (s : List Char)

theorem getElem?_lineAt (n : Nat) :
    (s.splitOn '\n')[lineAt s n - 1]? = some (lineTextAt s n) := by
  have hpiece := getElem?_splitOn_append (splitAtOffset s n).1 (splitAtOffset s n).2
  rw [splitAtOffset_append_eq] at hpiece
  exact hpiece

theorem columnAt_le (n : Nat) : columnAt s n - 1 ≤ (lineTextAt s n).length := by
  simp [columnAt, lineTextAt]

/-- A line and a column tell the boundary that they are those of. -/
theorem byteLength_eq_placeOffset (n : Nat) :
    byteLength (splitAtOffset s n).1 = placeOffset s (lineAt s n) (columnAt s n) := by
  have hpieces := piecesLength_splitOn_append (splitAtOffset s n).1
    (splitAtOffset s n).2
  have hleft : (lineTextAt s n).take (columnAt s n - 1)
      = lastLine (splitAtOffset s n).1 := by
    simp [columnAt, lineTextAt]
  rw [splitAtOffset_append_eq] at hpieces
  rw [placeOffset, List.getD_eq_getElem?_getD, getElem?_lineAt, Option.getD_some,
    hleft, lineAt, Nat.add_sub_cancel, hpieces]

/-- Further right is on a later line, or on the same line and in no smaller column. -/
theorem monotone_lineAt_columnAt :
    Monotone fun n => toLex (lineAt s n, columnAt s n) := by
  intro m n h
  obtain ⟨t, ht⟩ := splitAtOffset_mono s h
  refine Prod.Lex.le_iff.2 ?_
  simp only [ofLex_toLex, lineAt, columnAt, ← ht, List.count_append]
  by_cases hmem : '\n' ∈ t
  · have hpos := List.count_pos_iff.2 hmem
    exact .inl (by omega)
  · refine .inr ⟨by simp [List.count_eq_zero_of_not_mem hmem], ?_⟩
    simp [lastLine_append hmem]

/-- The mark of a diagnostic stands below its line, behind one space for each
character to the left of the place. -/
theorem splitOn_caret (rule : String) (n : Nat) :
    (Diagnostic.atOffset s rule n).caret.toList.splitOn '\n'
      = [lineTextAt s n, List.replicate (columnAt s n - 1) ' ' ++ ['^']] := by
  have hbelow : '\n' ∉ List.replicate (columnAt s n - 1) ' ' ++ ['^'] := by
    simp [List.mem_replicate]
  have hcaret : (Diagnostic.atOffset s rule n).caret.toList
      = lineTextAt s n ++ '\n' :: (List.replicate (columnAt s n - 1) ' ' ++ ['^']) := by
    simp [Diagnostic.caret, Diagnostic.atOffset]
  rw [hcaret, List.splitOn_append_cons_self_of_not_mem
    (newline_not_mem_lineTextAt s n), List.splitOn_eq_singleton hbelow]

/-- Positions are exact. An offset, be it beyond the end or within a character, stands
for the last boundary that is not beyond it; its line is one more than the newlines
before that boundary, the line's text is the piece between newlines with that number,
the column does not lie beyond that text, and line and column tell the boundary. They
never go back when offsets grow, and a diagnostic has its mark below the line, in the
column. -/
theorem positions_are_exact (rule : String) :
    (∀ n, ∃ before after, s = before ++ after ∧
      IsGreatest {o | IsBoundary s o ∧ o ≤ min n (byteLength s)}
        (byteLength before) ∧
      lineAt s n = 1 + before.count '\n' ∧
      (s.splitOn '\n')[lineAt s n - 1]? = some (lineTextAt s n) ∧
      columnAt s n - 1 ≤ (lineTextAt s n).length ∧
      byteLength before = placeOffset s (lineAt s n) (columnAt s n) ∧
      (Diagnostic.atOffset s rule n).caret.toList.splitOn '\n'
        = [lineTextAt s n, List.replicate (columnAt s n - 1) ' ' ++ ['^']]) ∧
    Monotone fun n => toLex (lineAt s n, columnAt s n) := by
  refine ⟨fun n => ?_, monotone_lineAt_columnAt s⟩
  refine ⟨(splitAtOffset s n).1, (splitAtOffset s n).2, ?_, ?_, ?_, ?_, ?_, ?_, ?_⟩
  · exact (splitAtOffset_append_eq s n).symm
  · exact isGreatest_splitAtOffset s n
  · exact Nat.add_comm _ _
  · exact getElem?_lineAt s n
  · exact columnAt_le s n
  · exact byteLength_eq_placeOffset s n
  · exact splitOn_caret s rule n

/-- An offset within a character of two bytes, and one beyond the end. -/
example : (lineAt ['\n', 'é'] 2, columnAt ['\n', 'é'] 2) = (2, 1) ∧
    (lineAt ['\n', 'é'] 9, columnAt ['\n', 'é'] 9) = (2, 2) := by decide

end RubyIndent.Text
