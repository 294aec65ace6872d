import Mathlib.Data.List.GetD
import RubyIndent.Changes
import RubyIndent.Proofs.Text.PhysicalLines

/-!
# What a list of changes says

Changes are listed by number, and each number is that of a pair of lines that differ
(`mem_changedLines`); the numbers increase (`pairwise_changedLines`). So the old lines
with the listed ones replaced are the new lines (`patched_changedLines`), but for
empty lines where there were more old lines than new ones.
-/

namespace RubyIndent

open RubyIndent.Text

namespace LineChange

/-- Lines are paired by number; a line that is missing is empty. -/
theorem getElem?_pairLines (bs as : List String) (i : Nat) :
    (pairLines bs as)[i]? = if i < max bs.length as.length then
      some (bs.getD i "", as.getD i "") else none := by
  fun_induction pairLines bs as generalizing i with
  | case1 => rfl
  | case2 b bs ih | case3 a as ih =>
    cases i with
    | zero => simp
    | succ i => simpa using ih i
  | case4 b bs a as ih =>
    cases i with
    | zero => simp
    | succ i => simpa using ih i

theorem mem_differing {n : Nat} {ps : List (String × String)} {c : LineChange} :
    c ∈ differing n ps ↔ ∃ i, ps[i]? = some (c.before, c.after) ∧
      c.line = n + i ∧ c.before ≠ c.after := by
  fun_induction differing n ps with
  | case1 => simp
  | case2 n rest b ih =>
    rw [ih]
    constructor
    · rintro ⟨i, hi, hline, hne⟩
      exact ⟨i + 1, hi, by omega, hne⟩
    · rintro ⟨i, hi, hline, hne⟩
      cases i with
      | zero =>
        obtain ⟨hbefore, hafter⟩ := Prod.mk.inj (Option.some.inj hi)
        exact absurd (hbefore.symm.trans hafter) hne
      | succ i => exact ⟨i, hi, by omega, hne⟩
  | case3 n b a rest hne ih =>
    rw [List.mem_cons, ih]
    constructor
    · rintro (rfl | ⟨i, hi, hline, hne⟩)
      · exact ⟨0, rfl, rfl, hne⟩
      · exact ⟨i + 1, hi, by omega, hne⟩
    · rintro ⟨i, hi, hline, hne⟩
      cases i with
      | zero =>
        obtain ⟨line, before, after⟩ := c
        cases hi
        cases hline
        exact .inl rfl
      | succ i => exact .inr ⟨i, hi, by omega, hne⟩

theorem pairwise_differing (n : Nat) (ps : List (String × String)) :
    (differing n ps).Pairwise fun c d => c.line < d.line := by
  fun_induction differing n ps with
  | case1 => exact .nil
  | case2 n rest b ih => exact ih
  | case3 n b a rest hne ih =>
    refine List.pairwise_cons.2 ⟨?_, ih⟩
    intro c hc
    obtain ⟨i, -, hline, -⟩ := mem_differing.1 hc
    show n < c.line
    omega

end LineChange

/-- The line of a text with a given number, counted from one, without its line end;
empty if there is no such line. -/
def numberedLine (s : String) (line : Nat) : String :=
  (lineTexts s).getD (line - 1) ""

/-- What is listed is exactly where two texts differ, with what stands there. -/
theorem mem_changedLines {before after : String} {c : LineChange} :
    c ∈ changedLines before after ↔ 1 ≤ c.line ∧ c.before = numberedLine before c.line ∧
      c.after = numberedLine after c.line ∧ c.before ≠ c.after := by
  unfold changedLines numberedLine
  rw [LineChange.mem_differing]
  simp only [LineChange.getElem?_pairLines]
  constructor
  · rintro ⟨i, hi, hline, hne⟩
    split at hi
    · obtain ⟨hbefore, hafter⟩ := Prod.mk.inj (Option.some.inj hi)
      rw [hline, Nat.add_sub_cancel_left]
      exact ⟨Nat.le_add_right 1 i, hbefore.symm, hafter.symm, hne⟩
    · cases hi
  · rintro ⟨hle, hbefore, hafter, hne⟩
    refine ⟨c.line - 1, ?_, by omega, hne⟩
    rw [if_pos, ← hbefore, ← hafter]
    -- Beyond both texts the lines are empty, and do not differ.
    refine Nat.lt_of_not_le fun hlen => hne ?_
    rw [hbefore, hafter, List.getD_eq_default _ _ (by omega),
      List.getD_eq_default _ _ (by omega)]

theorem pairwise_changedLines (before after : String) :
    ((changedLines before after).map LineChange.line).Pairwise (· < ·) :=
  List.pairwise_map.2 (LineChange.pairwise_differing _ _)

/-- Nothing is listed exactly if all lines are the same. -/
theorem changedLines_eq_nil_iff {before after : String} :
    changedLines before after = [] ↔
      ∀ i, (lineTexts before).getD i "" = (lineTexts after).getD i "" := by
  constructor
  · intro h i
    refine Decidable.byContradiction fun hne => ?_
    have hmem : LineChange.mk (i + 1) _ _ ∈ changedLines before after :=
      mem_changedLines.2 ⟨Nat.le_add_left 1 i, rfl, rfl, hne⟩
    rw [h] at hmem
    cases hmem
  · intro h
    refine List.eq_nil_iff_forall_not_mem.2 fun c hc => ?_
    obtain ⟨-, hbefore, hafter, hne⟩ := mem_changedLines.1 hc
    rw [hbefore, hafter] at hne
    exact hne (h _)

/-! ## Replacing the lines that are listed -/

/-- The lines of a text, those that are listed replaced by what is listed. -/
def patched (changes : List LineChange) (lines : List String) : List String :=
  lines.mapIdx fun i line =>
    ((changes.find? fun c => c.line = i + 1).map LineChange.after).getD line

theorem find?_changedLines (before after : String) (i : Nat) :
    (((changedLines before after).find? fun c => c.line = i + 1).map
      LineChange.after).getD ((lineTexts before).getD i "")
      = (lineTexts after).getD i "" := by
  cases hfind : (changedLines before after).find? fun c => c.line = i + 1 with
  | none =>
    have hnone := List.find?_eq_none.1 hfind
    refine Decidable.byContradiction fun hne => ?_
    refine hnone ⟨i + 1, _, _⟩ (mem_changedLines.2 ⟨Nat.le_add_left 1 i, rfl, rfl, hne⟩) ?_
    exact decide_eq_true rfl
  | some c =>
    have hline : c.line = i + 1 := by simpa using List.find?_some hfind
    obtain ⟨-, -, hafter, -⟩ := mem_changedLines.1 (List.mem_of_find?_eq_some hfind)
    rw [Option.map_some, Option.getD_some, hafter, hline]
    rfl

/-- With the listed lines replaced the old lines are the new ones; where there are no
new ones any more, they are empty. -/
theorem patched_changedLines {before after : String}
    (h : (lineTexts after).length ≤ (lineTexts before).length) :
    patched (changedLines before after) (lineTexts before) = lineTexts after ++
      List.replicate ((lineTexts before).length - (lineTexts after).length) "" := by
  refine List.ext_getElem ?_ ?_
  · rw [patched, List.length_mapIdx, List.length_append, List.length_replicate]
    omega
  · intro i hi hi'
    have hfind := find?_changedLines before after i
    rw [patched, List.length_mapIdx] at hi
    rw [List.getD_eq_getElem _ _ hi] at hfind
    simp only [patched, List.getElem_mapIdx, hfind, List.getElem_append,
      List.getElem_replicate]
    split
    · rename_i hlt
      exact List.getD_eq_getElem _ _ hlt
    · rename_i hge
      exact List.getD_eq_default _ _ (Nat.le_of_not_lt hge)

end RubyIndent
