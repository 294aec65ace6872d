import Mathlib.Data.List.Infix
import RubyIndent.Text.Replace

/-!
# What replacing does to a text

A text without the old part is left as it is. A character that the old part does not
have cuts a text in two that are replaced in separately (`replaceAll_append_cons`). A
character that the new part does not have only gets fewer.
-/

namespace RubyIndent.Text

variable {old new : List Char}

theorem replaceAll_nil : replaceAll old new [] = [] := by
  rw [replaceAll]

theorem replaceAll_cons {c : Char} {t : List Char} (h : ¬ old <+: c :: t) :
    replaceAll old new (c :: t) = c :: replaceAll old new t := by
  rw [replaceAll, if_neg (mt List.isPrefixOf_iff_prefix.1 h)]

/-- What is left behind the old part in front of a text. -/
theorem append_drop_eq (hne : old ≠ []) {c : Char} {t : List Char}
    (h : old <+: c :: t) : old ++ t.drop (old.length - 1) = c :: t := by
  obtain ⟨a, old, rfl⟩ := List.exists_cons_of_ne_nil hne
  obtain ⟨rfl, hrest⟩ := List.cons_prefix_cons.1 h
  rw [List.length_cons, Nat.add_sub_cancel, List.cons_append,
    List.prefix_iff_eq_append.1 hrest]

theorem replaceAll_append (hne : old ≠ []) (s : List Char) :
    replaceAll old new (old ++ s) = new ++ replaceAll old new s := by
  have hpre : old <+: old ++ s := List.prefix_append old s
  obtain ⟨a, t, ht⟩ := List.exists_cons_of_ne_nil (List.append_ne_nil_of_left_ne_nil hne s)
  rw [ht] at hpre ⊢
  have hrest : t.drop (old.length - 1) = s :=
    List.append_cancel_left ((append_drop_eq hne hpre).trans ht.symm)
  rw [replaceAll, if_pos (List.isPrefixOf_iff_prefix.2 hpre), hrest]

theorem replaceAll_self (hne : old ≠ []) : replaceAll old new old = new := by
  have hall : replaceAll old new (old ++ []) = new ++ replaceAll old new [] :=
    replaceAll_append hne []
  rwa [replaceAll_nil, List.append_nil, List.append_nil] at hall

theorem replaceAll_of_absent {s : List Char} (h : ¬ old <:+: s) :
    replaceAll old new s = s := by
  induction s with
  | nil => exact replaceAll_nil
  | cons c t ih =>
    rw [List.infix_cons_iff, not_or] at h
    rw [replaceAll_cons h.1, ih h.2]

theorem prefix_append_cons {c : Char} (hc : c ∉ old) {x y : List Char} :
    old <+: x ++ c :: y ↔ old <+: x := by
  constructor
  · intro h
    rcases List.prefix_or_prefix_of_prefix h (List.prefix_append x (c :: y)) with hx | ⟨z, rfl⟩
    · exact hx
    · rw [List.prefix_append_right_inj] at h
      cases z with
      | nil => rw [List.append_nil]
      | cons a z =>
        obtain ⟨rfl, -⟩ := List.cons_prefix_cons.1 h
        exact absurd (List.mem_append_right x List.mem_cons_self) hc
  · exact fun h => h.trans (List.prefix_append x (c :: y))

/-- A character that the old part does not have cuts the text. -/
theorem replaceAll_append_cons (hne : old ≠ []) {c : Char} (hc : c ∉ old)
    (x y : List Char) : replaceAll old new (x ++ c :: y)
      = replaceAll old new x ++ c :: replaceAll old new y := by
  fun_induction replaceAll old new x with
  | case1 =>
    have hnot : ¬ old <+: c :: y := fun h =>
      hne (List.prefix_nil.1 ((prefix_append_cons hc (x := [])).1 h))
    exact replaceAll_cons hnot
  | case2 a t hpre ih =>
    have hsplit := append_drop_eq hne (List.isPrefixOf_iff_prefix.1 hpre)
    rw [← hsplit, List.append_assoc, replaceAll_append hne, ih, List.append_assoc]
  | case3 a t hpre ih =>
    have hnot : ¬ old <+: a :: (t ++ c :: y) := fun h =>
      hpre (List.isPrefixOf_iff_prefix.2 ((prefix_append_cons hc (x := a :: t)).1 h))
    rw [List.cons_append, replaceAll_cons hnot, ih, List.cons_append]

/-! ## Counting -/

variable {c : Char}

theorem count_replaceAll_le (hne : old ≠ []) (hc : c ∉ new) (s : List Char) :
    (replaceAll old new s).count c ≤ s.count c := by
  fun_induction replaceAll old new s with
  | case1 => exact Nat.le_refl _
  | case2 a t hpre ih =>
    rw [← append_drop_eq hne (List.isPrefixOf_iff_prefix.1 hpre),
      List.count_append, List.count_append, List.count_eq_zero_of_not_mem hc]
    omega
  | case3 a t hpre ih =>
    rw [List.count_cons, List.count_cons]
    omega

/-- A character that only the old part has gets fewer, if the old part is there. -/
theorem count_replaceAll_lt (hold : c ∈ old) (hc : c ∉ new) {s : List Char}
    (h : old <:+: s) : (replaceAll old new s).count c < s.count c := by
  have hne : old ≠ [] := List.ne_nil_of_mem hold
  fun_induction replaceAll old new s with
  | case1 => exact absurd (List.infix_nil.1 h) hne
  | case2 a t hpre ih =>
    have hpos : 0 < old.count c := List.count_pos_iff.2 hold
    have hrest := count_replaceAll_le hne hc (t.drop (old.length - 1))
    rw [← append_drop_eq hne (List.isPrefixOf_iff_prefix.1 hpre),
      List.count_append, List.count_append, List.count_eq_zero_of_not_mem hc]
    omega
  | case3 a t hpre ih =>
    have hrest : old <:+: t := (List.infix_cons_iff.1 h).resolve_left fun hfront =>
      hpre (List.isPrefixOf_iff_prefix.2 hfront)
    have hlt := ih hrest
    rw [List.count_cons, List.count_cons]
    omega

end RubyIndent.Text
