import Mathlib.Data.List.Basic
import Mathlib.Data.List.TakeWhile
import RubyIndent.Text.Blank
import RubyIndent.Text.Size

/-!
# Blanks, words and numerals

Blanks around a text do not matter to what is trimmed of it. A text is made of words
with blanks between them (`Spaced`), and cutting it into words gives these words back
(`words_of_spaced`). A numeral may have a plus sign and zeros in front; every numeral
of a size is read as that size (`readSize?_numeral`).
-/

namespace RubyIndent.Text

/-! ## Blanks -/

/-- Nothing but blanks, of whatever kind. -/
def AllBlank (s : List Char) : Prop :=
  ∀ c ∈ s, isBlank c = true

instance (s : List Char) : Decidable (AllBlank s) :=
  List.decidableBAll _ s

theorem trimStart_blanks {b : List Char} (hb : AllBlank b) (s : List Char) :
    trimStart (b ++ s) = trimStart s :=
  List.dropWhile_append_of_pos hb

theorem trimStart_eq_nil {s : List Char} : trimStart s = [] ↔ AllBlank s :=
  List.dropWhile_eq_nil_iff

theorem trimStart_cons {c : Char} (hc : isBlank c = false) (s : List Char) :
    trimStart (c :: s) = c :: s :=
  List.dropWhile_cons_of_neg (by simp [hc])

/-- Blanks behind a text are dropped only if there is no text. -/
theorem trimStart_append {b : List Char} (hb : AllBlank b) (s : List Char) :
    trimStart s = [] ∧ trimStart (s ++ b) = [] ∨
      trimStart s ≠ [] ∧ trimStart (s ++ b) = trimStart s ++ b := by
  by_cases hs : trimStart s = []
  · refine .inl ⟨hs, trimStart_eq_nil.2 fun c hc => ?_⟩
    exact (List.mem_append.1 hc).elim (trimStart_eq_nil.1 hs c) (hb c)
  · refine .inr ⟨hs, ?_⟩
    rw [trimStart, List.dropWhile_append, if_neg]
    · rfl
    · rwa [List.isEmpty_iff]

theorem trim_append {b : List Char} (hb : AllBlank b) (s : List Char) :
    trim (s ++ b) = trim s := by
  have hback : AllBlank b.reverse := fun c hc => hb c (List.mem_reverse.1 hc)
  rcases trimStart_append hb s with ⟨hs, happ⟩ | ⟨_, happ⟩
  · rw [trim, trim, hs, happ]
  · rw [trim, trim, happ, List.reverse_append, trimStart_blanks hback]

theorem trim_blanks {b : List Char} (hb : AllBlank b) (s : List Char) :
    trim (b ++ s) = trim s := by
  rw [trim, trimStart_blanks hb, trim]

/-- No letter is a blank. -/
theorem toLower_of_isBlank {c : Char} (h : isBlank c = true) : c.toLower = c := by
  refine dif_neg fun hc => ?_
  have hA : 65 ≤ c.toNat := hc.1
  have hZ : c.toNat ≤ 90 := hc.2
  simp only [isBlank, blankRanges, List.any_cons, List.any_nil, Bool.or_false,
    Bool.or_eq_true, Bool.and_eq_true, decide_eq_true_eq] at h
  omega

/-! ## Words -/

/-- Some characters, none of them a blank. -/
def IsWord (w : List Char) : Prop :=
  w ≠ [] ∧ ∀ c ∈ w, isBlank c = false

instance (w : List Char) : Decidable (IsWord w) :=
  @instDecidableAnd _ _ inferInstance (List.decidableBAll _ w)

/-- What may stand between two words of a line. -/
def IsGap (b : List Char) : Prop :=
  b ≠ [] ∧ AllBlank b ∧ '\n' ∉ b

instance (b : List Char) : Decidable (IsGap b) :=
  inferInstanceAs (Decidable (_ ∧ _ ∧ _))

/-- The text consists of the words, in order, with gaps between them. -/
inductive Spaced : List (List Char) → List Char → Prop where
  | last {w : List Char} : Spaced [w] w
  | cons {w gap s : List Char} {ws : List (List Char)} : IsGap gap → Spaced ws s →
    Spaced (w :: ws) (w ++ (gap ++ s))

theorem words_of_nil {s : List Char} (h : trimStart s = []) : words s = [] := by
  rw [words]
  split
  · rfl
  · rename_i hcons
    cases h.symm.trans hcons

theorem words_of_cons {s t : List Char} {c : Char} (h : trimStart s = c :: t) :
    words s = (c :: t.takeWhile (!isBlank ·)) :: words (t.dropWhile (!isBlank ·)) := by
  rw [words]
  split
  · rename_i hnil
    cases h.symm.trans hnil
  · rename_i hcons
    cases h.symm.trans hcons
    rfl

theorem words_blanks {b : List Char} (hb : AllBlank b) (s : List Char) :
    words (b ++ s) = words s := by
  have hsame := trimStart_blanks hb s
  cases hs : trimStart s with
  | nil => rw [words_of_nil hs, words_of_nil (hsame.trans hs)]
  | cons c t => rw [words_of_cons hs, words_of_cons (hsame.trans hs)]

/-- A word ends at the first blank behind it. -/
theorem words_append {w : List Char} (hw : IsWord w) {s : List Char}
    (hs : ∀ c ∈ s.head?, isBlank c = true) : words (w ++ s) = w :: words s := by
  obtain ⟨hne, hword⟩ := hw
  obtain ⟨c, t, rfl⟩ := List.exists_cons_of_ne_nil hne
  obtain ⟨hc, ht⟩ := List.forall_mem_cons.1 hword
  have hinner : ∀ a ∈ t, (!isBlank a) = true := fun a ha => by simp [ht a ha]
  have hstop : s.takeWhile (!isBlank ·) = [] ∧ s.dropWhile (!isBlank ·) = s := by
    cases s with
    | nil => exact ⟨rfl, rfl⟩
    | cons a s => simp [hs a rfl]
  rw [List.cons_append, words_of_cons (trimStart_cons hc (t ++ s)),
    List.takeWhile_append_of_pos hinner, List.dropWhile_append_of_pos hinner,
    hstop.1, hstop.2, List.append_nil]

namespace Spaced

variable {ws : List (List Char)} {s : List Char}

theorem words_eq (h : Spaced ws s) (hws : ∀ w ∈ ws, IsWord w) : words s = ws := by
  induction h with
  | @last w =>
    have hw := words_append (hws w List.mem_cons_self) (s := []) (by simp)
    rw [List.append_nil, words_of_nil (s := []) rfl] at hw
    exact hw
  | @cons w gap s ws hgap _ ih =>
    obtain ⟨hw, hws⟩ := List.forall_mem_cons.1 hws
    obtain ⟨hne, hblank, -⟩ := hgap
    have hhead : ∀ c ∈ (gap ++ s).head?, isBlank c = true := by
      obtain ⟨b, gap, rfl⟩ := List.exists_cons_of_ne_nil hne
      intro c hc
      cases hc
      exact hblank b List.mem_cons_self
    rw [words_append hw hhead, words_blanks hblank, ih hws]

theorem newline_not_mem (h : Spaced ws s) (hws : ∀ w ∈ ws, IsWord w) : '\n' ∉ s := by
  have hword : ∀ {w}, IsWord w → '\n' ∉ w := fun hw hmem =>
    Bool.noConfusion ((hw.2 _ hmem).symm.trans (by decide : isBlank '\n' = true))
  induction h with
  | last => exact hword (hws _ List.mem_cons_self)
  | cons hgap _ ih =>
    obtain ⟨hw, hws⟩ := List.forall_mem_cons.1 hws
    rw [List.mem_append, List.mem_append]
    rintro (hmem | hmem | hmem)
    · exact hword hw hmem
    · exact hgap.2.2 hmem
    · exact ih hws hmem

theorem head (h : Spaced ws s) (hws : ∀ w ∈ ws, IsWord w) :
    ∃ c t, s = c :: t ∧ isBlank c = false := by
  have hword : ∀ {w}, IsWord w → ∀ s, ∃ c t, w ++ s = c :: t ∧ isBlank c = false := by
    rintro w ⟨hne, hw⟩ s
    obtain ⟨c, w, rfl⟩ := List.exists_cons_of_ne_nil hne
    exact ⟨c, w ++ s, rfl, hw c List.mem_cons_self⟩
  cases h with
  | last =>
    have hfirst := hword (hws _ List.mem_cons_self) []
    rwa [List.append_nil] at hfirst
  | cons => exact hword (hws _ List.mem_cons_self) _

theorem last_not_blank (h : Spaced ws s) (hws : ∀ w ∈ ws, IsWord w) :
    ∃ t c, s = t ++ [c] ∧ isBlank c = false := by
  induction h with
  | @last w =>
    obtain ⟨hne, hw⟩ := hws w List.mem_cons_self
    exact ⟨w.dropLast, w.getLast hne, (List.dropLast_append_getLast hne).symm,
      hw _ (List.getLast_mem hne)⟩
  | @cons w gap s ws hgap _ ih =>
    obtain ⟨t, c, rfl, hc⟩ := ih (List.forall_mem_cons.1 hws).2
    exact ⟨w ++ (gap ++ t), c, by simp, hc⟩

theorem trim_eq (h : Spaced ws s) (hws : ∀ w ∈ ws, IsWord w) : trim s = s := by
  obtain ⟨c, t, hhead, hc⟩ := h.head hws
  obtain ⟨t', c', hlast, hc'⟩ := h.last_not_blank hws
  have hstart : trimStart s = s := by rw [hhead, trimStart_cons hc]
  have hback : trimStart s.reverse = s.reverse := by
    rw [hlast, List.reverse_append, List.reverse_singleton, List.singleton_append,
      trimStart_cons hc']
  rw [trim, hstart, hback, List.reverse_reverse]

end Spaced

/-! ## Numerals -/

/-- The decimal digits of a number, with zeros and perhaps a plus sign in front. -/
def numeral (plus : Bool) (zeros n : Nat) : List Char :=
  (if plus then ['+'] else []) ++ (List.replicate zeros '0' ++ Nat.toDigits 10 n)

theorem isDigit_of_mem_digits {zeros n : Nat} {c : Char}
    (hc : c ∈ List.replicate zeros '0' ++ Nat.toDigits 10 n) : c.isDigit = true := by
  rcases List.mem_append.1 hc with hc | hc
  · rw [List.eq_of_mem_replicate hc]
    rfl
  · exact Nat.isDigit_of_mem_toDigits (by decide) (by decide) hc

theorem decimalFrom_digits (zeros n : Nat) :
    decimalFrom 0 (List.replicate zeros '0' ++ Nat.toDigits 10 n) = n := by
  have hvalue : ∀ s, decimalFrom 0 s = Nat.ofDigitChars 10 s 0 :=
    fun _ => Nat.ofDigitChars_eq_foldl.symm
  rw [hvalue, Nat.ofDigitChars_append, Nat.ofDigitChars_replicate_zero,
    Nat.mul_zero, Nat.ofDigitChars_ten_toDigits]

theorem readSize?_numeral (plus : Bool) (zeros : Nat) {n : Nat} (hn : n ≤ maxSize) :
    readSize? (numeral plus zeros n) = some n := by
  have hne : Nat.toDigits 10 n ≠ [] := Nat.toDigits_ne_nil
  obtain ⟨c, t, hdigits⟩ := List.exists_cons_of_ne_nil
    (List.append_ne_nil_of_right_ne_nil (List.replicate zeros '0') hne)
  have hall : (c :: t).all Char.isDigit = true := by
    rw [← hdigits]
    exact List.all_eq_true.2 fun a ha => isDigit_of_mem_digits ha
  have hvalue := decimalFrom_digits zeros n
  rw [hdigits] at hvalue
  -- A digit is no plus sign, so without a sign all of the numeral is digits.
  have hplus : c ≠ '+' := by
    rintro rfl
    simp at hall
  cases plus <;> simp [readSize?, numeral, hdigits, hall, hvalue, hn, hplus]

theorem toNat_of_isDigit {c : Char} (h : c.isDigit = true) :
    48 ≤ c.toNat ∧ c.toNat ≤ 57 := by
  simp only [Char.isDigit, Bool.and_eq_true, decide_eq_true_eq, ge_iff_le,
    UInt32.le_iff_toNat_le] at h
  exact h

theorem isWord_numeral (plus : Bool) (zeros n : Nat) :
    IsWord (numeral plus zeros n) := by
  have hdigit : ∀ {c : Char}, c.isDigit = true → isBlank c = false := by
    intro c hc
    have hrange := toNat_of_isDigit hc
    simp only [isBlank, blankRanges, List.any_cons, List.any_nil, Bool.or_false,
      Bool.or_eq_false_iff, Bool.and_eq_false_iff, decide_eq_false_iff_not]
    omega
  constructor
  · simp [numeral, Nat.toDigits_ne_nil]
  · intro c hc
    rcases List.mem_append.1 hc with hc | hc
    · cases plus with
      | false => cases hc
      | true =>
        rw [List.mem_singleton.1 hc]
        decide
    · exact hdigit (isDigit_of_mem_digits hc)

end RubyIndent.Text
