import Mathlib.Data.List.TakeWhile
import Mathlib.Tactic.SplitIfs
import RubyIndent.Text.Lines

/-!
# Physical lines, in characters and in bytes

The lines of a document are cut out of its bytes before anyone knows whether they
are text. For a document that is one, this is the cut of the text: no character
but the newline has the byte of a newline in its UTF-8 form, so the lines of the
bytes are the lines of the text, each in its UTF-8 form (`splitLines_toUTF8`).
-/

namespace RubyIndent.Text

/-! ## Cutting off the first line -/

section
variable {α : Type} [BEq α] [LawfulBEq α] {newline : α} {line : List α}

theorem ne_of_not_mem (h : newline ∉ line) {c : α} (hc : c ∈ line) :
    (c != newline) = true := by
  rw [bne_iff_ne]
  rintro rfl
  exact h hc

theorem splitLines_cons_line (h : newline ∉ line) (rest : List α) :
    splitLines newline (line ++ newline :: rest)
      = (line ++ [newline]) :: splitLines newline rest := by
  have htake : (line ++ newline :: rest).takeWhile (· != newline) = line := by
    rw [List.takeWhile_append_of_pos fun c hc => ne_of_not_mem h hc,
      List.takeWhile_cons_of_neg (by simp), List.append_nil]
  have hdrop : (line ++ newline :: rest).dropWhile (· != newline)
      = newline :: rest := by
    rw [List.dropWhile_append_of_pos fun c hc => ne_of_not_mem h hc,
      List.dropWhile_cons_of_neg (by simp)]
  obtain ⟨c, t, hs⟩ : ∃ c t, line ++ newline :: rest = c :: t :=
    List.exists_cons_of_ne_nil (by simp)
  rw [hs] at htake hdrop ⊢
  rw [splitLines]
  split
  · rename_i hnil
    cases hdrop.symm.trans hnil
  · rename_i hcons
    cases hdrop.symm.trans hcons
    rw [htake]

theorem splitLines_of_not_mem (h : newline ∉ line) (hne : line ≠ []) :
    splitLines newline line = [line] := by
  have htake : line.takeWhile (· != newline) = line :=
    List.takeWhile_eq_self_iff.2 fun c hc => ne_of_not_mem h hc
  have hdrop : line.dropWhile (· != newline) = [] :=
    List.dropWhile_eq_nil_iff.2 fun c hc => ne_of_not_mem h hc
  obtain ⟨c, t, rfl⟩ := List.exists_cons_of_ne_nil hne
  rw [splitLines]
  split
  · rw [htake]
  · rename_i hcons
    cases hdrop.symm.trans hcons

/-- Lines are taken off a text one after the other. -/
theorem lines_induction (newline : α) {motive : List α → Prop}
    (last : ∀ line, newline ∉ line → motive line)
    (cons : ∀ line rest, newline ∉ line → motive rest →
      motive (line ++ newline :: rest)) (s : List α) : motive s := by
  generalize hn : s.length = n
  induction n using Nat.strongRecOn generalizing s with
  | _ n ih =>
    by_cases hmem : newline ∈ s
    · obtain ⟨line, rest, rfl, hline⟩ := List.eq_append_cons_of_mem hmem
      refine cons line rest hline (ih rest.length ?_ rest rfl)
      rw [← hn, List.length_append, List.length_cons]
      omega
    · exact last s hmem

end

/-! ## Bytes -/

theorem toList_loop_eq (b : ByteArray) (i : Nat) (r : List UInt8) :
    ByteArray.toList.loop b i r = r.reverse ++ b.data.toList.drop i := by
  fun_induction ByteArray.toList.loop b i r with
  | case1 i r h ih =>
    have hi : i < b.data.toList.length := by simpa using h
    rw [ih, List.drop_eq_getElem_cons hi]
    simp [ByteArray.get!, h]
  | case2 i r h =>
    rw [List.drop_eq_nil_of_le (by simpa using Nat.le_of_not_lt h),
      List.append_nil]

theorem toList_eq_data (b : ByteArray) : b.toList = b.data.toList := by
  rw [ByteArray.toList, toList_loop_eq]
  simp

def encode (s : List Char) : List UInt8 :=
  s.flatMap String.utf8EncodeChar

theorem encode_append (s t : List Char) : encode (s ++ t) = encode s ++ encode t :=
  List.flatMap_append

theorem toList_toUTF8 (s : String) : s.toUTF8.toList = encode s.toList := by
  have hbytes : s.toByteArray = (encode s.toList).toByteArray := by
    rw [← String.ofList_toList (s := s), String.toByteArray_ofList,
      String.toList_ofList]
    rfl
  rw [toList_eq_data, String.toUTF8_eq_toByteArray, hbytes,
    List.toList_data_toByteArray]

/-- The bytes of a text are read as that text. -/
theorem fromUTF8?_toUTF8 (s : String) : String.fromUTF8? s.toUTF8 = some s := by
  have hvalid : s.toUTF8.IsValidUTF8 := s.isValidUTF8
  rw [String.fromUTF8?, dif_pos hvalid]
  rfl

theorem toUTF8_of_fromUTF8? {b : ByteArray} {s : String}
    (h : String.fromUTF8? b = some s) : s.toUTF8 = b := by
  rw [String.fromUTF8?] at h
  split at h
  · cases h
    rfl
  · cases h

theorem fromUTF8?_encode (s : List Char) :
    String.fromUTF8? ⟨(encode s).toArray⟩ = some (String.ofList s) := by
  have hbytes : ⟨(encode s).toArray⟩ = (String.ofList s).toUTF8 := by
    refine ByteArray.ext (Array.toList_inj.1 ?_)
    have hlist := toList_toUTF8 (String.ofList s)
    rw [toList_eq_data, String.toList_ofList] at hlist
    exact hlist.symm
  rw [hbytes, fromUTF8?_toUTF8]

/-- The byte of a newline stands for nothing else. -/
theorem newline_mem_utf8EncodeChar {c : Char} :
    (10 : UInt8) ∈ String.utf8EncodeChar c ↔ c = '\n' := by
  constructor
  · intro h
    refine Char.ext (UInt32.toNat_inj.1 ?_)
    have hnewline : '\n'.val.toNat = 10 := rfl
    rw [String.utf8EncodeChar.eq_1] at h
    split_ifs at h <;>
      simp only [List.mem_cons, List.not_mem_nil, or_false,
        ← UInt8.toNat_inj, UInt8.toNat_ofNat'] at h <;>
      simp only [UInt8.reduceToNat] at h <;> omega
  · rintro rfl
    decide

theorem newline_mem_encode {s : List Char} :
    (10 : UInt8) ∈ encode s ↔ '\n' ∈ s := by
  rw [encode, List.mem_flatMap]
  constructor
  · rintro ⟨c, hc, h⟩
    rwa [← newline_mem_utf8EncodeChar.1 h]
  · exact fun h => ⟨_, h, newline_mem_utf8EncodeChar.2 rfl⟩

theorem encode_eq_nil {s : List Char} : encode s = [] ↔ s = [] := by
  cases s with
  | nil => simp [encode]
  | cons c s =>
    have hsize := String.length_utf8EncodeChar c
    have hpos := c.utf8Size_pos
    refine ⟨fun h => ?_, nofun⟩
    rw [encode, List.flatMap_cons, List.append_eq_nil_iff] at h
    rw [h.1, List.length_nil] at hsize
    omega

/-- The lines of a text in bytes. -/
theorem splitLines_encode (s : List Char) :
    splitLines 10 (encode s) = (splitLines '\n' s).map encode := by
  induction s using lines_induction '\n' with
  | last line h =>
    by_cases hne : line = []
    · subst hne
      simp [encode, splitLines]
    · rw [splitLines_of_not_mem h hne, splitLines_of_not_mem
        (fun hmem => h (newline_mem_encode.1 hmem))
        fun hnil => hne (encode_eq_nil.1 hnil)]
      rfl
  | cons line rest h ih =>
    have hnewline : encode (line ++ '\n' :: rest)
        = encode line ++ 10 :: encode rest := encode_append line _
    have hline : encode (line ++ ['\n']) = encode line ++ [10] :=
      encode_append line _
    rw [hnewline, splitLines_cons_line fun hmem => h (newline_mem_encode.1 hmem),
      splitLines_cons_line h, List.map_cons, hline, ih]

theorem splitLines_toUTF8 (s : String) :
    splitLines 10 s.toUTF8.toList = (splitLines '\n' s.toList).map encode := by
  rw [toList_toUTF8, splitLines_encode]

end RubyIndent.Text
