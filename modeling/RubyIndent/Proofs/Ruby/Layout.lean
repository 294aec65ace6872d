import Mathlib.Data.List.TakeWhile
import RubyIndent.Proofs.Ruby.LogicalLine

/-!
# How logical lines lie in a text

A logical line that was read is a part of the text, and the line that is
written for it is the same part with other blanks: in front of it, and around
the label of a terminator. `readLine_eq_some` says the first, `emit_eq` the
second. What is kept as it stands, the line itself or a heredoc up to the end of
its body, ends with a newline, so both texts have the same physical lines but
for blanks.
-/

namespace RubyIndent.Ruby

open RubyIndent.Peg RubyIndent.Text RubyIndent.Pattern

/-! ## Blanks -/

/-- Spaces and tabs only. -/
def Blanks (s : List Char) : Prop :=
  ∀ c ∈ s, isSpacing c = true

instance (s : List Char) : Decidable (Blanks s) :=
  List.decidableBAll _ s

/-- No blank comes first. -/
def Flush (s : List Char) : Prop :=
  ∀ c, s.head? = some c → isSpacing c = false

theorem Blanks.append {s t : List Char} (hs : Blanks s) (ht : Blanks t) :
    Blanks (s ++ t) := by
  intro c hc
  rcases List.mem_append.1 hc with hc | hc
  · exact hs c hc
  · exact ht c hc

theorem blanks_nil : Blanks [] :=
  fun _ h => nomatch h

theorem blanks_takeWhile (s : List Char) : Blanks (s.takeWhile isSpacing) :=
  fun _ => List.mem_takeWhile_imp

theorem flush_dropWhile (s : List Char) : Flush (s.dropWhile isSpacing) := by
  intro c hc
  have h := List.head?_dropWhile_not isSpacing s
  rw [hc] at h
  simpa using h

theorem Flush.dropWhile {s : List Char} (h : Flush s) :
    s.dropWhile isSpacing = s := by
  cases s with
  | nil => rfl
  | cons c s => rw [List.dropWhile_cons, h c rfl, if_neg Bool.false_ne_true]

theorem Flush.append {s : List Char} (h : Flush s) (hne : s ≠ [])
    (t : List Char) : Flush (s ++ t) := by
  obtain ⟨d, u, rfl⟩ := List.exists_cons_of_ne_nil hne
  exact fun c hc => h c hc

theorem dropWhile_blanks {b s : List Char} (hb : Blanks b) (hs : Flush s) :
    (b ++ s).dropWhile isSpacing = s := by
  rw [List.dropWhile_append_of_pos hb, hs.dropWhile]

theorem Blanks.dropWhile {b : List Char} (hb : Blanks b) :
    b.dropWhile isSpacing = [] :=
  List.dropWhile_eq_nil_iff.2 hb

theorem Blanks.not_newline {b : List Char} (hb : Blanks b) : '\n' ∉ b :=
  fun h => Bool.false_ne_true (hb _ h)

theorem Blanks.count_newline {b : List Char} (hb : Blanks b) :
    b.count '\n' = 0 :=
  List.count_eq_zero.2 hb.not_newline

/-- What is between blanks and has none at its ends is what trimming leaves. -/
theorem trimBlanks_blanks {b b' s : List Char} (hb : Blanks b) (hb' : Blanks b')
    (hs : Flush s) (hs' : Flush s.reverse) :
    Literal.trimBlanks (String.ofList (b ++ (s ++ b'))) = String.ofList s := by
  have htrim : ∀ t : List Char, Literal.trimBlanks (String.ofList t)
      = String.ofList (((t.dropWhile isSpacing).reverse.dropWhile
          isSpacing).reverse) := by
    intro t
    rw [Literal.trimBlanks, String.toList_ofList]
    rfl
  rw [htrim, List.dropWhile_append_of_pos hb]
  by_cases hne : s = []
  · subst hne
    rw [List.nil_append, hb'.dropWhile]
    rfl
  · have hback : Blanks b'.reverse := fun c hc => hb' c (List.mem_reverse.1 hc)
    rw [(hs.append hne b').dropWhile, List.reverse_append,
      dropWhile_blanks hback hs', List.reverse_reverse]

/-! ## Labels -/

def IsLabel (s : List Char) : Prop :=
  ∃ c cs, s = c :: cs ∧ 'A' ≤ c ∧ c ≤ 'Z' ∧ ∀ d ∈ cs, isLabelChar d = true

theorem IsLabel.all {s : List Char} (h : IsLabel s) :
    ∀ c ∈ s, isLabelChar c = true := by
  obtain ⟨c, cs, rfl, hA, hZ, hcs⟩ := h
  refine List.forall_mem_cons.2 ⟨?_, hcs⟩
  simp [isLabelChar, hA, hZ]

theorem isSpacing_of_isLabelChar {c : Char} (h : isLabelChar c = true) :
    isSpacing c = false := by
  by_contra hc
  simp only [Bool.not_eq_false, isSpacing, Bool.or_eq_true,
    decide_eq_true_eq] at hc
  rcases hc with rfl | rfl <;> cases h

theorem IsLabel.ne_nil {s : List Char} (h : IsLabel s) : s ≠ [] := by
  obtain ⟨c, cs, rfl, _⟩ := h
  exact List.cons_ne_nil c cs

theorem IsLabel.flush {s : List Char} (h : IsLabel s) :
    Flush s ∧ Flush s.reverse := by
  refine ⟨fun c hc => ?_, fun c hc => ?_⟩
  · exact isSpacing_of_isLabelChar (h.all c (List.mem_of_head? hc))
  · exact isSpacing_of_isLabelChar
      (h.all c (List.mem_reverse.1 (List.mem_of_head? hc)))

theorem IsLabel.not_newline {s : List Char} (h : IsLabel s) : '\n' ∉ s :=
  fun hmem => Bool.false_ne_true (h.all _ hmem)

/-- A label is read up to its last character. -/
theorem pattern_heredocLabel_eq_some {s t : List Char} :
    Reader.pattern Token.heredocLabel s = some t ↔
      ∃ l, IsLabel l ∧ s = l ++ t ∧
        ∀ c, t.head? = some c → isLabelChar c = false := by
  constructor
  · intro h
    rcases s with _ | ⟨c, s⟩
    · cases h
    rw [pattern_heredocLabel] at h
    split at h
    · rename_i hc
      cases h
      refine ⟨c :: s.takeWhile isLabelChar, ⟨c, _, rfl, hc.1, hc.2, ?_⟩, ?_, ?_⟩
      · exact fun _ => List.mem_takeWhile_imp
      · rw [List.cons_append, List.takeWhile_append_dropWhile]
      · intro d hd
        have h := List.head?_dropWhile_not isLabelChar s
        rw [hd] at h
        simpa using h
    · cases h
  · rintro ⟨_, ⟨c, cs, rfl, hA, hZ, hcs⟩, rfl, ht⟩
    rw [List.cons_append, pattern_heredocLabel, if_pos ⟨hA, hZ⟩,
      List.dropWhile_append_of_pos hcs]
    cases t with
    | nil => rfl
    | cons d t => rw [List.dropWhile_cons, ht d rfl, if_neg Bool.false_ne_true]

/-- The end of a line: a newline comes, or nothing. -/
def AtLineEnd (s : List Char) : Prop :=
  s = [] ∨ ∃ t, s = '\n' :: t

theorem AtLineEnd.flush {s : List Char} (h : AtLineEnd s) : Flush s := by
  rcases h with rfl | ⟨t, rfl⟩
  · exact fun _ h => nomatch h
  · rintro _ ⟨⟩
    rfl

theorem lineEnd_eq (s : List Char) :
    Reader.present (.orElse newline endOfText) s = some s ∧ AtLineEnd s ∨
      Reader.present (.orElse newline endOfText) s = none ∧ ¬ AtLineEnd s := by
  rcases s with _ | ⟨c, s⟩
  · exact .inl ⟨rfl, .inl rfl⟩
  · by_cases hc : c = '\n'
    · subst hc
      exact .inl ⟨rfl, .inr ⟨s, rfl⟩⟩
    · refine .inr ⟨?_, ?_⟩
      · have hne : '\n' ≠ c := fun h => hc h.symm
        simp [Reader.present, Reader.absent, Reader.orElse, newline, endOfText,
          Reader.literal, Reader.pattern, Token.anyChar, Regex.strip,
          CharSet.contains, CharSet.any, hne]
      · rintro (h | ⟨t, h⟩)
        · cases h
        · cases h
          exact hc rfl

/-- A line that looks like a terminator is a label between blanks. -/
theorem terminator_eq_some {s t : List Char} :
    terminator s = some t ↔ ∃ b l b', Blanks b ∧ IsLabel l ∧ Blanks b' ∧
      AtLineEnd t ∧ s = b ++ (l ++ (b' ++ t)) := by
  constructor
  · intro h
    have h : (Reader.pattern Token.heredocLabel (s.dropWhile isSpacing)).bind
        (fun u => Reader.present (.orElse newline endOfText)
          (u.dropWhile isSpacing)) = some t := h
    obtain ⟨u, hu, h⟩ := Option.bind_eq_some_iff.1 h
    obtain ⟨l, hl, hs, _⟩ := pattern_heredocLabel_eq_some.1 hu
    rcases lineEnd_eq (u.dropWhile isSpacing) with ⟨heq, hend⟩ | ⟨heq, _⟩
    · cases heq.symm.trans h
      refine ⟨_, l, _, blanks_takeWhile s, hl, blanks_takeWhile u, hend, ?_⟩
      rw [List.takeWhile_append_dropWhile, ← hs,
        List.takeWhile_append_dropWhile]
    · cases heq.symm.trans h
  · rintro ⟨b, l, b', hb, hl, hb', ht, rfl⟩
    have hlabel : Reader.pattern Token.heredocLabel (l ++ (b' ++ t))
        = some (b' ++ t) := by
      refine pattern_heredocLabel_eq_some.2 ⟨l, hl, rfl, fun c hc => ?_⟩
      cases b' with
      | cons d b' =>
        cases hc
        by_contra hc
        rw [Bool.not_eq_false] at hc
        cases (isSpacing_of_isLabelChar hc).symm.trans (hb' _ List.mem_cons_self)
      | nil =>
        rcases ht with rfl | ⟨t, rfl⟩
        · cases hc
        · cases hc
          rfl
    have hfirst : spacing (b ++ (l ++ (b' ++ t))) = some (l ++ (b' ++ t)) := by
      rw [spacing, dropWhile_blanks hb (hl.flush.1.append hl.ne_nil _)]
    have hsecond : spacing (b' ++ t) = some t := by
      rw [spacing, dropWhile_blanks hb' ht.flush]
    have hlast : Reader.present (.orElse newline endOfText) t = some t := by
      rcases lineEnd_eq t with ⟨heq, _⟩ | ⟨_, hend⟩
      · exact heq
      · exact absurd ht hend
    simp only [terminator, Reader.next, hfirst, hlabel, hsecond, hlast,
      Option.bind_some]

@[simp] theorem taken_append_self (s t : List Char) : taken (s ++ t) t = s := by
  simp [taken]

/-- A label on a line of its own is compared with the label of the heredoc. -/
theorem closing_of_label {b l b' t : List Char} (hb : Blanks b) (hl : IsLabel l)
    (hb' : Blanks b') (ht : AtLineEnd t) (label : String) :
    closing label (b ++ (l ++ (b' ++ t)))
      = if label = String.ofList l then some t else none := by
  have hterm := terminator_eq_some.2 ⟨b, l, b', hb, hl, hb', ht, rfl⟩
  have htaken : taken (b ++ (l ++ (b' ++ t))) t = b ++ (l ++ b') := by
    rw [← List.append_assoc l, ← List.append_assoc b, taken_append_self]
  rw [closing, hterm, Option.bind_some, htaken,
    trimBlanks_blanks hb hb' hl.flush.1 hl.flush.2]

/-- The terminator of a heredoc holds its label. -/
theorem closing_eq_some {label : String} {s t : List Char} :
    closing label s = some t ↔ ∃ b b', Blanks b ∧ IsLabel label.toList ∧
      Blanks b' ∧ AtLineEnd t ∧ s = b ++ (label.toList ++ (b' ++ t)) := by
  constructor
  · intro h
    obtain ⟨u, hu, _⟩ := Option.bind_eq_some_iff.1 h
    obtain ⟨b, l, b', hb, hl, hb', hend, rfl⟩ := terminator_eq_some.1 hu
    rw [closing_of_label hb hl hb' hend] at h
    split at h
    · rename_i hlabel
      cases h
      subst hlabel
      rw [String.toList_ofList]
      exact ⟨b, b', hb, hl, hb', hend, rfl⟩
    · cases h
  · rintro ⟨b, b', hb, hl, hb', ht, rfl⟩
    rw [closing_of_label hb hl hb' ht, String.ofList_toList, if_pos rfl]

/-! ## Parts of a line -/

namespace LogicalLine

/-- What is written as it stands: a line, or a heredoc up to the end of its
body. -/
def kept : LogicalLine → List Char
  | whole _ text => text
  | heredoc head body _ _ => head ++ '\n' :: body

/-- The terminator of a heredoc with blanks around its label. -/
def closingLine (b b' : List Char) : LogicalLine → List Char
  | whole _ _ => []
  | heredoc _ _ label _ => b ++ (label.toList ++ (b' ++ ['\n']))

/-- What holds of every line that was read. -/
structure Proper (l : LogicalLine) : Prop where
  flush : Flush l.kept
  ended : ∃ m, l.kept = m ++ ['\n']
  labelled : ∀ head body label opens, l = .heredoc head body label opens →
    IsLabel label.toList
  shape_ne : ∀ shape text, l = .whole shape text → shape ≠ .heredocIntro

theorem Proper.kept_ne_nil {l : LogicalLine} (h : l.Proper) : l.kept ≠ [] := by
  obtain ⟨m, hm⟩ := h.ended
  rw [hm]
  exact List.append_ne_nil_of_right_ne_nil m (List.cons_ne_nil _ _)

end LogicalLine

theorem shortens_bodyLine (label : String) : Shortens (bodyLine label) := by
  intro s t h
  rw [bodyLine, physicalLine, next_assoc] at h
  exact Shortens.after (Takes.absent.next (cuts_pattern _)) shortens_newline s t h

/-- The body of a heredoc is made of whole lines. -/
theorem taken_afterBody (label : String) (s : List Char) :
    ∃ m, s = m ++ afterBody label s ∧ (m = [] ∨ ∃ n, m = n ++ ['\n']) := by
  unfold afterBody
  fun_induction Reader.skipAll (bodyLine label) s with
  | case1 s h => exact ⟨[], rfl, .inl rfl⟩
  | case2 s t h hlt ih =>
    obtain ⟨m, hm, hend⟩ := ih
    obtain ⟨u, hu, h⟩ := Option.bind_eq_some_iff.1 h
    obtain ⟨k, hk, _⟩ := Takes.absent (p := fun _ => True) _ _ hu
    obtain ⟨v, hv, h⟩ := Option.bind_eq_some_iff.1 h
    obtain ⟨n, hn, _⟩ := cuts_pattern _ _ _ hv
    have hline : s = k ++ (n ++ ['\n']) ++ t := by
      rw [hk, hn, newline_eq_some h]
      simp
    refine ⟨k ++ (n ++ ['\n']) ++ m, ?_, .inr ?_⟩
    · rw [List.append_assoc, ← hm]
      exact hline
    · rcases hend with rfl | ⟨n', rfl⟩
      · exact ⟨k ++ n, by simp⟩
      · exact ⟨k ++ (n ++ ['\n']) ++ n', by simp⟩
  | case3 s t h hlt => exact absurd (shortens_bodyLine label s t h) hlt

/-- A line that was read is a part of the text. -/
theorem readAs_eq_some {shape : LineShape} {s r : List Char} {l : LogicalLine}
    (h : readAs shape s = some (l, r)) (hs : Flush s) :
    l.Proper ∧ l.shape = shape ∧ ∃ b b', Blanks b ∧ Blanks b' ∧
      s = l.kept ++ (l.closingLine b b' ++ r) := by
  by_cases hshape : shape = .heredocIntro
  · subst hshape
    obtain ⟨hd, hread, heq⟩ := Option.map_eq_some_iff.1 h
    cases heq
    obtain ⟨head, hhead, hbody⟩ := Option.bind_eq_some_iff.1 hread
    obtain ⟨t, ht, hsuffix⟩ := suffix_of_readHead hhead
    obtain ⟨rfl, hrest, hafter, _, u, hu, hend⟩ := readBody_eq_some hbody
    obtain ⟨b, b', hb, hlabel, hb', _, hclosing⟩ := closing_eq_some.1 hu
    obtain ⟨m, hm, hlines⟩ := taken_afterBody hd.label hd.body
    obtain ⟨k, hk⟩ := hsuffix.trans (Takes.suffix cuts_beforeLabel ht)
    rw [← hafter] at hm
    -- The introducing line is `k` and the body is `m`.
    have hkept : taken hd.body hd.afterBody = m := by
      rw [hm, taken_append_self]
    have htaken : taken s hd.rest = k := by
      rw [← hk, taken_append_self]
    rw [htaken, hkept]
    refine ⟨⟨?_, ?_, ?_, nofun⟩, rfl, b, b', hb, hb', ?_⟩
    · intro c hc
      refine hs c ?_
      rw [← hk, hrest]
      cases k with
      | nil => exact hc
      | cons d k => exact hc
    · rcases hlines with rfl | ⟨n, rfl⟩
      · exact ⟨k, rfl⟩
      · exact ⟨k ++ '\n' :: n, by simp [LogicalLine.kept]⟩
    · rintro _ _ _ _ ⟨⟩
      exact hlabel
    · rw [← hk, hrest, hm, hclosing, hend]
      simp [LogicalLine.kept, LogicalLine.closingLine]
  · rw [readAs_of_ne hshape] at h
    obtain ⟨u, hu, heq⟩ := Option.map_eq_some_iff.1 h
    cases heq
    obtain ⟨f, hf, heq⟩ := lineOf_eq_next shape
    rw [heq] at hu
    obtain ⟨v, hv, hnewline⟩ := Option.bind_eq_some_iff.1 hu
    obtain ⟨m, hm, _⟩ := hf s v hv
    rw [hm, newline_eq_some hnewline] at hs ⊢
    have htaken : taken (m ++ '\n' :: r) r = m ++ ['\n'] := by
      have hsplit : m ++ '\n' :: r = m ++ ['\n'] ++ r := by simp
      rw [hsplit, taken_append_self]
    rw [htaken]
    refine ⟨⟨?_, ⟨m, rfl⟩, nofun, ?_⟩, rfl, [], [], blanks_nil, blanks_nil, ?_⟩
    · intro c hc
      refine hs c ?_
      cases m with
      | nil => exact hc
      | cons d m => exact hc
    · rintro _ _ ⟨⟩
      exact hshape
    · simp [LogicalLine.kept, LogicalLine.closingLine]

theorem readLine_eq_some {s r : List Char} {l : LogicalLine}
    (h : readLine s = some (l, r)) (hs : Flush s) :
    l.Proper ∧ ∃ b b', Blanks b ∧ Blanks b' ∧
      s = l.kept ++ (l.closingLine b b' ++ r) := by
  obtain ⟨shape, _, h⟩ := List.exists_of_findSome?_eq_some h
  obtain ⟨hl, _, h⟩ := readAs_eq_some h hs
  exact ⟨hl, h⟩

/-! ## What is written -/

def levels (unit : String) (k : Nat) : List Char :=
  (List.replicate k unit.toList).flatten

theorem blanks_levels {unit : String} (h : Blanks unit.toList) (k : Nat) :
    Blanks (levels unit k) := by
  intro c hc
  obtain ⟨s, hs, hc⟩ := List.mem_flatten.1 hc
  exact h c ((List.eq_of_mem_replicate hs) ▸ hc)

theorem toList_indentation (i : Indenter) (depth : Int) :
    (i.indentation depth).toList = levels i.unit depth.toNat := by
  simp [Indenter.indentation, levels, List.flatMap_def]

/-- A text is written behind some levels, or none if it is blank. -/
theorem toList_render (i : Indenter) (depth : Int) (text : String) :
    ∃ k, (i.render depth text).toList = levels i.unit k ++ text.toList ∧
      (Indenter.isBlankLine text = true → k = 0) := by
  unfold Indenter.render
  split
  · exact ⟨0, rfl, fun _ => rfl⟩
  · rename_i h
    refine ⟨depth.toNat, ?_, fun h' => absurd h' h⟩
    rw [String.toList_append, toList_indentation]

theorem toList_emitAs (shape : LineShape) (text : String) (i : Indenter) :
    ∃ k, (emitAs shape text i).1.toList = levels i.unit k ++ text.toList ∧
      (Indenter.isBlankLine text = true → k = 0) := by
  cases shape <;> exact toList_render i _ text

theorem isBlankLine_ofList {s : List Char} (h : ∀ c ∈ s, c = '\n' ∨ c = '\r') :
    Indenter.isBlankLine (String.ofList s) = true := by
  simpa [Indenter.isBlankLine] using h

/-- What is written for a line is the line with other blanks. A line of line
ends only gets none in front. -/
theorem emit_eq (l : LogicalLine) (i : Indenter) : ∃ k k',
    (l.emit i).1.toList
      = levels i.unit k ++ (l.kept ++ l.closingLine (levels i.unit k') []) ∧
    ((∀ c ∈ l.kept, c = '\n' ∨ c = '\r') → k = 0) := by
  cases l with
  | whole shape text =>
    obtain ⟨k, hk, hblank⟩ := toList_emitAs shape (String.ofList text) i
    refine ⟨k, 0, ?_, fun h => hblank (isBlankLine_ofList h)⟩
    rw [LogicalLine.emit, hk, String.toList_ofList]
    simp [LogicalLine.kept, LogicalLine.closingLine]
  | heredoc head body label opens =>
    obtain ⟨k, hk, hblank⟩ := toList_render i i.depth (String.ofList head)
    obtain ⟨k', hk', _⟩ := toList_render i i.depth label
    refine ⟨k, k', ?_, fun h => hblank (isBlankLine_ofList fun c hc =>
      h c (List.mem_append_left _ hc))⟩
    simp [LogicalLine.emit, Indenter.emitHeredoc, hk, hk', LogicalLine.kept,
      LogicalLine.closingLine]

theorem unit_emitAs (shape : LineShape) (text : String) (i : Indenter) :
    (emitAs shape text i).2.unit = i.unit := by
  cases shape <;> rfl

theorem unit_emit (l : LogicalLine) (i : Indenter) :
    (l.emit i).2.unit = i.unit := by
  cases l with
  | whole shape text => exact unit_emitAs shape _ i
  | heredoc head body label opens => cases opens <;> rfl

/-- Writing a line does not look at what was written before. -/
theorem output_emit (l : LogicalLine) (i : Indenter) :
    (l.emit i).2.output = i.output := by
  cases l with
  | whole shape text => cases shape <;> rfl
  | heredoc head body label opens => cases opens <;> rfl

end RubyIndent.Ruby
