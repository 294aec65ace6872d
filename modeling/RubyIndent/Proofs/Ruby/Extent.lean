import RubyIndent.Proofs.Ruby.Heredoc

/-!
# How far a reading goes

What the readers of a line take, and how the ways to skip over a line compare.
Tokens up to a tail are also tokens up to the end of the line, so the plain
reading of a line that starts a heredoc reaches at least as far as the reading
of its introducing line (`length_le_body`). That is why a heredoc that was
looked for in vain is never looked for again at the same place.
-/

namespace RubyIndent.Ruby

open RubyIndent.Peg RubyIndent.Text RubyIndent.Pattern

abbrev Cuts (f : Reader) : Prop :=
  Takes (fun _ => True) f

abbrev StaysOnLine (f : Reader) : Prop :=
  Takes (· ≠ '\n') f

theorem cuts_pattern (p : Pattern) : Cuts (.pattern p) :=
  Takes.pattern (over_true _)

theorem cuts_literal (w : String) : Cuts (.literal w) :=
  Takes.literal fun _ _ => trivial

theorem StaysOnLine.pattern {p : Pattern} (h : avoids '\n' p.regex = true) :
    StaysOnLine (.pattern p) :=
  Takes.pattern (over_of_avoids h)

theorem Takes.suffix {p : Char → Prop} {f : Reader} (hf : Takes p f)
    {s t : List Char} (h : f s = some t) : t <:+ s := by
  obtain ⟨m, rfl, _⟩ := hf s t h
  exact List.suffix_append m t

theorem cuts_of_suffix {f : Reader} (h : ∀ s t, f s = some t → t <:+ s) :
    Cuts f := by
  intro s t hs
  obtain ⟨m, rfl⟩ := h s t hs
  exact ⟨m, rfl, fun _ _ => trivial⟩

/-! ## Strings -/

/-- What is left is an end also of a longer text. -/
theorem suffix_cons₂ {c d : Char} {s t : List Char} (h : t <:+ s) :
    t <:+ c :: d :: s :=
  (h.trans (List.suffix_cons d s)).trans (List.suffix_cons c _)

theorem cuts_afterSq : Cuts afterSq := by
  refine cuts_of_suffix fun s t h => ?_
  fun_induction afterSq s with
  | case1 | case3 => cases h
  | case2 s =>
    cases h
    exact List.suffix_cons _ _
  | case4 c s ih => exact suffix_cons₂ (ih h)
  | case5 c s _ _ _ ih => exact (ih h).trans (List.suffix_cons c s)

/-- What is left behind an end, or else everything. -/
theorem suffix_getD {o : Option (List Char)} {s : List Char}
    (h : ∀ t, o = some t → t <:+ s) : o.getD s <:+ s := by
  cases o with
  | none => exact List.suffix_refl s
  | some t => exact h t rfl

theorem cuts_strings : Cuts afterDq ∧ Cuts afterBrace := by
  have both : (∀ s t, afterDq s = some t → t <:+ s) ∧
      ∀ s t, afterBrace s = some t → t <:+ s := by
    apply afterDq.mutual_induct (fun s => ∀ t, afterDq s = some t → t <:+ s)
      (fun s => ∀ t, afterBrace s = some t → t <:+ s)
    case case1 | case3 | case7 => intro t h; simp [afterDq, afterBrace] at h
    case case2 | case8 =>
      intro s t h
      simp only [afterDq, afterBrace, Option.some.injEq] at h
      exact h ▸ List.suffix_cons _ _
    case case4 =>
      intro c s ih t h
      rw [afterDq] at h
      exact suffix_cons₂ (ih t h)
    case case5 =>
      intro s hbrace ih t h
      rw [afterDq] at h
      rw [within_afterBrace] at ih h
      exact suffix_cons₂ ((ih t h).trans (suffix_getD hbrace))
    case case6 =>
      intro c s h₁ h₂ h₃ h₄ ih t h
      rw [afterDq.eq_6 c s h₁ h₂ h₃ h₄] at h
      exact (ih t h).trans (List.suffix_cons c s)
    case case9 =>
      intro s ih t h
      rw [afterBrace] at h
      rw [within_afterSq] at ih h
      exact ((ih t h).trans (suffix_getD fun _ => Takes.suffix cuts_afterSq)).trans
        (List.suffix_cons _ s)
    case case10 =>
      intro s hdq ih t h
      rw [afterBrace] at h
      rw [within_afterDq] at ih h
      exact ((ih t h).trans (suffix_getD hdq)).trans (List.suffix_cons _ s)
    case case11 =>
      intro s hbrace ih t h
      rw [afterBrace] at h
      rw [within_afterBrace] at ih h
      exact ((ih t h).trans (suffix_getD hbrace)).trans (List.suffix_cons _ s)
    case case12 =>
      intro s ih t h
      rw [afterBrace] at h
      exact suffix_cons₂ (ih t h)
    case case13 =>
      intro c s h₁ h₂ h₃ h₄ h₅ ih t h
      rw [afterBrace.eq_7 c s h₁ h₂ h₃ h₄ h₅] at h
      exact (ih t h).trans (List.suffix_cons c s)
  exact ⟨cuts_of_suffix both.1, cuts_of_suffix both.2⟩

/-! ## Lines -/

theorem staysOnLine_spacing : StaysOnLine spacing := by
  rintro s _ ⟨⟩
  refine ⟨s.takeWhile isSpacing, List.takeWhile_append_dropWhile.symm, ?_⟩
  rintro c hc rfl
  exact Bool.false_ne_true (List.all_eq_true.1 List.all_takeWhile _ hc)

theorem staysOnLine_tail {opener : Reader} (h : StaysOnLine opener) :
    StaysOnLine (tail opener) :=
  h.next (staysOnLine_spacing.next
    ((Takes.optional (StaysOnLine.pattern rfl)).next Takes.present))

theorem staysOnLine_anyTail : StaysOnLine anyTail :=
  Takes.orElse
    (staysOnLine_tail
      (Takes.orElse (StaysOnLine.pattern rfl) (StaysOnLine.pattern rfl)))
    (staysOnLine_tail (StaysOnLine.pattern rfl))

theorem Takes.weaken {p q : Char → Prop} {f : Reader} (hf : Takes p f)
    (h : ∀ c, p c → q c) : Takes q f := by
  intro s t hs
  obtain ⟨m, rfl, hm⟩ := hf s t hs
  exact ⟨m, rfl, fun c hc => h c (hm c hc)⟩

theorem StaysOnLine.cuts {f : Reader} (hf : StaysOnLine f) : Cuts f :=
  Takes.weaken hf fun _ _ => trivial

theorem cuts_token {word : Reader} (h : Cuts word) : Cuts (token word) :=
  (cuts_pattern _).orElse ((cuts_pattern _).orElse
    (((cuts_literal _).next cuts_strings.1).orElse
      (((cuts_literal _).next cuts_afterSq).orElse h)))

theorem cuts_wordBefore (stop : Reader) : Cuts (wordBefore stop) :=
  Takes.absent.next (cuts_pattern _)

theorem cuts_upToTail : Cuts upToTail :=
  Takes.many (cuts_token (cuts_wordBefore _))

theorem cuts_upToStop : Cuts upToStop :=
  Takes.many (cuts_token (cuts_wordBefore _))

theorem cuts_upToEnd : Cuts upToEnd :=
  Takes.many (cuts_token (cuts_pattern _))

/-! ## Tokens of one kind and of another -/

/-- What some rounds take, more rounds take as well. -/
theorem skipAll_skipAll {f g : Reader} (hf : Cuts f)
    (h : ∀ s t, f s = some t → g s = some t) (s : List Char) :
    Reader.skipAll g (Reader.skipAll f s) = Reader.skipAll g s := by
  fun_induction Reader.skipAll f s with
  | case1 s _ => rfl
  | case2 s t hs hlt ih => rw [ih, skipAll_some (h s t hs) hlt]
  | case3 s t hs hle =>
    have hsuffix := Takes.suffix hf hs
    rw [hsuffix.eq_of_length_le (Nat.le_of_not_lt hle)]

theorem token_mono {word word' : Reader}
    (h : ∀ s t, word s = some t → word' s = some t) :
    ∀ s t, token word s = some t → token word' s = some t := by
  have step : ∀ {f g g' : Reader}, (∀ s t, g s = some t → g' s = some t) →
      ∀ s t, Reader.orElse f g s = some t → Reader.orElse f g' s = some t := by
    intro f g g' hg s t hs
    rcases Option.or_eq_some_iff.1 hs with hs | ⟨hn, hs⟩
    · exact Option.or_eq_some_iff.2 (.inl hs)
    · exact Option.or_eq_some_iff.2 (.inr ⟨hn, hg s t hs⟩)
  exact step (step (step (step h)))

theorem wordBefore_some {stop : Reader} {s t : List Char}
    (h : wordBefore stop s = some t) :
    Reader.pattern Token.wordOrChar s = some t := by
  obtain ⟨u, hu, ht⟩ := Option.bind_eq_some_iff.1 h
  unfold Reader.absent at hu
  split at hu
  · cases hu
  · cases hu
    exact ht

def lineToken : Reader := token (.pattern Token.wordOrChar)

/-- The tokens before a stop are among the tokens up to the end of the line. -/
theorem skipAll_lineToken (stop : Reader) (s : List Char) :
    Reader.skipAll lineToken
        (Reader.skipAll (token (wordBefore stop)) s)
      = Reader.skipAll lineToken s :=
  skipAll_skipAll (cuts_token (cuts_wordBefore stop))
    (token_mono fun _ _ => wordBefore_some) s

/-! ## Words -/

def isWordChar (c : Char) : Bool :=
  ('A' ≤ c && c ≤ 'Z') || ('a' ≤ c && c ≤ 'z') || ('0' ≤ c && c ≤ '9') || c = '_'

/-- A character of a heredoc's label behind its first one. -/
def isLabelChar (c : Char) : Bool :=
  ('A' ≤ c && c ≤ 'Z') || ('0' ≤ c && c ≤ '9') || c = '_'

theorem contains_oneOf (ranges : List (Char × Char)) (c : Char) :
    CharSet.contains ⟨ranges, false⟩ c
      = ranges.any fun r => r.1 ≤ c && c ≤ r.2 := by
  simp [CharSet.contains]

theorem pattern_wordOrChar (c : Char) (s : List Char) :
    Reader.pattern Token.wordOrChar (c :: s)
      = if isWordChar c then some (s.dropWhile isWordChar)
        else if c = '\n' ∨ c = '\"' ∨ c = '\'' then none else some s := by
  have hset : CharSet.contains
      ⟨[('A', 'Z'), ('a', 'z'), ('0', '9'), ('_', '_')], false⟩
        = isWordChar := by
    funext c
    simp [contains_oneOf, between_self, isWordChar, Bool.or_assoc]
  rw [Reader.pattern, Token.wordOrChar]
  simp only [Regex.strip, Token.oneOf, Token.noneOf, Token.only, hset,
    repeatFrom_one, contains_noneOf, List.any_cons, List.any_nil, between_self]
  cases isWordChar c with
  | true => rfl
  | false =>
    by_cases h : c = '\n' ∨ c = '\"' ∨ c = '\''
    · rcases h with rfl | rfl | rfl <;> rfl
    · simp_all

theorem pattern_heredocLabel (c : Char) (s : List Char) :
    Reader.pattern Token.heredocLabel (c :: s)
      = if 'A' ≤ c ∧ c ≤ 'Z' then some (s.dropWhile isLabelChar) else none := by
  have hset : CharSet.contains
      ⟨[('A', 'Z'), ('0', '9'), Token.only '_'], false⟩ = isLabelChar := by
    funext c
    simp [contains_oneOf, Token.only, between_self, isLabelChar, Bool.or_assoc]
  have hstar := strip_star_one ⟨[('A', 'Z'), ('0', '9'), Token.only '_'], false⟩ s
  rw [hset] at hstar
  rw [Reader.pattern, Token.heredocLabel, Regex.strip, Token.oneOf, Regex.strip,
    Token.oneOf, hstar, contains_oneOf]
  simp

/-- A character that starts no escape, comment or literal is read as a word. -/
theorem token_word {c : Char} (hc : c ≠ '\\' ∧ c ≠ '#' ∧ c ≠ '\"' ∧ c ≠ '\'')
    (word : Reader) (s : List Char) : token word (c :: s) = word (c :: s) := by
  obtain ⟨hb, hh, hd, hs⟩ := hc
  simp [token, Reader.orElse, comment, dqString, sqString, Reader.next,
    Reader.literal, Reader.pattern, Token.escape, Token.comment, Token.char,
    Regex.strip, CharSet.contains, CharSet.single, between_self,
    hb, hh, hd.symm, hs.symm]

/-- Skipping over a character that is a token of its own. -/
theorem skipAll_lineToken_cons {c : Char}
    (hc : c ≠ '\\' ∧ c ≠ '#' ∧ c ≠ '\"' ∧ c ≠ '\'')
    (hw : isWordChar c = false) (hn : c ≠ '\n') (s : List Char) :
    Reader.skipAll lineToken (c :: s) = Reader.skipAll lineToken s := by
  refine skipAll_some ?_ (Nat.lt_succ_self _)
  rw [lineToken, token_word hc, pattern_wordOrChar, if_neg (by simp [hw]),
    if_neg (by simp [hn, hc])]

/-- Skipping over a word. -/
theorem skipAll_lineToken_word {c : Char} (hc : isWordChar c = true)
    (s : List Char) :
    Reader.skipAll lineToken (c :: s)
      = Reader.skipAll lineToken (s.dropWhile isWordChar) := by
  refine skipAll_some ?_ (Nat.lt_succ_of_le (List.dropWhile_sublist _).length_le)
  have hspecial : c ≠ '\\' ∧ c ≠ '#' ∧ c ≠ '\"' ∧ c ≠ '\'' := by
    refine ⟨?_, ?_, ?_, ?_⟩ <;> rintro rfl <;> cases hc
  rw [lineToken, token_word hspecial, pattern_wordOrChar, if_pos hc]

theorem strip_char (a c : Char) (k : Rest) (s : List Char) :
    (Token.char a).strip k (c :: s) = if c = a then k s else none :=
  strip_single a c k s

/-- The start of a heredoc, character by character. -/
theorem pattern_heredocStart {s t : List Char}
    (h : Reader.pattern Token.heredocStart s = some t) :
    s = '<' :: '<' :: t ∨ s = '<' :: '<' :: '-' :: t ∨
      s = '<' :: '<' :: '~' :: t := by
  rcases s with _ | ⟨a, s⟩
  · cases h
  rw [Reader.pattern, Token.heredocStart, Regex.strip, strip_char] at h
  split at h
  · rename_i ha
    subst ha
    rcases s with _ | ⟨b, s⟩
    · cases h
    rw [Regex.strip, strip_char] at h
    split at h
    · rename_i hb
      subst hb
      rcases s with _ | ⟨c, s⟩
      · cases h
        exact .inl rfl
      simp only [Regex.strip, Token.oneOf, Token.only, contains_oneOf,
        List.any_cons, List.any_nil, between_self, Bool.or_false,
        Bool.or_eq_true, decide_eq_true_eq, Greed.pick] at h
      split at h
      · rename_i hc
        cases h
        rcases hc with rfl | rfl
        · exact .inr (.inl rfl)
        · exact .inr (.inr rfl)
      · cases h
        exact .inl rfl
    · cases h
  · cases h

/-- The plain reading of a line goes on behind the start of a heredoc. -/
theorem skipAll_heredocStart {s t : List Char}
    (h : Reader.pattern Token.heredocStart s = some t) :
    Reader.skipAll lineToken s = Reader.skipAll lineToken t := by
  have lt : ∀ s, Reader.skipAll lineToken ('<' :: s)
      = Reader.skipAll lineToken s :=
    skipAll_lineToken_cons (by decide) (by decide) (by decide)
  rcases pattern_heredocStart h with rfl | rfl | rfl
  · rw [lt, lt]
  · rw [lt, lt, skipAll_lineToken_cons (by decide) (by decide) (by decide)]
  · rw [lt, lt, skipAll_lineToken_cons (by decide) (by decide) (by decide)]

/-- The plain reading of a line goes on behind the start of a heredoc on it. -/
theorem skipAll_beforeLabel {s t : List Char} (h : beforeLabel s = some t) :
    Reader.skipAll lineToken s = Reader.skipAll lineToken t := by
  unfold beforeLabel Reader.next at h
  obtain ⟨u, hu, ht⟩ := Option.bind_eq_some_iff.1 h
  cases hu
  rw [← skipAll_heredocStart ht, skipAll_lineToken]

theorem cuts_lineToken : Cuts lineToken :=
  cuts_token (cuts_pattern _)

/-! ## A heredoc within a line -/

theorem isWordChar_of_isLabelChar {c : Char} (h : isLabelChar c = true) :
    isWordChar c = true := by
  simp only [isLabelChar, isWordChar, Bool.or_eq_true] at h ⊢
  rcases h with (h | h) | h
  · exact .inl (.inl (.inl h))
  · exact .inl (.inr h)
  · exact .inr h

/-- A word that starts with a label ends where the rest of the word does. -/
theorem dropWhile_dropWhile_label (s : List Char) :
    (s.dropWhile isLabelChar).dropWhile isWordChar = s.dropWhile isWordChar := by
  induction s with
  | nil => rfl
  | cons c s ih =>
    cases h : isLabelChar c with
    | true => simp only [List.dropWhile_cons, h, isWordChar_of_isLabelChar h,
        if_true, ih]
    | false => simp [List.dropWhile_cons, h]

theorem skipAll_lineToken_dropWhile (s : List Char) :
    Reader.skipAll lineToken (s.dropWhile isWordChar)
      = Reader.skipAll lineToken s := by
  cases s with
  | nil => rfl
  | cons c s =>
    cases hc : isWordChar c with
    | true => rw [List.dropWhile_cons, if_pos hc, skipAll_lineToken_word hc]
    | false => rw [List.dropWhile_cons, if_neg (by simp [hc])]

/-- The plain reading goes on behind a label, which starts a word. -/
theorem skipAll_label {s t : List Char}
    (h : Reader.pattern Token.heredocLabel s = some t) :
    Reader.skipAll lineToken s = Reader.skipAll lineToken t := by
  rcases s with _ | ⟨c, s⟩
  · cases h
  rw [pattern_heredocLabel] at h
  split at h
  · rename_i hc
    cases h
    have hword : isWordChar c = true := by simp [isWordChar, hc]
    rw [skipAll_lineToken_word hword, ← dropWhile_dropWhile_label,
      skipAll_lineToken_dropWhile]
  · cases h

/-- The plain reading goes on behind the tokens of an introducing line. -/
theorem skipAll_introducing {s r t u : List Char} (hr : beforeLabel s = some r)
    (ht : Reader.pattern Token.heredocLabel r = some t) (hu : upToTail t = some u) :
    Reader.skipAll lineToken s = Reader.skipAll lineToken u := by
  have hu : Reader.skipAll (token (wordBefore anyTail)) t = u := Option.some.inj hu
  rw [skipAll_beforeLabel hr, skipAll_label ht, ← skipAll_lineToken anyTail t, hu]

/-- Of two ends of a text, the one that starts with a newline is not the longer
one if only characters of the line stand before the other. -/
theorem length_le_of_newline {s t m e : List Char} (hs : s = m ++ t)
    (hm : ∀ c ∈ m, c ≠ '\n') (he : '\n' :: e <:+ s) :
    ('\n' :: e).length ≤ t.length := by
  refine Nat.le_of_not_lt fun hlt => ?_
  obtain ⟨k, hk⟩ := he
  rw [hs] at hk
  rcases List.append_eq_append_iff.1 hk with ⟨a, ha, hat⟩ | ⟨a, _, hat⟩
  · rcases a with _ | ⟨c, a⟩
    · rw [List.nil_append] at hat
      rw [hat] at hlt
      exact Nat.lt_irrefl _ hlt
    · cases hat
      exact hm '\n' (by simp [ha]) rfl
  · rw [hat, List.length_append] at hlt
    omega

theorem newline_eq_some {s t : List Char} (h : newline s = some t) :
    s = '\n' :: t := by
  rcases s with _ | ⟨c, s⟩
  · cases h
  by_cases hc : c = '\n'
  · subst hc
    cases h
    rfl
  · have hne : '\n' ≠ c := fun h => hc h.symm
    simp [newline, Reader.literal, hne] at h

/-- A plain line ends behind the start of every heredoc on it. -/
theorem length_lt_beforeLabel {s t e : List Char} (h : beforeLabel s = some t)
    (he : Reader.next upToEnd newline s = some e) : e.length < t.length := by
  have hend : Reader.skipAll lineToken s = '\n' :: e := newline_eq_some he
  rw [skipAll_beforeLabel h] at hend
  obtain ⟨m, hm, _⟩ := Takes.skipAll cuts_lineToken t
  rw [hm, hend, List.length_append, List.length_cons]
  omega

/-- A plain line does not end before the introducing line of a heredoc that
starts on it. -/
theorem length_le_body {s b e : List Char} {head : HeredocHead}
    (h : readHead s = some head) (hb : newline head.rest = some b)
    (he : Reader.next upToEnd newline s = some e) : e.length ≤ b.length := by
  obtain ⟨r, t, u, hr, ht, hu, rfl⟩ := readHead_eq_some h
  have hend : Reader.skipAll lineToken s = '\n' :: e := newline_eq_some he
  rw [skipAll_introducing hr ht hu] at hend
  obtain ⟨m, hm, _⟩ := Takes.skipAll cuts_lineToken u
  have hsuffix : '\n' :: e <:+ u := ⟨m, by rw [← hend, ← hm]⟩
  have hb := newline_eq_some hb
  dsimp only at hb
  have hle : ('\n' :: e).length ≤ ('\n' :: b).length := by
    rw [← hb]
    cases htail : anyTail u with
    | none => exact hsuffix.length_le
    | some x =>
      obtain ⟨m, hm, hline⟩ := staysOnLine_anyTail _ _ htail
      exact length_le_of_newline hm hline hsuffix
  exact Nat.le_of_succ_le_succ hle

/-! ## Whole lines and heredocs -/

theorem cuts_newline : Cuts newline :=
  cuts_literal _

theorem shortens_newline : Shortens newline :=
  shortens_literal (by decide)

theorem cuts_spacing : Cuts spacing :=
  StaysOnLine.cuts staysOnLine_spacing

theorem cuts_anyTail : Cuts anyTail :=
  StaysOnLine.cuts staysOnLine_anyTail

theorem cuts_tail {opener : Reader} (h : Cuts opener) : Cuts (tail opener) :=
  h.next (cuts_spacing.next
    ((Takes.optional (cuts_pattern _)).next Takes.present))

theorem cuts_keyword (word : String) : Cuts (keyword word) :=
  (cuts_literal _).next (Takes.absent.next Takes.absent)

theorem cuts_keywords (words : List String) : Cuts (keywords words) := by
  induction words with
  | nil => exact fun _ _ h => nomatch h
  | cons word words ih => exact (cuts_keyword word).orElse ih

theorem cuts_opening : ∀ shape, Cuts (opening shape)
  | .indentOpen | .dual => cuts_keywords _
  | .outdent => cuts_keyword _
  | .bracketSameLine =>
    ((cuts_literal _).next (cuts_pattern _)).orElse
      ((cuts_literal _).next (cuts_pattern _))
  | .bracketOpen | .bracketClose => (cuts_literal _).orElse (cuts_literal _)
  | .blockOpener | .bracketTail | .heredocIntro | .plain =>
    fun _ _ h => nomatch h

theorem next_assoc (f g h : Reader) :
    Reader.next f (.next g h) = .next (.next f g) h := by
  funext s
  exact (Option.bind_assoc (f s) g h).symm

/-- A line is an initial part of the text, up to a newline. -/
theorem lineOf_eq_next (shape : LineShape) : ∃ f, Cuts f ∧
    lineOf shape = Reader.next f newline := by
  cases shape with
  | blockOpener =>
    exact ⟨.next upToStop blockTail, cuts_upToStop.next
      (cuts_tail ((cuts_pattern _).orElse (cuts_pattern _))), next_assoc ..⟩
  | bracketTail =>
    exact ⟨.next upToStop bracketTail,
      cuts_upToStop.next (cuts_tail (cuts_pattern _)), next_assoc ..⟩
  | heredocIntro => exact ⟨fun _ => none, fun _ _ h => (nomatch h), rfl⟩
  | plain => exact ⟨upToEnd, cuts_upToEnd, rfl⟩
  | _ =>
    exact ⟨.next (opening _) upToTail, (cuts_opening _).next cuts_upToTail,
      next_assoc ..⟩

theorem cuts_terminator : Cuts terminator :=
  cuts_spacing.next ((cuts_pattern _).next (cuts_spacing.next Takes.present))

theorem cuts_closing (label : String) : Cuts (closing label) := by
  intro s t h
  obtain ⟨u, hu, h⟩ := Option.bind_eq_some_iff.1 h
  split at h
  · cases h
    exact cuts_terminator s _ hu
  · cases h

theorem cuts_bodyLine (label : String) : Cuts (bodyLine label) :=
  Takes.absent.next ((cuts_pattern _).next cuts_newline)

theorem cuts_beforeLabel : Cuts beforeLabel :=
  cuts_upToStop.next (cuts_pattern _)

/-- The introducing line ends in the text. -/
theorem suffix_of_readHead {s : List Char} {head : HeredocHead}
    (h : readHead s = some head) : ∃ t, beforeLabel s = some t ∧
      head.rest <:+ t := by
  obtain ⟨t, t', u, ht, ht', hu, rfl⟩ := readHead_eq_some h
  refine ⟨t, ht, ?_⟩
  have htail : (anyTail u).getD u <:+ u :=
    suffix_getD fun _ => Takes.suffix cuts_anyTail
  exact (htail.trans (Takes.suffix cuts_upToTail hu)).trans
    (Takes.suffix (cuts_pattern _) ht')

/-- The parts of a heredoc follow each other. -/
theorem readBody_eq_some {head : HeredocHead} {h : Heredoc}
    (hb : readBody head = some h) : h.toHeredocHead = head ∧
      head.rest = '\n' :: h.body ∧ h.afterBody = afterBody head.label h.body ∧
      h.afterBody <:+ h.body ∧
      ∃ t, closing head.label h.afterBody = some t ∧ t = '\n' :: h.afterAll := by
  obtain ⟨body, hbody, hb⟩ := Option.bind_eq_some_iff.1 hb
  obtain ⟨afterAll, hall, rfl⟩ := Option.map_eq_some_iff.1 hb
  obtain ⟨t, ht, hall⟩ := Option.bind_eq_some_iff.1 hall
  refine ⟨rfl, newline_eq_some hbody, rfl, ?_, t, ht, newline_eq_some hall⟩
  obtain ⟨m, hm, _⟩ := Takes.skipAll (cuts_bodyLine head.label) body
  exact ⟨m, hm.symm⟩

/-- What is left behind a heredoc is shorter than what its body starts with. -/
theorem length_lt_of_readBody {head : HeredocHead} {h : Heredoc}
    (hb : readBody head = some h) : h.afterAll.length < h.body.length := by
  obtain ⟨_, _, _, hbody, t, ht, hnl⟩ := readBody_eq_some hb
  have hclosing := (Takes.suffix (cuts_closing _) ht).length_le
  have hle := hbody.length_le
  rw [hnl, List.length_cons] at hclosing
  omega

end RubyIndent.Ruby
