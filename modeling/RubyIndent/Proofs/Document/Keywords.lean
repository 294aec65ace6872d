import RubyIndent.Proofs.Document.Acceptance
import RubyIndent.Proofs.Document.Classification
import RubyIndent.Proofs.Document.HeredocBodies

/-!
# Lines that start with a keyword

A keyword is a whole word. The word at the start of a line goes on as long as there
are characters of names, a final `?` or `!` among them, and a line starts with a
keyword if that whole word is one and no hash key (`opening_keyword`). A keyword
alone does not make the shape of a line: the tokens behind it have to lead up to the
newline. Without quotes on the line only a tail can be in their way
(`upToNewline_of_no_tail`).
-/

namespace RubyIndent.Ruby

open RubyIndent.Peg RubyIndent.Text RubyIndent.Pattern

/-! ## The first word -/

/-- A character that continues a name. -/
def isIdentChar (c : Char) : Bool :=
  isWordChar c || c = '?' || c = '!'

/-- The longest name at the start of a text. -/
def firstWord (s : List Char) : String :=
  String.ofList (s.takeWhile isIdentChar)

def behindWord (s : List Char) : List Char :=
  s.dropWhile isIdentChar

/-- One colon, which makes a hash key of the word before it; two do not. -/
def startsKey : List Char → Bool
  | ':' :: ':' :: _ => false
  | ':' :: _ => true
  | _ => false

theorem pattern_identChar (s : List Char) :
    (Reader.pattern Token.identChar s).isSome = s.head?.any isIdentChar := by
  cases s with
  | nil => rfl
  | cons c s =>
    have hset : CharSet.contains ⟨[('A', 'Z'), ('a', 'z'), ('0', '9'), Token.only '_',
        Token.only '?', Token.only '!'], false⟩ c = isIdentChar c := by
      simp [contains_oneOf, Token.only, between_self, isIdentChar, isWordChar,
        Bool.or_assoc]
    rw [Reader.pattern, Token.identChar, Token.oneOf, Regex.strip, hset]
    cases hc : isIdentChar c <;> simp [hc]

theorem isSome_colon (s : List Char) :
    (Reader.next (.literal ":") (.absent (.literal ":")) s).isSome = startsKey s := by
  rcases s with _ | ⟨c, _ | ⟨d, s⟩⟩
  · rfl
  · by_cases hc : c = ':'
    · subst hc
      rfl
    · simp [Reader.next, Reader.literal, startsKey, hc, Ne.symm hc]
  · by_cases hc : c = ':'
    · subst hc
      by_cases hd : d = ':'
      · subst hd
        rfl
      · simp [Reader.next, Reader.literal, Reader.absent, startsKey, hd, Ne.symm hd]
    · simp [Reader.next, Reader.literal, startsKey, hc, Ne.symm hc]

/-! ## Keywords are whole words -/

/-- A text that goes on with a name and no further character of one. -/
theorem firstWord_eq_iff {word : String}
    (hword : ∀ c ∈ word.toList, isIdentChar c = true) (s : List Char) :
    firstWord s = word ↔
      ∃ t, s = word.toList ++ t ∧ t.head?.any isIdentChar = false := by
  constructor
  · rintro rfl
    refine ⟨behindWord s, ?_, ?_⟩
    · rw [firstWord, String.toList_ofList]
      exact List.takeWhile_append_dropWhile.symm
    · have hstop := List.head?_dropWhile_not isIdentChar s
      rw [behindWord]
      cases h : (s.dropWhile isIdentChar).head? with
      | none => rfl
      | some c =>
        rw [h] at hstop
        simpa using hstop
  · rintro ⟨t, rfl, ht⟩
    have hstop : t.takeWhile isIdentChar = [] := by
      cases t with
      | nil => rfl
      | cons c t => exact List.takeWhile_cons_of_neg (by simpa using ht)
    rw [firstWord, List.takeWhile_append_of_pos hword, hstop, List.append_nil,
      String.ofList_toList]

/-- A keyword is read where the first word is that keyword and no hash key. -/
theorem keyword_eq {word : String} (hword : ∀ c ∈ word.toList, isIdentChar c = true)
    (s : List Char) : keyword word s
      = if firstWord s = word ∧ startsKey (behindWord s) = false
        then some (behindWord s) else none := by
  have behind : ∀ t, t.head?.any isIdentChar = false →
      behindWord (word.toList ++ t) = t := by
    intro t ht
    rw [behindWord, List.dropWhile_append_of_pos hword]
    cases t with
    | nil => rfl
    | cons c t => exact List.dropWhile_cons_of_neg (by simpa using ht)
  unfold keyword Reader.next
  cases hlit : Reader.literal word s with
  | none =>
    rw [if_neg]
    · rfl
    · rintro ⟨h, _⟩
      obtain ⟨t, rfl, _⟩ := (firstWord_eq_iff hword s).1 h
      rw [Reader.literal, isPrefixOf?_eq, if_pos (by simp)] at hlit
      cases hlit
  | some t =>
    have hs := literal_eq_some hlit
    rw [Option.bind_some, Reader.absent, pattern_identChar]
    cases hident : t.head?.any isIdentChar with
    | true =>
      rw [if_pos rfl, Option.bind_none, if_neg]
      rintro ⟨h, _⟩
      obtain ⟨u, hu, hstop⟩ := (firstWord_eq_iff hword s).1 h
      rw [hs] at hu
      obtain rfl := List.append_cancel_left hu
      cases hident.symm.trans hstop
    | false =>
      have hfirst := (firstWord_eq_iff hword s).2 ⟨t, hs, hident⟩
      have hbehind : behindWord s = t := hs ▸ behind t hident
      have hcolon := isSome_colon t
      unfold Reader.next at hcolon
      rw [if_neg (by simp), Option.bind_some, Reader.absent, hcolon, hbehind]
      cases hkey : startsKey t <;> simp [hfirst]

theorem keywords_eq {words : List String}
    (hwords : ∀ word ∈ words, ∀ c ∈ word.toList, isIdentChar c = true)
    (s : List Char) : keywords words s
      = if firstWord s ∈ words ∧ startsKey (behindWord s) = false
        then some (behindWord s) else none := by
  induction words with
  | nil => simp [keywords]
  | cons word words ih =>
    rw [keywords, Reader.orElse, keyword_eq (hwords word List.mem_cons_self),
      ih fun w hw => hwords w (List.mem_cons_of_mem _ hw)]
    by_cases hword : firstWord s = word
    · cases hkey : startsKey (behindWord s) <;> simp [hword]
    · simp [hword]

def keywordShapes : List LineShape :=
  [.indentOpen, .outdent, .dual]

def keywordsOf : LineShape → List String
  | .indentOpen => indentKeywords
  | .outdent => [outdentKeyword]
  | .dual => dualKeywords
  | _ => []

theorem isIdentChar_of_keywordsOf : ∀ shape ∈ keywordShapes,
    ∀ word ∈ keywordsOf shape, ∀ c ∈ word.toList, isIdentChar c = true := by
  have hall : ∀ shape ∈ keywordShapes, ∀ word ∈ keywordsOf shape,
      word.toList.all isIdentChar = true := by decide
  exact fun shape hshape word hword => List.all_eq_true.1 (hall shape hshape word hword)

theorem opening_keyword {shape : LineShape} (h : shape ∈ keywordShapes)
    (s : List Char) : opening shape s
      = if firstWord s ∈ keywordsOf shape ∧ startsKey (behindWord s) = false
        then some (behindWord s) else none := by
  have heq : opening shape s = keywords (keywordsOf shape) s := by
    simp only [keywordShapes, List.mem_cons, List.not_mem_nil, or_false] at h
    rcases h with rfl | rfl | rfl
    · rfl
    · exact Option.or_none.symm
    · rfl
  rw [heq, keywords_eq (isIdentChar_of_keywordsOf shape h)]

/-! ## Behind a keyword -/

/-- The places at which reading over and over starts a round, the last one being
where it stops. -/
def tokenStarts (f : Reader) (s : List Char) : List (List Char) :=
  s :: match f s with
    | none => []
    | some t => if t.length < s.length then tokenStarts f t else [t]
termination_by s.length

theorem skipAll_mem_tokenStarts (f : Reader) (s : List Char) :
    Reader.skipAll f s ∈ tokenStarts f s := by
  fun_induction Reader.skipAll f s with
  | case1 s h => rw [tokenStarts]; exact List.mem_cons_self
  | case2 s t h hlt ih =>
    rw [tokenStarts, h]
    dsimp only
    rw [if_pos hlt]
    exact List.mem_cons_of_mem s ih
  | case3 s t h hle =>
    rw [tokenStarts, h]
    dsimp only
    rw [if_neg hle]
    exact List.mem_cons_of_mem s List.mem_cons_self

/-- Without quotes only a tail keeps the tokens from leading up to the newline. -/
theorem upToNewline_of_no_tail {line below : List Char} (hline : Unquoted line)
    (hstarts : ∀ t ∈ tokenStarts (token (wordBefore anyTail)) (line ++ '\n' :: below),
      anyTail t = none) :
    Reader.next upToTail newline (line ++ '\n' :: below) = some below := by
  have hshort : Shortens (token (wordBefore anyTail)) :=
    shortens_token (shortens_wordBefore _)
  have hstop := skipAll_stops hshort (line ++ '\n' :: below)
  rw [token_of_no_tail (hstarts _ (skipAll_mem_tokenStarts _ _))] at hstop
  have hend : Reader.skipAll (token (wordBefore anyTail)) (line ++ '\n' :: below)
      = '\n' :: below := by
    rw [← skipAll_none hstop, skipAll_lineToken,
      skipAll_unquoted hline (.inr ⟨below, rfl⟩)]
  rw [Reader.next, upToTail, Peg.Reader.many, hend]
  rfl

/-- A keyword behind which the tokens lead up to the newline makes the first shape
that starts with it. -/
theorem readLine_of_keyword {s e : List Char} {shape : LineShape}
    (hshape : keywordShapes.find? (firstWord s ∈ keywordsOf ·) = some shape)
    (hkey : startsKey (behindWord s) = false)
    (hend : Reader.next upToTail newline (behindWord s) = some e) :
    readLine s = some (.whole shape (taken s e), e) := by
  have hread : ∀ other ∈ keywordShapes, readAs other s
      = if firstWord s ∈ keywordsOf other
        then some (.whole other (taken s e), e) else none := by
    intro other hmem
    have hopening : other ∈ openingShapes := by
      revert other
      decide
    rw [readAs_of_opening hopening, opening_keyword hmem]
    by_cases hword : firstWord s ∈ keywordsOf other
    · rw [if_pos ⟨hword, hkey⟩, if_pos hword, Option.bind_some, hend]
      rfl
    · rw [if_neg fun h => hword h.1, if_neg hword]
      rfl
  obtain ⟨hword, before, after, hsplit, hbefore⟩ :=
    List.find?_eq_some_iff_append.1 hshape
  have hall : LineShape.all
      = before ++ shape :: (after ++ LineShape.all.drop 3) := by
    rw [← List.cons_append, ← List.append_assoc, ← hsplit]
    rfl
  rw [readLine, hall, List.findSome?_append, List.findSome?_eq_none_iff.2 ?_,
    List.findSome?_cons, hread shape (hsplit ▸ by simp),
    if_pos (by simpa using hword)]
  · rfl
  · intro other hmem
    rw [hread other (hsplit ▸ List.mem_append_left _ hmem),
      if_neg (by simpa using hbefore other hmem)]

end RubyIndent.Ruby

namespace RubyIndent.Document

open RubyIndent.Peg RubyIndent.Ruby RubyIndent.Text

/-- The first line of a text that has a newline, without the blanks before it and the
word at its start. -/
theorem exists_behindWord {s : List Char} (hn : '\n' ∈ s)
    (hdq : '\"' ∉ s.takeWhile (· ≠ '\n')) (hsq : '\'' ∉ s.takeWhile (· ≠ '\n')) :
    ∃ line below, Unquoted line ∧
      behindWord (s.dropWhile isSpacing) = line ++ '\n' :: below := by
  obtain ⟨line, below, rfl, hline⟩ := List.eq_append_cons_of_mem hn
  have htake : (line ++ '\n' :: below).takeWhile (· ≠ '\n') = line := by
    have hall : ∀ c ∈ line, decide (c ≠ '\n') = true := by
      intro c hc
      refine decide_eq_true ?_
      rintro rfl
      exact hline hc
    rw [List.takeWhile_append_of_pos hall, List.takeWhile_cons_of_neg (by simp),
      List.append_nil]
  rw [htake] at hdq hsq
  refine ⟨(line.dropWhile isSpacing).dropWhile isIdentChar, below, ?_, ?_⟩
  · intro c hc
    have hmem : c ∈ line := (List.dropWhile_suffix isSpacing).subset
      ((List.dropWhile_suffix isIdentChar).subset hc)
    exact ⟨fun h => hline (h ▸ hmem), fun h => hdq (h ▸ hmem), fun h => hsq (h ▸ hmem)⟩
  · have hstop : ∀ p : Char → Bool, p '\n' = false →
        ∀ c ∈ ('\n' :: below).head?, p c = false := by
      rintro p hp c hc
      rwa [← Option.mem_some_iff.1 hc]
    rw [behindWord, dropWhile_append_stop (hstop _ rfl),
      dropWhile_append_stop (hstop _ rfl)]

/-- Keywords are whole words. A line with the shape of a keyword starts, behind its
blanks, with a name that is as a whole one of the keywords of that shape and no hash
key. Conversely, where the first line has a newline and no quotes, starts with such a
keyword, and no token behind it starts where there is a tail, the keyword makes its
shape: those that open a block come first, so `rescue` is one of them. -/
theorem classify_keyword (input : String) :
    let text := input.toList.dropWhile isSpacing
    let word := firstWord text
    let rest := behindWord text
    (∀ shape ∈ keywordShapes, classify input = some shape →
      word ∈ keywordsOf shape ∧ startsKey rest = false) ∧
    ('\n' ∈ input.toList →
      '\"' ∉ input.toList.takeWhile (· ≠ '\n') →
      '\'' ∉ input.toList.takeWhile (· ≠ '\n') → startsKey rest = false →
      (∀ t ∈ tokenStarts (token (wordBefore anyTail)) rest, anyTail t = none) →
      (word ∈ indentKeywords → classify input = some .indentOpen) ∧
      (word = outdentKeyword → classify input = some .outdent) ∧
      (word ∈ dualKeywords → word ∉ indentKeywords →
        classify input = some .dual)) := by
  intro text word rest
  constructor
  · intro shape hmem hclass
    rw [classify_eq] at hclass
    obtain ⟨⟨l, e⟩, hline, rfl⟩ := Option.map_eq_some_iff.1 hclass
    have hread := (readAs_of_readLine hline).1
    have hopening : l.shape ∈ openingShapes := by
      generalize l.shape = shape at hmem
      revert shape
      decide
    rw [readAs_of_opening hopening, opening_keyword hmem] at hread
    by_contra h
    rw [if_neg h] at hread
    cases hread
  · intro hn hdq hsq hkey hstarts
    obtain ⟨line, below, hunquoted, hrest⟩ := exists_behindWord hn hdq hsq
    have hend : Reader.next upToTail newline rest = some below := by
      change rest = _ at hrest
      rw [hrest] at hstarts ⊢
      exact upToNewline_of_no_tail hunquoted hstarts
    have hclass : ∀ {shape}, keywordShapes.find? (word ∈ keywordsOf ·) = some shape →
        classify input = some shape := by
      intro shape hshape
      rw [classify_eq, readLine_of_keyword hshape hkey hend]
      rfl
    refine ⟨fun h => hclass ?_, fun h => hclass ?_, fun h hindent => hclass ?_⟩
    · exact List.find?_cons_of_pos (decide_eq_true h)
    · rw [h]
      decide
    · have hend : word ≠ outdentKeyword := by
        rintro h'
        rw [h'] at h
        revert h
        decide
      simp [keywordShapes, keywordsOf, h, hindent, hend]

/-- Two colons make no hash key, and an opener in a comment is no tail. -/
theorem classify_keyword_colons :
    classify "\trescue::X # do\n" = some .indentOpen ∧
      classify " else::X # do\n" = some .dual :=
  ⟨((classify_keyword "\trescue::X # do\n").2 (by decide) (by decide) (by decide)
      (by decide) (by decide +kernel)).1 (by decide),
    ((classify_keyword " else::X # do\n").2 (by decide) (by decide) (by decide)
      (by decide) (by decide +kernel)).2.2 (by decide) (by decide)⟩

end RubyIndent.Document
