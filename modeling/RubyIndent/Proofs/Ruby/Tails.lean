import RubyIndent.Proofs.Ruby.Levels
import RubyIndent.Proofs.Ruby.Rereading

/-!
# The start and the end of a line

What the shapes of lines depend on, reader by reader: a line starts with a keyword
or bracket (`opening`) or ends with an opener (`anyTail`), and the first shape that
fits is taken (`readAs_of_readLine`). Three of the patterns look at the characters of
a line as they stand, whatever tokens they belong to: block parameters go on to the
next `|` (`blockParams`), and a line is taken to close its first bracket at the last
closing bracket before the next opening one (`opening_bracketSameLine`).
-/

namespace RubyIndent.Ruby

open RubyIndent.Peg RubyIndent.Text RubyIndent.Pattern

theorem literal_eq_some {w : String} {s t : List Char}
    (h : Reader.literal w s = some t) : s = w.toList ++ t := by
  rw [Reader.literal, isPrefixOf?_eq] at h
  split at h
  · rename_i hp
    obtain ⟨u, rfl⟩ := List.isPrefixOf_iff_prefix.1 hp
    cases h
    rw [List.drop_left]
  · cases h

theorem absent_eq_some {f : Reader} {s t : List Char}
    (h : Reader.absent f s = some t) : t = s ∧ f s = none := by
  unfold Reader.absent at h
  split at h
  · cases h
  · rename_i hnone
    cases h
    exact ⟨rfl, by simpa using hnone⟩

/-- Characters are dropped up to one that is not of their kind. -/
theorem dropWhile_append_stop {p : Char → Bool} {x : List Char}
    (hx : ∀ c ∈ x.head?, p c = false) (s : List Char) :
    (s ++ x).dropWhile p = s.dropWhile p ++ x := by
  have hstop : x.dropWhile p = x := by
    cases x with
    | nil => rfl
    | cons c x => rw [List.dropWhile_cons, if_neg (by simp [hx c rfl])]
  rw [List.dropWhile_append, hstop]
  split
  · rename_i h
    rw [List.isEmpty_iff.1 h]
    rfl
  · rfl

theorem length_dropWhile_lt (p : Char → Bool) (c : Char) (s : List Char) :
    (s.dropWhile p).length < (c :: s).length :=
  Nat.lt_succ_of_le (List.dropWhile_sublist _).length_le

/-! ## Block parameters -/

def isParamChar (c : Char) : Bool :=
  c ≠ '|' && c ≠ '\n'

/-- The parameters of a block behind the bar that opens them. -/
def paramList : Reader
  | [] => none
  | c :: s => if isParamChar c then Reader.literal "|" (s.dropWhile isParamChar)
    else none

def blockParams : Reader :=
  .next spacing (.next (.literal "|") paramList)

theorem strip_char_eq (a : Char) (k : Rest) (s : List Char) :
    (Token.char a).strip k s = ([a].isPrefixOf? s).bind k := by
  cases s with
  | nil => rfl
  | cons c s =>
    rw [strip_char, isPrefixOf?_cons]
    by_cases hc : c = a
    · simp [hc]
    · simp [hc, Ne.symm hc]

theorem isPrefixOf?_cons_eq (c : Char) (w s : List Char) :
    (c :: w).isPrefixOf? s = ([c].isPrefixOf? s).bind w.isPrefixOf? := by
  cases s with
  | nil => rfl
  | cons d s =>
    rw [isPrefixOf?_cons, isPrefixOf?_cons]
    split <;> rfl

theorem strip_paramList (s : List Char) :
    (Regex.seq (.plus .greedy (Token.noneOf [Token.only '|', Token.only '\n']))
      (Token.char '|')).strip some s = paramList s := by
  have hset : CharSet.contains ⟨[Token.only '|', Token.only '\n'], true⟩
      = isParamChar := by
    funext c
    simp [contains_noneOf, Token.only, between_self, isParamChar]
  cases s with
  | nil => rfl
  | cons c s =>
    rw [Regex.strip, Token.noneOf, Regex.strip, Regex.strip, hset,
      repeatFrom_one_cut, hset, strip_char_eq, Option.bind_fun_some]
    · rfl
    · intro d t hd
      rw [hset] at hd
      rw [strip_char, if_neg]
      rintro rfl
      cases hd

theorem strip_blockParams (s : List Char) :
    (Regex.seq (.star .greedy (Token.oneOf [Token.only ' ', Token.only '\t']))
      (.seq (Token.char '|')
        (.seq (.plus .greedy (Token.noneOf [Token.only '|', Token.only '\n']))
          (Token.char '|')))).strip some s = blockParams s := by
  have hset : CharSet.contains ⟨[Token.only ' ', Token.only '\t'], false⟩
      = isSpacing := by
    funext c
    simp [contains_oneOf, Token.only, between_self, isSpacing]
  rw [Regex.strip, Token.oneOf, strip_star_one_eq, repeatFrom_one_cut, hset,
    Regex.strip, strip_char_eq, funext strip_paramList]
  · rfl
  · intro c t hc
    rw [hset] at hc
    rw [Regex.strip, strip_char, if_neg]
    rintro rfl
    cases hc

theorem pattern_doBlock (s : List Char) : Reader.pattern Token.doBlock s
    = (Reader.literal "do" s).bind fun t => (blockParams t).or (some t) := by
  rw [Reader.pattern, Token.doBlock, Regex.strip, strip_char_eq, Reader.literal]
  change _ = Option.bind (['d', 'o'].isPrefixOf? s) _
  rw [isPrefixOf?_cons_eq 'd' ['o'], Option.bind_assoc]
  congr 1
  funext t
  rw [Regex.strip, strip_char_eq]
  congr 1
  funext u
  rw [Regex.strip, strip_blockParams]
  rfl

theorem pattern_braceBlock (s : List Char) : Reader.pattern Token.braceBlock s
    = (Reader.literal "\x7b" s).bind blockParams := by
  rw [Reader.pattern, Token.braceBlock, Regex.strip, strip_char_eq,
    funext strip_blockParams]
  rfl

theorem pattern_openBracket (s : List Char) : Reader.pattern Token.openBracket s
    = (Reader.literal "[" s).or (Reader.literal "\x7b" s) := by
  cases s with
  | nil => rfl
  | cons c s =>
    rw [Reader.pattern, Token.openBracket, Token.oneOf, Regex.strip, contains_oneOf]
    by_cases hc : c = '['
    · subst hc
      rfl
    · by_cases hc' : c = '\x7b'
      · subst hc'
        rfl
      · simp [Token.only, between_self, hc, hc', Ne.symm hc, Ne.symm hc',
          Reader.literal]

/-! ## Brackets that are closed on the same line -/

/-- The brackets that a line can start with, each with the one that closes it. -/
def brackets : List (Char × Char) :=
  [('[', ']'), ('\x7b', '\x7d')]

/-- A text up to some character or the end of the line. -/
theorem exists_run (o : Char) (e : List Char) : ∃ r t, e = r ++ t ∧
    (∀ d ∈ r, d ≠ o ∧ d ≠ '\n') ∧ ∀ d ∈ t.head?, d = o ∨ d = '\n' := by
  refine ⟨e.takeWhile fun d => d ≠ o && d ≠ '\n',
    e.dropWhile fun d => d ≠ o && d ≠ '\n', List.takeWhile_append_dropWhile.symm,
    fun d hd => by simpa using List.mem_takeWhile_imp hd, fun d hd => ?_⟩
  have hstop := List.head?_dropWhile_not (fun d => d ≠ o && d ≠ '\n') e
  rw [Option.mem_def.1 hd] at hstop
  by_cases hdo : d = o
  · exact .inl hdo
  · exact .inr (by simpa [hdo] using hstop)

/-- The first bracket of a line is taken to be closed by the last closing one before
the next one that opens, or before the end of the line. -/
theorem opening_bracketSameLine {o c : Char} (h : (o, c) ∈ brackets)
    {s t : List Char} (hs : ∀ d ∈ s, d ≠ o ∧ d ≠ '\n')
    (ht : ∀ d ∈ t.head?, d = o ∨ d = '\n') :
    opening .bracketSameLine (o :: (s ++ t)) = (afterLast c s).map (· ++ t) := by
  have run : ∀ {o c : Char}, c ≠ o → c ≠ '\n' →
      (∀ d ∈ s, d ≠ o ∧ d ≠ '\n') → (∀ d ∈ t.head?, d = o ∨ d = '\n') →
      (Regex.seq (.star .greedy (Token.noneOf [Token.only o, Token.only '\n']))
        (Token.char c)).strip some (s ++ t) = (afterLast c s).map (· ++ t) := by
    intro o c hc hn hs ht
    have hset : ∀ d, CharSet.contains ⟨[Token.only o, Token.only '\n'], true⟩ d
        = (d ≠ o && d ≠ '\n') := by
      intro d
      simp [contains_noneOf, Token.only, between_self]
    rw [Regex.strip, Token.noneOf, strip_star_one_eq, Token.char]
    refine repeatFrom_one_last ?_ (fun d hd => ?_) fun d hd => ?_
    · rw [hset]
      simp [hc, hn]
    · rw [hset]
      simpa using hs d hd
    · rw [hset]
      rcases ht d hd with rfl | rfl <;> simp
  simp only [brackets, List.mem_cons, Prod.mk.injEq, List.not_mem_nil,
    or_false] at h
  rcases h with ⟨rfl, rfl⟩ | ⟨rfl, rfl⟩
  · have hend := run (o := '[') (c := ']') (by decide) (by decide) hs ht
    change ((Reader.pattern Token.bracketEnd) (s ++ t)).or none = _
    rw [Option.or_none]
    exact hend
  · exact run (o := '\x7b') (c := '\x7d') (by decide) (by decide) hs ht

/-! ## Tails -/

theorem tail_eq_some {opener : Reader} {s t : List Char}
    (h : tail opener s = some t) : ∃ u, t = '\n' :: u := by
  rw [tail, next_assoc, next_assoc] at h
  obtain ⟨u, _, h⟩ := Option.bind_eq_some_iff.1 h
  cases hu : newline u with
  | none => simp [Reader.present, Reader.absent, hu] at h
  | some v =>
    simp only [Reader.present, Reader.absent, hu, Option.isSome_some, if_true,
      Option.isSome_none, Bool.false_eq_true, if_false, Option.some.injEq] at h
    exact ⟨v, h ▸ newline_eq_some hu⟩

theorem anyTail_eq_some {s t : List Char} (h : anyTail s = some t) :
    ∃ u, t = '\n' :: u := by
  rcases Option.or_eq_some_iff.1 h with h | ⟨_, h⟩
  · exact tail_eq_some h
  · exact tail_eq_some h

/-- A tail starts with `do` or an opening bracket. -/
theorem anyTail_eq_none {c : Char} (hc : c ≠ 'd' ∧ c ≠ '\x7b' ∧ c ≠ '[')
    (s : List Char) : anyTail (c :: s) = none := by
  obtain ⟨hd, hbrace, hbracket⟩ := hc
  simp [anyTail, blockTail, bracketTail, tail, blockOpener, Reader.orElse,
    Reader.next, Reader.pattern, Token.doBlock, Token.braceBlock,
    Token.openBracket, Token.oneOf, Token.only, Regex.strip, strip_char,
    contains_oneOf, between_self, hd, hbrace, hbracket]

/-! ## Tokens -/

theorem not_special_of_isWordChar {c : Char} (hc : isWordChar c = true) :
    c ≠ '\\' ∧ c ≠ '#' ∧ c ≠ '\"' ∧ c ≠ '\'' := by
  refine ⟨?_, ?_, ?_, ?_⟩ <;> rintro rfl <;> cases hc

/-- What is read over and over stops where nothing more is to take. -/
theorem skipAll_stops {f : Reader} (hf : Shortens f) (s : List Char) :
    f (Reader.skipAll f s) = none := by
  fun_induction Reader.skipAll f s with
  | case1 s h => exact h
  | case2 s t h hlt ih => exact ih
  | case3 s t h hle => exact absurd (hf s t h) hle

/-- Where there is no stop, a word is taken. -/
theorem token_wordBefore {stop : Reader} {c : Char}
    (hc : c ≠ '\\' ∧ c ≠ '#' ∧ c ≠ '\"' ∧ c ≠ '\'') {s : List Char}
    (hstop : stop (c :: s) = none) :
    token (wordBefore stop) (c :: s)
      = Reader.pattern Token.wordOrChar (c :: s) := by
  rw [token_word hc, wordBefore, Reader.next, Reader.absent, hstop,
    if_neg (by simp), Option.bind_some]

/-! ## Shapes -/

def openingShapes : List LineShape :=
  [.indentOpen, .outdent, .dual, .bracketSameLine, .bracketOpen, .bracketClose]

theorem leadingShapes_eq :
    leadingShapes = openingShapes ++ [.blockOpener, .bracketTail] :=
  rfl

theorem readAs_of_opening {shape : LineShape} (h : shape ∈ openingShapes)
    (s : List Char) :
    readAs shape s = ((opening shape s).bind (Reader.next upToTail newline)).map
      fun e => (.whole shape (taken s e), e) := by
  simp only [openingShapes, List.mem_cons, List.not_mem_nil, or_false] at h
  rcases h with rfl | rfl | rfl | rfl | rfl | rfl <;> rfl

theorem shape_of_readAs {shape : LineShape} {s r : List Char} {l : LogicalLine}
    (h : readAs shape s = some (l, r)) : l.shape = shape ∧
      (shape ≠ .heredocIntro → l.rise = shape.depthDelta) := by
  by_cases hshape : shape = .heredocIntro
  · subst hshape
    obtain ⟨hd, _, heq⟩ := Option.map_eq_some_iff.1 h
    cases heq
    exact ⟨rfl, absurd rfl⟩
  · rw [readAs_of_ne hshape] at h
    obtain ⟨t, _, heq⟩ := Option.map_eq_some_iff.1 h
    cases heq
    exact ⟨rfl, fun _ => rfl⟩

/-- The line that is read has the first shape that fits. -/
theorem readAs_of_readLine {s r : List Char} {l : LogicalLine}
    (h : readLine s = some (l, r)) : readAs l.shape s = some (l, r) ∧
      ∀ shape ∈ LineShape.all.takeWhile (· ≠ l.shape), readAs shape s = none := by
  obtain ⟨before, shape, after, hall, hread, hbefore⟩ :=
    List.findSome?_eq_some_iff.1 h
  obtain ⟨rfl, _⟩ := shape_of_readAs hread
  refine ⟨hread, fun shape hmem => hbefore shape ?_⟩
  have hnodup : LineShape.all.Nodup := by decide
  rw [hall] at hmem hnodup
  have hne : ∀ a ∈ before, (decide (a ≠ l.shape)) = true := by
    intro a ha
    refine decide_eq_true ?_
    rintro rfl
    exact (List.nodup_append.1 hnodup).2.2 _ ha _ List.mem_cons_self rfl
  rwa [List.takeWhile_append_of_pos hne, List.takeWhile_cons_of_neg (by simp),
    List.append_nil] at hmem

end RubyIndent.Ruby
