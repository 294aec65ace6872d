import RubyIndent.Proofs.Peg.Taking
import RubyIndent.Ruby.Grammar

/-!
# Where strings end

Strings and the code inside them, read character by character. `afterSq`,
`afterDq` and `afterBrace` give what is left after the end of a single-quoted
string, a double-quoted string and a pair of braces, when their first character
has been taken. A quote or brace in braces that has no end is text, which is
why they look ahead and may look at the same text more than once.

The grammar reads strings part by part. `reads_sqString` and `reads_dqString`
say that it ends where these functions do.
-/

namespace RubyIndent.Ruby

open RubyIndent.Peg RubyIndent.Text RubyIndent.Pattern

/-! ## The plain part of the grammar -/

/-- The symbols whose rules neither ask for the context nor change it. -/
def Sym.isPlain : Sym → Bool
  | .heredocLabel | .heredocBody | .shape _ | .line => false
  | _ => true

def plain (id : RuleId) : Prop :=
  ∃ s : Sym, s.isPlain = true ∧ s.id = id

theorem Sym.id_injective {s t : Sym} (h : s.id = t.id) : s = t := by
  have hs := s.all_id
  rw [h, t.all_id] at hs
  exact (Option.some.inj hs).symm

theorem plain_id {s : Sym} : plain s.id ↔ s.isPlain = true := by
  refine ⟨?_, fun h => ⟨s, h, rfl⟩⟩
  rintro ⟨t, ht, hid⟩
  exact Sym.id_injective hid ▸ ht

/-- Plain rules refer to plain rules only. -/
theorem closed_plain : grammar.Closed plain := by
  rintro _ rule ⟨s, hs, rfl⟩ hr
  cases (grammar_rule? s).symm.trans hr
  cases s
  case heredocLabel | heredocBody | shape | line => cases hs
  all_goals
    simp only [Sym.rule, Sym.body, Expr.Within, AllWithin, Sym.ref, plain_id,
      Literal.sqString, Literal.dqString, Literal.interpPart,
      Literal.braceGroup, Literal.interpolation, Literal.dqPart,
      Literal.heredocStart, Literal.heredocTerminator, Literal.physicalLine,
      Line.blockOpener, Line.blockTail, Line.bracketTail, Line.anyTail,
      Line.leadStop, Line.rest, Line.lead, Line.text, Line.tail, Line.scan,
      Line.wordBefore, Expr.and, Sym.isPlain, and_self]

theorem Sym.action_of_isPlain {s : Sym} (hs : s.isPlain = true) :
    s.rule.action = none := by
  cases s
  case heredocLabel | heredocBody | shape | line => cases hs
  all_goals rfl

theorem silent_plain : grammar.Silent plain := by
  rintro _ rule ⟨s, hs, rfl⟩ hr
  cases (grammar_rule? s).symm.trans hr
  exact s.action_of_isPlain hs

/-- A plain symbol reads what its body reads. -/
theorem Sym.reads {s : Sym} (hs : s.isPlain = true) {f : Reader}
    (h : Reads grammar plain s.body f) : Reads grammar plain s.ref f :=
  Reads.rule (plain_id.2 hs) (grammar_rule? s) (s.action_of_isPlain hs) h

/-- Where the table is right, applying a plain symbol takes what it reads. -/
theorem Sym.took {sym : Sym} (hsym : sym.isPlain = true) {f : Reader}
    (hf : Reads grammar plain sym.ref f) {src : List Char}
    {s : State Indenter src} (hs : Sound grammar plain s) :
    Took s (s.apply grammar sym.id).value (s.apply grammar sym.id).state
      (f s.cursor.rest) :=
  (hf.took closed_plain (plain_id.2 hsym)
    (.rule (State.apply_evaluates grammar sym.id s)) hs).1

/-! ## Character by character -/

def afterSq : Reader
  | [] => none
  | '\'' :: s => some s
  | '\\' :: [] => none
  | '\\' :: _ :: s => afterSq s
  | _ :: s => afterSq s

/-- What is left after something inside `s` ended, or all of `s` if it has no
end. That it is not longer than `s` is what ends the recursion below. -/
def within (s : List Char) (ended : Option (List Char)) : List Char :=
  match ended with
  | none => s
  | some t => if t.length ≤ s.length then t else s

theorem length_within_lt (s : List Char) (ended : Option (List Char)) :
    (within s ended).length < s.length + 1 := by
  unfold within
  split
  · exact Nat.lt_succ_self _
  · split
    · rename_i h
      exact Nat.lt_succ_of_le h
    · exact Nat.lt_succ_self _

mutual

/-- What is left after the end of a double-quoted string. -/
def afterDq (s : List Char) : Option (List Char) :=
  match s with
  | [] => none
  | '\"' :: s => some s
  | '\\' :: [] => none
  | '\\' :: _ :: s => afterDq s
  | '#' :: '\x7b' :: s => afterDq (within s (afterBrace s))
  | _ :: s => afterDq s
termination_by s.length
decreasing_by
  all_goals first
    | exact length_within_lt _ _
    | exact Nat.lt_succ_of_lt (length_within_lt _ _)
    | exact Nat.lt_succ_self _
    | exact Nat.lt_succ_of_lt (Nat.lt_succ_self _)

def afterBrace (s : List Char) : Option (List Char) :=
  match s with
  | [] => none
  | '\x7d' :: s => some s
  | '\'' :: s => afterBrace (within s (afterSq s))
  | '\"' :: s => afterBrace (within s (afterDq s))
  | '\x7b' :: s => afterBrace (within s (afterBrace s))
  | '\\' :: '\x7d' :: s => afterBrace s
  | _ :: s => afterBrace s
termination_by s.length
decreasing_by
  all_goals first
    | exact length_within_lt _ _
    | exact Nat.lt_succ_of_lt (length_within_lt _ _)
    | exact Nat.lt_succ_self _
    | exact Nat.lt_succ_of_lt (Nat.lt_succ_self _)

end

/-! ## The ends are further right -/

theorem shortens_afterSq : Shortens afterSq := by
  intro s t h
  fun_induction afterSq s with
  | case1 | case3 => cases h
  | case2 s =>
    cases h
    exact Nat.lt_succ_self _
  | case4 c s ih => exact Nat.lt_succ_of_lt (Nat.lt_succ_of_lt (ih h))
  | case5 c s _ _ _ ih => exact Nat.lt_succ_of_lt (ih h)

/-- What follows inside is not longer, so that what is left at the end of it is
shorter than the whole. -/
theorem lt_of_within {s t : List Char} {o : Option (List Char)}
    (h : t.length < (within s o).length) : t.length < s.length + 1 :=
  Nat.lt_trans h (length_within_lt s o)

theorem shortens_strings : Shortens afterDq ∧ Shortens afterBrace := by
  apply afterDq.mutual_induct
    (fun s => ∀ t, afterDq s = some t → t.length < s.length)
    (fun s => ∀ t, afterBrace s = some t → t.length < s.length)
  case case1 | case3 | case7 => intro t h; simp [afterDq, afterBrace] at h
  case case2 | case8 =>
    intro s t h
    simp only [afterDq, afterBrace, Option.some.injEq] at h
    exact h ▸ Nat.lt_succ_self _
  case case4 =>
    intro c s ih t h
    rw [afterDq] at h
    exact Nat.lt_succ_of_lt (Nat.lt_succ_of_lt (ih t h))
  case case5 =>
    intro s _ ih t h
    rw [afterDq] at h
    exact Nat.lt_succ_of_lt (lt_of_within (ih t h))
  case case6 =>
    intro c s h₁ h₂ h₃ h₄ ih t h
    rw [afterDq.eq_6 c s h₁ h₂ h₃ h₄] at h
    exact Nat.lt_succ_of_lt (ih t h)
  case case9 =>
    intro s ih t h
    rw [afterBrace] at h
    exact lt_of_within (ih t h)
  case case10 | case11 =>
    intro s _ ih t h
    rw [afterBrace] at h
    exact lt_of_within (ih t h)
  case case12 =>
    intro s ih t h
    rw [afterBrace] at h
    exact Nat.lt_succ_of_lt (Nat.lt_succ_of_lt (ih t h))
  case case13 =>
    intro c s h₁ h₂ h₃ h₄ h₅ ih t h
    rw [afterBrace.eq_7 c s h₁ h₂ h₃ h₄ h₅] at h
    exact Nat.lt_succ_of_lt (ih t h)

theorem within_of_shortens {f : Reader} (hf : Shortens f) (s : List Char) :
    within s (f s) = (f s).getD s := by
  unfold within
  cases h : f s with
  | none => rfl
  | some t =>
    have := Nat.le_of_lt (hf s t h)
    simp [this]

@[simp] theorem within_afterSq (s : List Char) :
    within s (afterSq s) = (afterSq s).getD s :=
  within_of_shortens shortens_afterSq s

@[simp] theorem within_afterDq (s : List Char) :
    within s (afterDq s) = (afterDq s).getD s :=
  within_of_shortens shortens_strings.1 s

@[simp] theorem within_afterBrace (s : List Char) :
    within s (afterBrace s) = (afterBrace s).getD s :=
  within_of_shortens shortens_strings.2 s

/-! ## Strings part by part -/

def sqString : Reader := .next (.literal "'") afterSq

def dqString : Reader := .next (.literal "\"") afterDq

def braceGroup : Reader := .next (.literal "\x7b") afterBrace

def interpolation : Reader := .next (.literal "#\x7b") afterBrace

def dqPart : Reader :=
  .orElse interpolation (.orElse (.pattern Token.dqEscape)
    (.orElse (.pattern Token.dqRun) (.orElse (.literal "#") fun _ => none)))

/-- A part of the code inside a string. -/
def interpPart : Reader :=
  .orElse sqString (.orElse dqString (.orElse (.literal "\\\x7d")
    (.orElse braceGroup (.orElse (.pattern Token.interpRun)
      (.orElse (.pattern Token.interpStray) fun _ => none)))))

def isDqText (c : Char) : Bool :=
  c ≠ '\"' && c ≠ '\\' && c ≠ '#'

def isInterpText (c : Char) : Bool :=
  c ≠ '\x7b' && c ≠ '\x7d' && c ≠ '\'' && c ≠ '\"' && c ≠ '\\'

theorem contains_noneOf (ranges : List (Char × Char)) (c : Char) :
    CharSet.contains ⟨ranges, true⟩ c
      = !ranges.any fun r => r.1 ≤ c && c ≤ r.2 := by
  simp [CharSet.contains]

theorem pattern_dqRun (c : Char) (s : List Char) :
    Reader.pattern Token.dqRun (c :: s)
      = if isDqText c then some (s.dropWhile isDqText) else none := by
  have hset : CharSet.contains
      ⟨[Token.only '\"', Token.only '\\', Token.only '#'], true⟩ = isDqText := by
    funext c
    simp [contains_noneOf, Token.only, between_self, isDqText, Bool.and_assoc]
  rw [Reader.pattern, Token.dqRun, Token.noneOf, strip_plus_one, hset]

theorem pattern_interpRun (c : Char) (s : List Char) :
    Reader.pattern Token.interpRun (c :: s)
      = if isInterpText c then some (s.dropWhile isInterpText) else none := by
  have hset : CharSet.contains ⟨[Token.only '\x7b', Token.only '\x7d',
      Token.only '\'', Token.only '\"', Token.only '\\'], true⟩
        = isInterpText := by
    funext c
    simp [contains_noneOf, Token.only, between_self, isInterpText,
      Bool.and_assoc]
  rw [Reader.pattern, Token.interpRun, Token.noneOf, strip_plus_one, hset]

/-- A backslash in a string takes the character after it along. -/
theorem pattern_dqEscape (s : List Char) :
    Reader.pattern Token.dqEscape s =
      match s with
      | '\\' :: _ :: s => some s
      | _ => none := by
  split
  · rfl
  · rename_i hne
    rcases s with _ | ⟨c, _ | ⟨d, s⟩⟩
    · rfl
    · by_cases hc : c = '\\' <;>
        simp [Reader.pattern, Token.dqEscape, Token.char, Regex.strip,
          CharSet.contains, CharSet.single, between_self, hc]
    · have hc : c ≠ '\\' := fun h => hne d s (h ▸ rfl)
      simp [Reader.pattern, Token.dqEscape, Token.char, Regex.strip,
        CharSet.contains, CharSet.single, between_self, hc]

theorem pattern_interpStray (c : Char) (s : List Char) :
    Reader.pattern Token.interpStray (c :: s)
      = if c = '\'' ∨ c = '\"' ∨ c = '\\' ∨ c = '\x7b' then some s
        else none := by
  simp [Reader.pattern, Token.interpStray, Token.oneOf, Token.only, Regex.strip,
    CharSet.contains, between_self]

/-- A character that does not come first is not taken. -/
theorem isPrefixOf?_singleton {c : Char} {s : List Char}
    (h : ∀ t, s = c :: t → False) : [c].isPrefixOf? s = none := by
  cases s with
  | nil => rfl
  | cons d t =>
    have hne : c ≠ d := fun heq => h t (heq ▸ rfl)
    simp [hne]

theorem dqPart_eq (s : List Char) : dqPart s =
    match s with
    | [] | '\"' :: _ | '\\' :: [] => none
    | '\\' :: _ :: s => some s
    | '#' :: '\x7b' :: s => some ((afterBrace s).getD ('\x7b' :: s))
    | '#' :: s => some s
    | _ :: s => some (s.dropWhile isDqText) := by
  unfold dqPart interpolation Reader.orElse Reader.next Reader.literal
  split
  · rfl
  · simp [pattern_dqEscape, pattern_dqRun, isDqText]
  · simp [pattern_dqEscape, pattern_dqRun, isDqText]
  · simp [pattern_dqEscape]
  · simp [pattern_dqEscape, pattern_dqRun, isDqText]
  · rename_i h
    simp [pattern_dqEscape, pattern_dqRun, isDqText,
      isPrefixOf?_singleton h]
  · rename_i c s h₁ h₂ h₃ h₄ h₅
    have hb : c ≠ '\\' := by
      rintro rfl
      cases s with
      | nil => exact h₂ rfl rfl
      | cons d s => exact h₃ d s rfl rfl
    have hd : c ≠ '#' := h₅
    have hq : c ≠ '\"' := h₁
    simp [pattern_dqEscape, pattern_dqRun, isDqText, hb, hq, hd,
      hd.symm]

theorem interpPart_eq (s : List Char) : interpPart s =
    match s with
    | [] | '\x7d' :: _ => none
    | '\'' :: s => some ((afterSq s).getD s)
    | '\"' :: s => some ((afterDq s).getD s)
    | '\x7b' :: s => some ((afterBrace s).getD s)
    | '\\' :: '\x7d' :: s => some s
    | '\\' :: s => some s
    | _ :: s => some (s.dropWhile isInterpText) := by
  unfold interpPart sqString dqString braceGroup Reader.orElse Reader.next
    Reader.literal
  split
  · rfl
  · simp [pattern_interpRun, pattern_interpStray, isInterpText]
  · simp [pattern_interpRun, pattern_interpStray, isInterpText]
  · simp [pattern_interpRun, pattern_interpStray, isInterpText]
  · simp [pattern_interpRun, pattern_interpStray, isInterpText]
  · simp [pattern_interpRun, pattern_interpStray, isInterpText]
  · rename_i h
    simp [pattern_interpRun, pattern_interpStray, isInterpText,
      isPrefixOf?_singleton h]
  · rename_i c s h₁ h₂ h₃ h₄ h₅ h₆
    have hc : c ≠ '\x7d' ∧ c ≠ '\'' ∧ c ≠ '\"' ∧ c ≠ '\x7b' ∧ c ≠ '\\' :=
      ⟨h₁, h₂, h₃, h₄, h₆⟩
    simp [pattern_interpRun, isInterpText, hc, hc.2.1.symm,
      hc.2.2.1.symm, hc.2.2.2.1.symm, hc.2.2.2.2.symm]

/-- A part that runs on over text is a row of parts of one character each. -/
theorem skipAll_text {f : Reader} {isText : Char → Bool}
    (hf : ∀ c s, isText c = true → f (c :: s) = some (s.dropWhile isText))
    {c : Char} (hc : isText c = true) (s : List Char) :
    Reader.skipAll f (c :: s) = Reader.skipAll f s := by
  have run : ∀ t, Reader.skipAll f t = Reader.skipAll f (t.dropWhile isText) := by
    intro t
    cases t with
    | nil => rfl
    | cons d t =>
      cases hd : isText d with
      | false => rw [List.dropWhile_cons, if_neg (by simp [hd])]
      | true =>
        have hlen : (t.dropWhile isText).length < (d :: t).length :=
          Nat.lt_succ_of_le (List.dropWhile_sublist _).length_le
        rw [Reader.skipAll, hf d t hd, List.dropWhile_cons, if_pos hd]
        dsimp only
        rw [if_pos hlen]
  rw [run (c :: s), List.dropWhile_cons, if_pos hc, ← run]

theorem skipAll_some {f : Reader} {s t : List Char} (h : f s = some t)
    (hlt : t.length < s.length) : Reader.skipAll f s = Reader.skipAll f t := by
  rw [Reader.skipAll, h]
  dsimp only
  rw [if_pos hlt]

theorem skipAll_none {f : Reader} {s : List Char} (h : f s = none) :
    Reader.skipAll f s = s := by
  rw [Reader.skipAll, h]

theorem length_getD_le {f : Reader} (hf : Shortens f) (s : List Char) :
    ((f s).getD s).length ≤ s.length := by
  cases h : f s with
  | none => exact Nat.le_refl _
  | some t => exact Nat.le_of_lt (hf s t h)

theorem dqPart_text {c : Char} (hc : isDqText c = true) (s : List Char) :
    dqPart (c :: s) = some (s.dropWhile isDqText) := by
  rw [dqPart_eq]
  split <;> simp_all [isDqText]

theorem interpPart_text {c : Char} (hc : isInterpText c = true)
    (s : List Char) : interpPart (c :: s) = some (s.dropWhile isInterpText) := by
  rw [interpPart_eq]
  split <;> simp_all [isInterpText]

/-- A string is its parts and a closing quote, and so for braces. -/
theorem literal_skipAll_parts :
    (∀ s, Reader.literal "\"" (Reader.skipAll dqPart s) = afterDq s) ∧
      ∀ s, Reader.literal "\x7d" (Reader.skipAll interpPart s)
        = afterBrace s := by
  have lt₂ : ∀ {c d : Char} {s : List Char}, s.length < (c :: d :: s).length :=
    Nat.lt_succ_of_lt (Nat.lt_succ_self _)
  apply afterDq.mutual_induct
    (fun s => Reader.literal "\"" (Reader.skipAll dqPart s) = afterDq s)
    (fun s => Reader.literal "\x7d" (Reader.skipAll interpPart s)
      = afterBrace s)
  case case1 | case3 =>
    rw [skipAll_none (dqPart_eq _), afterDq]
    rfl
  case case2 =>
    intro s
    rw [skipAll_none (dqPart_eq _), afterDq]
    rfl
  case case4 =>
    intro c s ih
    rw [skipAll_some (dqPart_eq _) lt₂, afterDq, ih]
  case case5 =>
    intro s _ ih
    rw [within_afterBrace] at ih
    rw [afterDq, within_afterBrace, ← ih]
    have hpart : dqPart ('#' :: '\x7b' :: s)
        = some ((afterBrace s).getD ('\x7b' :: s)) := dqPart_eq _
    cases hb : afterBrace s with
    -- Braces without an end: the part is the `#` alone, and the opening brace
    -- is read as text.
    | none =>
      rw [hb] at hpart
      rw [skipAll_some hpart (Nat.lt_succ_self _)]
      exact congrArg _ (skipAll_text (fun _ s h => dqPart_text h s) rfl s)
    | some t =>
      rw [hb] at hpart
      have hlt := shortens_strings.2 s t hb
      rw [skipAll_some hpart (Nat.lt_trans hlt lt₂)]
      rfl
  case case6 =>
    intro c s h₁ h₂ h₃ h₄ ih
    rw [afterDq.eq_6 c s h₁ h₂ h₃ h₄, ← ih]
    -- Runs of text are one part to the grammar and many characters here.
    by_cases hc : isDqText c = true
    · rw [skipAll_text (fun _ s h => dqPart_text h s) hc]
    · obtain rfl : c = '#' := by
        by_cases hb : c = '\\'
        · subst hb
          cases s with
          | nil => exact (h₂ rfl rfl).elim
          | cons d s => exact (h₃ d s rfl rfl).elim
        · have hq : c ≠ '\"' := h₁
          simpa [isDqText, hq, hb] using hc
      have hpart : dqPart ('#' :: s) = some s := by
        rw [dqPart_eq]
        split <;> grind
      rw [skipAll_some hpart (Nat.lt_succ_self _)]
  case case7 =>
    rw [skipAll_none (interpPart_eq _), afterBrace]
    rfl
  case case8 =>
    intro s
    rw [skipAll_none (interpPart_eq _), afterBrace]
    rfl
  case case9 =>
    intro s ih
    rw [within_afterSq] at ih
    rw [afterBrace, within_afterSq, ← ih]
    exact congrArg _ (skipAll_some (interpPart_eq _)
      (Nat.lt_succ_of_le (length_getD_le shortens_afterSq s)))
  case case10 =>
    intro s _ ih
    rw [within_afterDq] at ih
    rw [afterBrace, within_afterDq, ← ih]
    exact congrArg _ (skipAll_some (interpPart_eq _)
      (Nat.lt_succ_of_le (length_getD_le shortens_strings.1 s)))
  case case11 =>
    intro s _ ih
    rw [within_afterBrace] at ih
    rw [afterBrace, within_afterBrace, ← ih]
    exact congrArg _ (skipAll_some (interpPart_eq _)
      (Nat.lt_succ_of_le (length_getD_le shortens_strings.2 s)))
  case case12 =>
    intro s ih
    rw [skipAll_some (interpPart_eq _) lt₂, afterBrace, ih]
  case case13 =>
    intro c s h₁ h₂ h₃ h₄ h₅ ih
    rw [afterBrace.eq_7 c s h₁ h₂ h₃ h₄ h₅, ← ih]
    -- What is neither text nor a start of something is a lone backslash.
    by_cases hc : isInterpText c = true
    · rw [skipAll_text (fun _ s h => interpPart_text h s) hc]
    · obtain rfl : c = '\\' := by
        have hne : c ≠ '\x7d' ∧ c ≠ '\'' ∧ c ≠ '\"' ∧ c ≠ '\x7b' :=
          ⟨h₁, h₂, h₃, h₄⟩
        simpa [isInterpText, hne] using hc
      have hpart : interpPart ('\\' :: s) = some s := by
        rw [interpPart_eq]
        split <;> grind
      rw [skipAll_some hpart (Nat.lt_succ_self _)]

/-- A character of a single-quoted string, or a backslash and a character. -/
def sqRound : Regex :=
  .alt (Token.noneOf [Token.only '\'', Token.only '\\'])
    (.seq (Token.char '\\') (.one .any))

theorem strip_sqRound (K : Rest) (s : List Char) : sqRound.strip K s =
    match s with
    | [] | '\'' :: _ | '\\' :: [] => none
    | '\\' :: _ :: s => K s
    | _ :: s => K s := by
  split
  · rfl
  · rfl
  · rfl
  · simp [sqRound, Regex.strip, Token.noneOf, Token.only, Token.char,
      CharSet.contains, CharSet.single, CharSet.any]
  · rename_i c s h₁ h₂ h₃
    have hq : c ≠ '\'' := h₁
    have hb : c ≠ '\\' := by
      rintro rfl
      cases s with
      | nil => exact h₂ rfl rfl
      | cons d s => exact h₃ d s rfl rfl
    simp [sqRound, Regex.strip, Token.noneOf, Token.only, Token.char,
      CharSet.contains, CharSet.single, between_self, hq, hb]

/-- The inside of a single-quoted string, after which the closing quote comes
or the string has no end. -/
theorem repeatFrom_sqRound (s : List Char) : ∃ r,
    repeatFrom .greedy sqRound.strip some s = some r ∧
      Reader.literal "'" r = afterSq s := by
  fun_induction afterSq s with
  | case1 | case2 | case3 =>
    rw [repeatFrom]
    exact ⟨_, rfl, rfl⟩
  | case4 c s ih =>
    obtain ⟨r, hr, hclose⟩ := ih
    refine ⟨r, ?_, hclose⟩
    have hlt : s.length < ('\\' :: c :: s).length :=
      Nat.lt_succ_of_lt (Nat.lt_succ_self _)
    have hround : ∀ K : Rest, sqRound.strip K ('\\' :: c :: s) = K s :=
      fun K => strip_sqRound K _
    rw [repeatFrom, hround, if_pos hlt, hr]
    rfl
  | case5 c s h₁ h₂ h₃ ih =>
    obtain ⟨r, hr, hclose⟩ := ih
    refine ⟨r, ?_, hclose⟩
    have hlt : s.length < (c :: s).length := Nat.lt_succ_self _
    rw [repeatFrom, strip_sqRound]
    split
    · rename_i heq
      cases heq
    · rename_i heq
      cases heq
      exact (h₁ rfl).elim
    · rename_i heq
      cases heq
      exact (h₂ rfl rfl).elim
    · rename_i heq
      cases heq
      exact (h₃ _ _ rfl rfl).elim
    · rename_i heq
      cases heq
      rw [if_pos hlt, hr]
      rfl

theorem pattern_sqBody (s : List Char) :
    Reader.pattern Token.sqBody s
      = repeatFrom .greedy sqRound.strip some s := by
  have hbody : Reader.pattern Token.sqBody s = Greed.greedy.pick
      (sqRound.strip (repeatFrom .greedy sqRound.strip some) s) (some s) := rfl
  rw [hbody, repeatFrom, strip_sqRound, strip_sqRound]
  split
  · rfl
  · rfl
  · rfl
  · exact congrArg (Option.or · _)
      (if_pos (Nat.lt_succ_of_lt (Nat.lt_succ_self _))).symm
  · exact congrArg (Option.or · _) (if_pos (Nat.lt_succ_self _)).symm

/-! ## The grammar reads strings -/

theorem shortens_literal {w : String} (hw : w.toList ≠ []) :
    Shortens (Reader.literal w) := by
  intro s t h
  rw [Reader.literal, isPrefixOf?_eq] at h
  split at h
  · rename_i hp
    have hle := (List.isPrefixOf_iff_prefix.1 hp).length_le
    have hpos := List.length_pos_iff.2 hw
    cases h
    rw [List.length_drop]
    omega
  · cases h

/-- An opening text, parts and a closing text. Each part starts behind the
opening text. -/
theorem ends_delimited {text : List Char} {p : View text} {w w' : String}
    {e : Expr Indenter} {f after : Reader} (hw : w.toList ≠ [])
    (hclose : ∀ s, Reader.literal w' (Reader.skipAll f s) = after s)
    (hparts : ∀ d : Cursor text, d.rest.length < p.cursor.rest.length →
      Ends grammar plain e (p.moveTo d) (f d.rest)) :
    Ends grammar plain (.sequence [.literal w, .many e, .literal w']) p
      (Reader.next (.literal w) after p.cursor.rest) := by
  refine Ends.sequence (EndsAll.cons (Ends.literal w p) fun d hd => ?_)
  have hlt := shortens_literal hw _ _ hd
  have hmany : Ends grammar plain (.many e) (p.moveTo d)
      (Reader.many f d.rest) :=
    Ends.many (p := p.moveTo d) fun d' hd' =>
      hparts d' (Nat.lt_of_le_of_lt hd' hlt)
  have := EndsAll.cons (f := Reader.literal w') hmany fun d' _ =>
    EndsAll.last (Ends.literal w' (p.moveTo d'))
  rw [← hclose]
  exact this

theorem reads_sqString : Reads grammar plain Sym.sqString.ref sqString := by
  refine Sym.reads rfl fun _ p => Ends.sequence (EndsAll.cons
    (Ends.literal _ p) fun d _ => ?_)
  obtain ⟨r, hr, hclose⟩ := repeatFrom_sqRound d.rest
  have hbody : Ends grammar plain (.pattern Token.sqBody) (p.moveTo d)
      (Reader.pattern Token.sqBody d.rest) := Ends.pattern rfl (p.moveTo d)
  have := EndsAll.cons (f := Reader.literal "'") hbody fun d' _ =>
    EndsAll.last (Ends.literal _ (p.moveTo d'))
  rwa [pattern_sqBody, hr, Option.bind_some, hclose] at this

/-- What is inside a string is further right than where the string starts, so
the rules for strings can be followed to the right. -/
theorem ends_strings {text : List Char} (p : View text) :
    Ends grammar plain Sym.dqString.ref p (dqString p.cursor.rest) ∧
      Ends grammar plain Sym.dqPart.ref p (dqPart p.cursor.rest) ∧
      Ends grammar plain Sym.interpPart.ref p (interpPart p.cursor.rest) := by
  generalize hn : p.cursor.rest.length = n
  induction n using Nat.strongRecOn generalizing p with
  | _ n ih =>
    subst hn
    -- Strings, braces and their parts lead to each other; the induction is on
    -- what is left of the text, which every opening character shortens.
    have hparts : ∀ d : Cursor text, d.rest.length < p.cursor.rest.length →
        Ends grammar plain Sym.interpPart.ref (.moveTo (.fresh p.cursor) d)
          (interpPart d.rest) :=
      fun d hd => (ih _ hd (.moveTo (.fresh p.cursor) d) rfl).2.2
    have hbrace : Ends grammar plain Sym.braceGroup.ref (.fresh p.cursor)
        (braceGroup p.cursor.rest) :=
      Ends.rule (plain_id.2 rfl) (grammar_rule? .braceGroup) rfl
        (ends_delimited (by decide) literal_skipAll_parts.2 hparts)
    have hinterp : Ends grammar plain Sym.interpolation.ref
        (.fresh p.cursor) (interpolation p.cursor.rest) :=
      Ends.rule (plain_id.2 rfl) (grammar_rule? .interpolation) rfl
        (ends_delimited (by decide) literal_skipAll_parts.2 hparts)
    have hdq : Ends grammar plain Sym.dqString.ref (.fresh p.cursor)
        (dqString p.cursor.rest) :=
      Ends.rule (plain_id.2 rfl) (grammar_rule? .dqString) rfl
        (ends_delimited (by decide) literal_skipAll_parts.1 fun d hd =>
          (ih _ hd (.moveTo (.fresh p.cursor) d) rfl).2.1)
    refine ⟨hdq.of_fresh, ?_, ?_⟩
    · refine Ends.rule (plain_id.2 rfl) (grammar_rule? .dqPart) rfl ?_
      exact Ends.choice_cons hinterp (Ends.choice_cons (Ends.pattern rfl _)
        (Ends.choice_cons (Ends.pattern rfl _)
          (Ends.choice_cons (Ends.literal _ _) (Ends.choice_nil _))))
    · refine Ends.rule (plain_id.2 rfl) (grammar_rule? .interpPart) rfl ?_
      exact Ends.choice_cons (reads_sqString _ (.fresh p.cursor))
        (Ends.choice_cons hdq (Ends.choice_cons (Ends.literal _ _)
          (Ends.choice_cons hbrace (Ends.choice_cons (Ends.pattern rfl _)
            (Ends.choice_cons (Ends.pattern rfl _) (Ends.choice_nil _))))))

theorem reads_dqString : Reads grammar plain Sym.dqString.ref dqString :=
  fun _ p => (ends_strings p).1

end RubyIndent.Ruby
