import RubyIndent.Proofs.Ruby.Inertness

/-!
# Carriage returns at the ends of lines

A text with a carriage return before every newline is read like the text without
them, but for what looks at the end of a line. Most readers take nothing of a line end
and do not see the difference (`CrBlind`). Tokens pass over a carriage return like
over any other character, and a comment takes it along. So the newline is found, but
an opener is followed by it only where a comment is in between (`tail_crlf`), and a
label alone on its line is not (`readHeredoc_crlf`). A line of such a text is therefore
read as a line of the text without them in which openers need a comment and there are
no heredocs (`readLine_crlf`).
-/

namespace RubyIndent.Ruby

open RubyIndent.Peg RubyIndent.Text RubyIndent.Pattern

/-! ## Texts with carriage returns -/

/-- A text with a carriage return before every newline. -/
def crlf (s : List Char) : List Char :=
  s.flatMap fun c => if c = '\n' then ['\r', '\n'] else [c]

@[simp] theorem crlf_nil : crlf [] = [] :=
  rfl

@[simp] theorem crlf_newline (s : List Char) :
    crlf ('\n' :: s) = '\r' :: '\n' :: crlf s :=
  rfl

theorem crlf_cons {c : Char} (hc : c ≠ '\n') (s : List Char) :
    crlf (c :: s) = c :: crlf s := by
  simp [crlf, hc]

theorem crlf_append (s t : List Char) : crlf (s ++ t) = crlf s ++ crlf t :=
  List.flatMap_append

theorem crlf_of_not_newline {m : List Char} (hm : '\n' ∉ m) : crlf m = m := by
  induction m with
  | nil => rfl
  | cons c m ih =>
    obtain ⟨hc, hm⟩ := not_or.1 (List.mem_cons.not.1 hm)
    rw [crlf_cons (Ne.symm hc), ih hm]

/-- No newline comes first. -/
theorem crlf_ne_newline (s t : List Char) : crlf s ≠ '\n' :: t := by
  cases s with
  | nil => nofun
  | cons c s =>
    by_cases hc : c = '\n'
    · subst hc
      rw [crlf_newline]
      simp
    · rw [crlf_cons hc]
      exact fun h => hc (List.cons.inj h).1

theorem crlf_injective : Function.Injective crlf := by
  intro s
  induction s with
  | nil =>
    intro t h
    cases t with
    | nil => rfl
    | cons d t =>
      by_cases hd : d = '\n'
      · subst hd
        cases h
      · rw [crlf_cons hd] at h
        cases h
  | cons c s ih =>
    intro t h
    cases t with
    | nil =>
      by_cases hc : c = '\n'
      · subst hc
        cases h
      · rw [crlf_cons hc] at h
        cases h
    | cons d t =>
      by_cases hc : c = '\n' <;> by_cases hd : d = '\n'
      · subst hc hd
        rw [ih (List.cons.inj (List.cons.inj h).2).2]
      · subst hc
        rw [crlf_cons hd] at h
        exact absurd (List.cons.inj h).2.symm (crlf_ne_newline t _)
      · subst hd
        rw [crlf_cons hc] at h
        exact absurd (List.cons.inj h).2 (crlf_ne_newline s _)
      · rw [crlf_cons hc, crlf_cons hd] at h
        obtain ⟨rfl, hrest⟩ := List.cons.inj h
        rw [ih hrest]

/-- A text goes on with the same character, away from the ends of lines. -/
theorem exists_of_crlf_cons {c : Char} (hr : c ≠ '\r') {s t : List Char}
    (h : crlf s = c :: t) : ∃ u, s = c :: u := by
  cases s with
  | nil => cases h
  | cons d s =>
    by_cases hd : d = '\n'
    · subst hd
      exact absurd (List.cons.inj h).1.symm hr
    · rw [crlf_cons hd] at h
      exact ⟨s, by rw [(List.cons.inj h).1]⟩

theorem taken_crlf {s t : List Char} (h : t <:+ s) :
    taken (crlf s) (crlf t) = crlf (taken s t) := by
  obtain ⟨m, rfl⟩ := h
  rw [crlf_append, taken_append_self, taken_append_self]

/-- Every newline has a carriage return before it. -/
theorem eq_cr_of_crlf {s m t : List Char} {c : Char}
    (h : crlf s = m ++ c :: '\n' :: t) : c = '\r' := by
  induction s generalizing m with
  | nil => simp at h
  | cons d s ih =>
    by_cases hd : d = '\n'
    · subst hd
      rcases m with _ | ⟨a, _ | ⟨b, m⟩⟩
      · exact (List.cons.inj h).1.symm
      · exact absurd (List.cons.inj (List.cons.inj h).2).2 (crlf_ne_newline s t)
      · exact ih (List.cons.inj (List.cons.inj h).2).2
    · rw [crlf_cons hd] at h
      cases m with
      | nil => exact absurd (List.cons.inj h).2 (crlf_ne_newline s t)
      | cons a m => exact ih (List.cons.inj h).2

/-! ## Readers that take nothing of a line end -/

/-- A reader takes the same with and without carriage returns. -/
def CrBlind (f : Reader) : Prop :=
  ∀ s, f (crlf s) = (f s).map crlf

/-- A text up to the end of its first line. -/
theorem exists_firstLine (s : List Char) :
    ∃ m x, s = m ++ x ∧ '\n' ∉ m ∧ AtLineEnd x := by
  obtain ⟨m, x, rfl, hm, hx⟩ := exists_run '\n' s
  refine ⟨m, x, rfl, fun h => (hm _ h).1 rfl, ?_⟩
  cases x with
  | nil => exact .inl rfl
  | cons c x => exact .inr ⟨x, by rw [(or_self_iff.1 (hx c rfl))]⟩

/-- Characters are dropped that are not at the end of a line. -/
theorem dropWhile_crlf {p : Char → Bool} (hn : p '\n' = false) (hr : p '\r' = false)
    (s : List Char) : (crlf s).dropWhile p = crlf (s.dropWhile p) := by
  induction s with
  | nil => rfl
  | cons c s ih =>
    by_cases hc : c = '\n'
    · subst hc
      rw [crlf_newline, List.dropWhile_cons_of_neg (by simp [hr]),
        List.dropWhile_cons_of_neg (by simp [hn]), crlf_newline]
    · rw [crlf_cons hc, List.dropWhile_cons, List.dropWhile_cons]
      split
      · exact ih
      · exact (crlf_cons hc s).symm

namespace CrBlind

variable {f g : Reader}

theorem isSome (hf : CrBlind f) (s : List Char) :
    (f (crlf s)).isSome = (f s).isSome := by
  rw [hf, Option.isSome_map]

theorem next_of {g' : Reader} (hf : CrBlind f)
    (hg : ∀ s, g' (crlf s) = (g s).map crlf) (s : List Char) :
    Reader.next f g' (crlf s) = (Reader.next f g s).map crlf := by
  rw [Reader.next, Reader.next, hf]
  cases f s with
  | none => rfl
  | some t => exact hg t

theorem next (hf : CrBlind f) (hg : CrBlind g) : CrBlind (.next f g) :=
  next_of hf hg

theorem orElse (hf : CrBlind f) (hg : CrBlind g) : CrBlind (.orElse f g) := by
  intro s
  rw [Reader.orElse, Reader.orElse, hf, hg]
  cases f s <;> rfl

theorem absent (hf : CrBlind f) : CrBlind (.absent f) := by
  intro s
  rw [Reader.absent, Reader.absent, hf.isSome]
  split <;> rfl

theorem literal {w : String} (hn : '\n' ∉ w.toList) (hr : '\r' ∉ w.toList) :
    CrBlind (.literal w) := by
  unfold CrBlind Reader.literal
  generalize w.toList = m at hn hr
  induction m with
  | nil => exact fun _ => rfl
  | cons a m ih =>
    obtain ⟨han, hn⟩ := not_or.1 (List.mem_cons.not.1 hn)
    obtain ⟨har, hr⟩ := not_or.1 (List.mem_cons.not.1 hr)
    intro s
    cases s with
    | nil => rfl
    | cons c s =>
      by_cases hc : c = '\n'
      · subst hc
        simp [isPrefixOf?_cons, Ne.symm han, Ne.symm har]
      · rw [crlf_cons hc, isPrefixOf?_cons, isPrefixOf?_cons]
        split
        · exact ih hn hr s
        · rfl

theorem pattern {p : Pattern} (hn : avoids '\n' p.regex = true)
    (hr : avoids '\r' p.regex = true) : CrBlind (.pattern p) := by
  -- Up to the end of the line both texts are the same.
  intro s
  obtain ⟨m, x, rfl, hm, hx⟩ := exists_firstLine s
  have hend : ∀ c ∈ (crlf x).head?, avoids c p.regex = true := by
    rcases hx with rfl | ⟨t, rfl⟩
    · nofun
    · intro c hc
      rwa [← Option.mem_some_iff.1 hc]
  have hrel := rel_pattern_line (avoids_of_atLineEnd hx hn) hend hm
  rw [crlf_append, crlf_of_not_newline hm]
  generalize Reader.pattern p (m ++ x) = a at hrel ⊢
  generalize Reader.pattern p (m ++ crlf x) = b at hrel ⊢
  cases hrel with
  | none => rfl
  | some h =>
    obtain ⟨n, m', rfl, _, rfl, rfl⟩ := h
    have hm' : '\n' ∉ m' := fun h => hm (List.mem_append_right n h)
    rw [Option.map_some, crlf_append, crlf_of_not_newline hm']

theorem spacing : CrBlind spacing :=
  fun s => congrArg some (dropWhile_crlf rfl rfl s)

/-- A carriage return could be a parameter, but no bar follows it on the line. -/
theorem paramList : CrBlind paramList := by
  have hclose : ∀ s : List Char,
      Reader.literal "|" ((crlf s).dropWhile isParamChar)
        = (Reader.literal "|" (s.dropWhile isParamChar)).map crlf := by
    intro s
    induction s with
    | nil => rfl
    | cons c s ih =>
      by_cases hc : c = '\n'
      · subst hc
        rfl
      · rw [crlf_cons hc, List.dropWhile_cons, List.dropWhile_cons]
        split
        · exact ih
        · rw [← crlf_cons hc]
          exact literal (by decide) (by decide) (c :: s)
  intro s
  cases s with
  | nil => rfl
  | cons c s =>
    by_cases hc : c = '\n'
    · subst hc
      rfl
    · rw [crlf_cons hc, Ruby.paramList, Ruby.paramList]
      split
      · exact hclose s
      · rfl

theorem blockParams : CrBlind blockParams :=
  spacing.next ((literal (by decide) (by decide)).next paramList)

theorem blockOpener : CrBlind blockOpener := by
  have hdo : CrBlind (.pattern Token.doBlock) := by
    intro s
    rw [pattern_doBlock, pattern_doBlock, literal (by decide) (by decide)]
    cases Reader.literal "do" s with
    | none => rfl
    | some t =>
      rw [Option.map_some, Option.bind_some, Option.bind_some, blockParams]
      cases Ruby.blockParams t <;> rfl
  have hbrace : CrBlind (.pattern Token.braceBlock) := by
    intro s
    rw [pattern_braceBlock, pattern_braceBlock]
    exact (literal (by decide) (by decide)).next blockParams s
  exact hdo.orElse hbrace

theorem openBracket : CrBlind (.pattern Token.openBracket) :=
  pattern rfl rfl

end CrBlind

/-! ## The start of a line -/

namespace CrBlind

theorem keyword {word : String} (hn : '\n' ∉ word.toList) (hr : '\r' ∉ word.toList) :
    CrBlind (keyword word) :=
  (literal hn hr).next ((pattern rfl rfl).absent.next
    ((literal (by decide) (by decide)).next
      (literal (by decide) (by decide)).absent).absent)

theorem keywords {words : List String}
    (h : ∀ word ∈ words, '\n' ∉ word.toList ∧ '\r' ∉ word.toList) :
    CrBlind (keywords words) := by
  induction words with
  | nil => exact fun _ => rfl
  | cons word words ih =>
    obtain ⟨hn, hr⟩ := h word List.mem_cons_self
    exact (keyword hn hr).orElse (ih fun w hw => h w (List.mem_cons_of_mem _ hw))

/-- The last closing bracket of a line stands before its end. -/
theorem bracketSameLine {o c : Char} (h : (o, c) ∈ brackets) (s : List Char) :
    opening .bracketSameLine (o :: crlf s)
      = (opening .bracketSameLine (o :: s)).map crlf := by
  have hbrackets : ∀ p ∈ brackets, p.1 ≠ '\r' ∧ p.2 ≠ '\r' := by decide
  have hne := hbrackets _ h
  obtain ⟨r, t, rfl, hr, ht⟩ := exists_run o s
  have hline : '\n' ∉ r := fun hn => (hr _ hn).2 rfl
  have hrest : (afterLast c r).map (· ++ crlf t)
      = ((afterLast c r).map (· ++ t)).map crlf := by
    cases hlast : afterLast c r with
    | none => rfl
    | some u =>
      obtain ⟨m, rfl, _⟩ := afterLast_eq_some hlast
      have hu : '\n' ∉ u := fun hn => hline (by simp [hn])
      rw [Option.map_some, Option.map_some, Option.map_some, crlf_append,
        crlf_of_not_newline hu]
  rw [opening_bracketSameLine h hr ht, crlf_append, crlf_of_not_newline hline, ← hrest]
  cases t with
  | nil => exact opening_bracketSameLine h hr nofun
  | cons d t =>
    by_cases hd : d = '\n'
    · -- The carriage return belongs to the run and closes nothing.
      subst hd
      have hrun : ∀ e ∈ r ++ ['\r'], e ≠ o ∧ e ≠ '\n' := by
        intro e he
        rcases List.mem_append.1 he with he | he
        · exact hr e he
        · rw [List.mem_singleton.1 he]
          exact ⟨hne.1.symm, by decide⟩
      have hopen := opening_bracketSameLine h hrun (t := '\n' :: crlf t)
        fun e he => .inr (Option.mem_some_iff.1 he).symm
      rw [afterLast_append, afterLast_eq_none.2 (by simpa using hne.2), Option.none_or,
        Option.map_map] at hopen
      simpa [Function.comp_def] using hopen
    · have ho := (ht d rfl).resolve_right hd
      subst ho
      rw [crlf_cons hd]
      exact opening_bracketSameLine h hr fun e he => .inl (Option.mem_some_iff.1 he).symm

theorem opening (shape : LineShape) : CrBlind (opening shape) := by
  cases shape
  case indentOpen | dual => exact keywords (by decide)
  case outdent => exact keyword (by decide) (by decide)
  case bracketOpen | bracketClose =>
    exact (literal (by decide) (by decide)).orElse (literal (by decide) (by decide))
  case bracketSameLine =>
    intro s
    cases s with
    | nil => rfl
    | cons a s =>
      by_cases hbracket : a = '[' ∨ a = '\x7b'
      · rcases hbracket with rfl | rfl
        · rw [crlf_cons (by decide)]
          exact bracketSameLine (c := ']') (by decide) s
        · rw [crlf_cons (by decide)]
          exact bracketSameLine (c := '\x7d') (by decide) s
      · have hnone : ∀ {a : Char} t, ¬ (a = '[' ∨ a = '\x7b') →
            Ruby.opening .bracketSameLine (a :: t) = none := by
          intro a t ha
          obtain ⟨h, h'⟩ := not_or.1 ha
          simp [Ruby.opening, Reader.orElse, Reader.next, Reader.literal, Ne.symm h,
            Ne.symm h']
        rw [hnone s hbracket]
        by_cases ha : a = '\n'
        · subst ha
          exact hnone _ (by decide)
        · rw [crlf_cons ha]
          exact hnone _ hbracket
  all_goals exact fun _ => rfl

end CrBlind

/-! ## Strings -/

def StringsCrBlind (s : List Char) : Prop :=
  afterSq (crlf s) = (afterSq s).map crlf ∧
    afterDq (crlf s) = (afterDq s).map crlf ∧
    afterBrace (crlf s) = (afterBrace s).map crlf

/-- A character that is escaped. If it is a newline, the carriage return is escaped in
its place and strings pass over the newline. -/
theorem crlf_escaped (d : Char) (s : List Char) :
    ∃ e m, (∀ c ∈ m, Inert c) ∧ crlf (d :: s) = e :: (m ++ crlf s) := by
  by_cases hd : d = '\n'
  · subst hd
    refine ⟨'\r', ['\n'], fun c hc => ?_, rfl⟩
    rw [List.mem_singleton.1 hc]
    unfold Inert
    decide
  · exact ⟨d, [], nofun, crlf_cons hd s⟩

theorem getD_crlf {f : Reader} {s : List Char} (h : f (crlf s) = (f s).map crlf) :
    (f (crlf s)).getD (crlf s) = crlf ((f s).getD s) := by
  rw [h]
  cases f s <;> rfl

section

variable {c : Char} {s : List Char} (hc : c ≠ '\n')
  (ih : ∀ t : List Char, t.length ≤ s.length → StringsCrBlind t)
include hc ih

theorem afterSq_crlf_cons :
    afterSq (crlf (c :: s)) = (afterSq (c :: s)).map crlf := by
  rw [crlf_cons hc]
  by_cases hq : c = '\''
  · subst hq
    rfl
  by_cases hb : c = '\\'
  · subst hb
    cases s with
    | nil => rfl
    | cons d s =>
      obtain ⟨e, m, hm, heq⟩ := crlf_escaped d s
      rw [heq, afterSq, (after_inert hm _).1, afterSq]
      exact (ih s (Nat.le_succ _)).1
  rw [afterSq_other hq hb, afterSq_other hq hb]
  exact (ih s (Nat.le_refl _)).1

theorem afterDq_crlf_cons :
    afterDq (crlf (c :: s)) = (afterDq (c :: s)).map crlf := by
  rw [crlf_cons hc]
  by_cases hq : c = '\"'
  · subst hq
    rw [afterDq, afterDq]
    rfl
  by_cases hb : c = '\\'
  · subst hb
    cases s with
    | nil =>
      rw [crlf_nil, afterDq]
      rfl
    | cons d s =>
      obtain ⟨e, m, hm, heq⟩ := crlf_escaped d s
      rw [heq, afterDq, (after_inert hm _).2.1, afterDq]
      exact (ih s (Nat.le_succ _)).2.1
  by_cases hh : c = '#' ∧ ∃ u, s = '\x7b' :: u
  · obtain ⟨rfl, u, rfl⟩ := hh
    rw [crlf_cons (by decide), afterDq_interpolation, afterDq_interpolation,
      getD_crlf (ih u (Nat.le_succ _)).2.2]
    exact (ih _ (Nat.le_succ_of_le (length_getD_le shortens_strings.2 u))).2.1
  · rw [afterDq_other hq hb fun u hc hs => hh ⟨hc, u, hs⟩,
      afterDq_other hq hb fun v hc hv => hh ⟨hc, ?_⟩]
    · exact (ih s (Nat.le_refl _)).2.1
    · exact exists_of_crlf_cons (by decide) hv

theorem afterBrace_crlf_cons :
    afterBrace (crlf (c :: s)) = (afterBrace (c :: s)).map crlf := by
  rw [crlf_cons hc]
  obtain ⟨ihsq, ihdq, ihbrace⟩ := ih s (Nat.le_refl _)
  by_cases hclose : c = '\x7d'
  · subst hclose
    rw [afterBrace, afterBrace]
    rfl
  by_cases hsq : c = '\''
  · subst hsq
    rw [afterBrace, afterBrace, within_afterSq, within_afterSq, getD_crlf ihsq]
    exact (ih _ (length_getD_le shortens_afterSq s)).2.2
  by_cases hdq : c = '\"'
  · subst hdq
    rw [afterBrace, afterBrace, within_afterDq, within_afterDq, getD_crlf ihdq]
    exact (ih _ (length_getD_le shortens_strings.1 s)).2.2
  by_cases ho : c = '\x7b'
  · subst ho
    rw [afterBrace, afterBrace, within_afterBrace, within_afterBrace,
      getD_crlf ihbrace]
    exact (ih _ (length_getD_le shortens_strings.2 s)).2.2
  by_cases hb : c = '\\' ∧ ∃ u, s = '\x7d' :: u
  · obtain ⟨rfl, u, rfl⟩ := hb
    rw [crlf_cons (by decide), afterBrace, afterBrace]
    exact (ih u (Nat.le_succ _)).2.2
  · rw [afterBrace_other ⟨hclose, hsq, hdq, ho⟩ fun u hc hs => hb ⟨hc, u, hs⟩,
      afterBrace_other ⟨hclose, hsq, hdq, ho⟩ fun v hc hv => hb ⟨hc, ?_⟩]
    · exact ihbrace
    · exact exists_of_crlf_cons (by decide) hv

end

theorem stringsCrBlind (s : List Char) : StringsCrBlind s := by
  generalize hn : s.length = n
  induction n using Nat.strongRecOn generalizing s with
  | _ n ih =>
    subst hn
    cases s with
    | nil =>
      unfold StringsCrBlind
      rw [crlf_nil, afterSq, afterDq, afterBrace]
      exact ⟨rfl, rfl, rfl⟩
    | cons c s =>
      have hle : ∀ t : List Char, t.length ≤ s.length → StringsCrBlind t :=
        fun t ht => ih _ (Nat.lt_succ_of_le ht) t rfl
      by_cases hc : c = '\n'
      · subst hc
        -- Strings pass over the end of a line, however it is written.
        have hinert : ∀ c ∈ ['\r', '\n'], Inert c := by
          unfold Inert
          decide
        have hbefore := after_inert hinert (crlf s)
        have hbefore' := after_inert (m := ['\n'])
          (fun c hc => hinert c (List.mem_cons_of_mem _ hc)) s
        unfold StringsCrBlind
        rw [show crlf ('\n' :: s) = ['\r', '\n'] ++ crlf s from rfl,
          show '\n' :: s = ['\n'] ++ s from rfl, hbefore.1, hbefore.2.1, hbefore.2.2,
          hbefore'.1, hbefore'.2.1, hbefore'.2.2]
        exact hle s (Nat.le_refl _)
      · exact ⟨afterSq_crlf_cons hc hle, afterDq_crlf_cons hc hle,
          afterBrace_crlf_cons hc hle⟩

namespace CrBlind

theorem dqString : CrBlind dqString :=
  (literal (by decide) (by decide)).next fun s => (stringsCrBlind s).2.1

theorem sqString : CrBlind sqString :=
  (literal (by decide) (by decide)).next fun s => (stringsCrBlind s).1

end CrBlind

/-! ## The end of a line -/

/-- A text with carriage returns, without the one at its very start. -/
def pastCr : List Char → List Char
  | '\n' :: s => '\n' :: crlf s
  | s => crlf s

theorem pastCr_cons {c : Char} (hc : c ≠ '\n') (s : List Char) :
    pastCr (c :: s) = crlf (c :: s) := by
  unfold pastCr
  split
  · rename_i heq
    exact absurd (List.cons.inj heq).1 hc
  · rfl

theorem newline_crlf (s : List Char) : newline (crlf s) = none := by
  cases h : newline (crlf s) with
  | none => rfl
  | some t => exact absurd (newline_eq_some h) (crlf_ne_newline s t)

theorem newline_pastCr (s : List Char) :
    newline (pastCr s) = (newline s).map crlf := by
  cases s with
  | nil => rfl
  | cons c s =>
    by_cases hc : c = '\n'
    · subst hc
      rfl
    · rw [pastCr_cons hc, newline_crlf]
      simp [newline, Reader.literal, Ne.symm hc]

/-- A comment takes the carriage return along. -/
theorem comment_crlf (s : List Char) : comment (crlf s) = (comment s).map pastCr := by
  have hend : ∀ s : List Char, (crlf s).dropWhile (· ≠ '\n')
      = pastCr (s.dropWhile (· ≠ '\n')) := by
    intro s
    induction s with
    | nil => rfl
    | cons c s ih =>
      by_cases hc : c = '\n'
      · subst hc
        rfl
      · rw [crlf_cons hc, List.dropWhile_cons_of_pos (by simpa using hc),
          List.dropWhile_cons_of_pos (by simpa using hc), ih]
  cases s with
  | nil => rfl
  | cons c s =>
    by_cases hc : c = '\n'
    · subst hc
      rfl
    · rw [crlf_cons hc, pattern_comment, pattern_comment]
      split
      · exact congrArg some (hend s)
      · rfl

/-- An opener behind which a comment goes up to the newline. -/
def commentedTail (opener : Reader) : Reader :=
  .next opener (.next spacing (.next comment (.present newline)))

/-- With carriage returns an opener ends a line only if a comment follows. -/
theorem tail_crlf {opener : Reader} (h : CrBlind opener) (s : List Char) :
    tail opener (crlf s) = (commentedTail opener s).map pastCr := by
  have hpresent : ∀ t, Reader.present newline (pastCr t)
      = (Reader.present newline t).map pastCr := by
    intro t
    simp only [Reader.present, Reader.absent, newline_pastCr, Option.isSome_map]
    by_cases ht : (newline t).isSome = true <;> simp [ht]
  rw [tail, commentedTail, Reader.next, Reader.next, h]
  cases opener s with
  | none => rfl
  | some t =>
    rw [Option.map_some, Option.bind_some, Option.bind_some, Reader.next, Reader.next,
      CrBlind.spacing]
    cases spacing t with
    | none => rfl
    | some u =>
      rw [Option.map_some, Option.bind_some, Option.bind_some, Reader.next, Reader.next,
        Reader.optional, Option.bind_some, comment_crlf]
      cases comment u with
      | none =>
        change Reader.present newline (crlf u) = none
        rw [Reader.present, Reader.absent, Reader.absent, newline_crlf]
        rfl
      | some v => exact hpresent v

/-- The same where tokens have led to the end of the line. -/
theorem tail_pastCr {opener : Reader} (h : CrBlind opener)
    (hn : ∀ s, opener ('\n' :: s) = none) (s : List Char) :
    tail opener (pastCr s) = (commentedTail opener s).map pastCr := by
  cases s with
  | nil => exact tail_crlf h []
  | cons c s =>
    by_cases hc : c = '\n'
    · subst hc
      rw [pastCr, tail, commentedTail, Reader.next, Reader.next, hn, hn]
      rfl
    · rw [pastCr_cons hc]
      exact tail_crlf h (c :: s)

/-! ## Tokens -/

/-- The words of a text, and those of the text with carriage returns. A carriage
return is a word of its own. -/
structure CrWord (word word' : Reader) : Prop where
  char : ∀ {c : Char} (s : List Char), c ≠ '\n' →
    word' (crlf (c :: s)) = (word (c :: s)).map crlf
  newline : ∀ s, word ('\n' :: s) = none ∧ word' ('\n' :: s) = none
  cr : ∀ s, word' ('\r' :: '\n' :: s) = some ('\n' :: s)
  backslash : ∀ s, word ('\\' :: s) = some s
  nil : word [] = none ∧ word' [] = none

theorem crWord_wordOrChar :
    CrWord (.pattern Token.wordOrChar) (.pattern Token.wordOrChar) where
  char {c} s hc := by
    rw [crlf_cons hc, pattern_wordOrChar, pattern_wordOrChar]
    split
    · exact congrArg some (dropWhile_crlf rfl rfl s)
    · split <;> rfl
  newline s := ⟨by rw [pattern_wordOrChar]; rfl, by rw [pattern_wordOrChar]; rfl⟩
  cr s := by rw [pattern_wordOrChar]; rfl
  backslash s := by rw [pattern_wordOrChar]; rfl
  nil := ⟨rfl, rfl⟩

theorem CrWord.before {stop stop' : Reader}
    (h : ∀ s, (stop' (crlf s)).isSome = (stop s).isSome)
    (hcr : ∀ s, stop' ('\r' :: s) = none) (hback : ∀ s, stop ('\\' :: s) = none) :
    CrWord (wordBefore stop) (wordBefore stop') where
  char {c} s hc := by
    rw [wordBefore, wordBefore, Reader.next, Reader.next, Reader.absent, Reader.absent, h]
    split
    · rfl
    · exact crWord_wordOrChar.char s hc
  newline s := by
    have hword : Reader.pattern Token.wordOrChar ('\n' :: s) = none :=
      (crWord_wordOrChar.newline s).1
    have hnone : ∀ stop : Reader, wordBefore stop ('\n' :: s) = none := by
      intro stop
      rw [wordBefore, Reader.next, Reader.absent]
      split
      · rfl
      · exact hword
    exact ⟨hnone stop, hnone stop'⟩
  cr s := by
    rw [wordBefore, Reader.next, Reader.absent, hcr]
    exact crWord_wordOrChar.cr s
  backslash s := by
    rw [wordBefore, Reader.next, Reader.absent, hback]
    exact crWord_wordOrChar.backslash s
  nil := by
    have hnone : ∀ stop : Reader, wordBefore stop [] = none := by
      intro stop
      rw [wordBefore, Reader.next, Reader.absent]
      split <;> rfl
    exact ⟨hnone stop, hnone stop'⟩

/-- What a token leaves: it may have taken the carriage return along. -/
def CrRest (u v : List Char) : Prop :=
  v = crlf u ∨ v = pastCr u

theorem CrBlind.rel {f : Reader} (h : CrBlind f) (s : List Char) :
    Option.Rel CrRest (f s) (f (crlf s)) := by
  rw [h]
  cases f s with
  | none => exact .none
  | some t => exact .some (.inl rfl)

theorem pattern_escape (c d : Char) (s : List Char) :
    Reader.pattern Token.escape (c :: d :: s)
      = if c = '\\' ∧ d ≠ '\n' then some s else none := by
  rw [Reader.pattern, Token.escape, Regex.strip, strip_char]
  by_cases hc : c = '\\'
  · rw [if_pos hc, Token.noneOf, Regex.strip, contains_not_newline]
    simp [hc]
  · rw [if_neg hc, if_neg fun h => hc h.1]

variable {word word' : Reader}

theorem token_newline (h : ∀ s, word ('\n' :: s) = none) (s : List Char) :
    token word ('\n' :: s) = none := by
  change (((none : Option (List Char)).or none).or none).or (word ('\n' :: s)) = _
  rw [h]
  rfl

/-- Within a line tokens are the same. -/
theorem rel_token_crlf (h : CrWord word word') {c : Char} (hc : c ≠ '\n')
    (s : List Char) :
    Option.Rel CrRest (token word (c :: s)) (token word' (crlf (c :: s))) := by
  have hword : Option.Rel CrRest (word (c :: s)) (word' (crlf (c :: s))) := by
    rw [h.char s hc]
    cases word (c :: s) with
    | none => exact .none
    | some t => exact .some (.inl rfl)
  have hcomment : Option.Rel CrRest (comment (c :: s)) (comment (crlf (c :: s))) := by
    rw [comment_crlf]
    cases comment (c :: s) with
    | none => exact .none
    | some t => exact .some (.inr rfl)
  have hrest := rel_or hcomment (rel_or (CrBlind.dqString.rel (c :: s))
    (rel_or (CrBlind.sqString.rel (c :: s)) hword))
  cases s with
  | nil =>
    have hescape : Reader.pattern Token.escape [c] = none := by
      rw [Reader.pattern, Token.escape, Regex.strip, strip_char]
      split <;> rfl
    rw [crlf_cons hc, crlf_nil] at hrest ⊢
    refine rel_or ?_ hrest
    rw [hescape]
    exact .none
  | cons d s =>
    by_cases hback : c = '\\' ∧ d = '\n'
    · -- The carriage return is escaped in place of the newline.
      obtain ⟨rfl, rfl⟩ := hback
      have hleft : token word ('\\' :: '\n' :: s) = some ('\n' :: s) := by
        rw [token, Reader.orElse, pattern_escape, if_neg (by simp), Option.none_or]
        exact h.backslash _
      have hright : token word' (crlf ('\\' :: '\n' :: s)) = some ('\n' :: crlf s) := by
        rw [crlf_cons hc, crlf_newline, token, Reader.orElse, pattern_escape,
          if_pos (by decide), Option.some_or]
      rw [hleft, hright]
      exact .some (.inr rfl)
    · have hescape : Option.Rel CrRest (Reader.pattern Token.escape (c :: d :: s))
          (Reader.pattern Token.escape (crlf (c :: d :: s))) := by
        rw [crlf_cons hc, pattern_escape]
        by_cases hd : d = '\n'
        · subst hd
          rw [crlf_newline, pattern_escape, if_neg (by simp),
            if_neg fun h => hback ⟨h.1, rfl⟩]
          exact .none
        · rw [crlf_cons hd, pattern_escape]
          split
          · exact .some (.inl rfl)
          · exact .none
      exact rel_or hescape hrest

/-- Tokens lead to the same place with and without carriage returns; the one at the
end of a line is passed over. -/
theorem skipAll_crlf (h : CrWord word word') (hshort : Shortens word)
    (hshort' : Shortens word') (s : List Char) :
    Reader.skipAll (token word') (crlf s)
      = pastCr (Reader.skipAll (token word) s) := by
  have hline : ∀ s, Reader.skipAll (token word') ('\n' :: s) = '\n' :: s :=
    fun s => skipAll_none (token_newline (fun s => (h.newline s).2) s)
  generalize hn : s.length = n
  induction n using Nat.strongRecOn generalizing s with
  | _ n ih =>
    cases s with
    | nil =>
      have hnil : ∀ {w : Reader}, w [] = none → token w [] = none := by
        intro w hw
        change (none : Option (List Char)).or (w []) = none
        rw [hw]
        rfl
      rw [skipAll_none (hnil h.nil.1), crlf_nil, skipAll_none (hnil h.nil.2)]
      rfl
    | cons c s =>
      by_cases hc : c = '\n'
      · subst hc
        have hcr : token word' ('\r' :: '\n' :: crlf s) = some ('\n' :: crlf s) := by
          change (none : Option (List Char)).or (word' _) = _
          rw [h.cr, Option.none_or]
        rw [skipAll_none (token_newline (fun s => (h.newline s).1) s), crlf_newline,
          skipAll_some hcr (Nat.lt_succ_self _), hline]
        rfl
      · have hrel := rel_token_crlf h hc s
        cases hs : token word (c :: s) with
        | none =>
          rw [hs] at hrel
          generalize ht : token word' (crlf (c :: s)) = v at hrel
          cases hrel
          rw [skipAll_none hs, skipAll_none ht, pastCr_cons hc]
        | some u =>
          rw [hs] at hrel
          generalize ht : token word' (crlf (c :: s)) = v at hrel
          cases hrel with
          | some huv =>
            have hlt := shortens_token hshort _ _ hs
            rw [skipAll_some hs hlt, skipAll_some ht (shortens_token hshort' _ _ ht)]
            rcases huv with rfl | rfl
            · exact ih _ (hn ▸ hlt) u rfl
            · cases u with
              | nil => exact ih _ (hn ▸ hlt) [] rfl
              | cons d u =>
                by_cases hd : d = '\n'
                · subst hd
                  rw [skipAll_none (token_newline (fun s => (h.newline s).1) u)]
                  exact hline _
                · rw [pastCr_cons hd]
                  exact ih _ (hn ▸ hlt) (d :: u) rfl

/-! ## Lines -/

/-- What ends a line early, where `tail` says when an opener ends a line. -/
def anyTailWith (tail : Reader → Reader) : Reader :=
  .orElse (tail blockOpener) (tail (.pattern Token.openBracket))

def leadStopWith (tail : Reader → Reader) : Reader :=
  .orElse (anyTailWith tail) (.pattern Token.heredocAhead)

/-- A line of some shape, where `tail` says when an opener ends a line, and where there
are no heredocs. -/
def lineWith (tail : Reader → Reader) : LineShape → Reader
  | .blockOpener => .next (.many (token (wordBefore (leadStopWith tail))))
    (.next (tail blockOpener) newline)
  | .bracketTail => .next (.many (token (wordBefore (leadStopWith tail))))
    (.next (tail (.pattern Token.openBracket)) newline)
  | .heredocIntro => fun _ => none
  | .plain => .next upToEnd newline
  | shape => .next (opening shape)
    (.next (.many (token (wordBefore (anyTailWith tail)))) newline)

/-- With the tails of the grammar these are the lines of the grammar. -/
theorem lineWith_tail (shape : LineShape) : lineWith tail shape = lineOf shape := by
  cases shape <;> rfl

theorem isSome_anyTail_crlf (s : List Char) :
    (anyTail (crlf s)).isSome = (anyTailWith commentedTail s).isSome := by
  rw [anyTail, blockTail, bracketTail, Reader.orElse, tail_crlf CrBlind.blockOpener,
    tail_crlf CrBlind.openBracket, anyTailWith, Reader.orElse, Option.isSome_or,
    Option.isSome_or, Option.isSome_map, Option.isSome_map]

theorem isSome_leadStop_crlf (s : List Char) :
    (leadStop (crlf s)).isSome = (leadStopWith commentedTail s).isSome := by
  have hahead : CrBlind (.pattern Token.heredocAhead) := .pattern rfl rfl
  rw [leadStop, leadStopWith, Reader.orElse, Reader.orElse, Option.isSome_or,
    Option.isSome_or, isSome_anyTail_crlf, hahead.isSome]

/-- A line with carriage returns, whatever its shape, is a line without them in which
openers need a comment. -/
theorem lineOf_crlf (shape : LineShape) (s : List Char) :
    lineOf shape (crlf s) = (lineWith commentedTail shape s).map crlf := by
  have hwords : CrWord (wordBefore (anyTailWith commentedTail)) (wordBefore anyTail) :=
    .before isSome_anyTail_crlf (fun _ => rfl) fun _ => rfl
  have hlead : CrWord (wordBefore (leadStopWith commentedTail)) (wordBefore leadStop) :=
    .before isSome_leadStop_crlf (fun _ => rfl) fun _ => rfl
  have ends : ∀ {word word' : Reader}, CrWord word word' → Shortens word →
      Shortens word' → ∀ s, Reader.next (.many (token word')) newline (crlf s)
        = (Reader.next (.many (token word)) newline s).map crlf := by
    intro word word' h hshort hshort' s
    change newline (Reader.skipAll _ (crlf s)) = _
    rw [skipAll_crlf h hshort hshort', newline_pastCr]
    rfl
  have tailed : ∀ {opener : Reader}, CrBlind opener →
      (∀ s, opener ('\n' :: s) = none) → ∀ s,
      Reader.next (.many (token (wordBefore leadStop))) (.next (tail opener) newline)
        (crlf s) = (Reader.next (.many (token (wordBefore (leadStopWith commentedTail))))
          (.next (commentedTail opener) newline) s).map crlf := by
    intro opener h hn s
    change (tail opener (Reader.skipAll _ (crlf s))).bind newline = _
    rw [skipAll_crlf hlead (shortens_wordBefore _) (shortens_wordBefore _),
      tail_pastCr h hn]
    change _ = ((commentedTail opener (Reader.skipAll _ s)).bind newline).map crlf
    cases commentedTail opener (Reader.skipAll _ s) with
    | none => rfl
    | some t => exact newline_pastCr t
  have opened : ∀ shape, Reader.next (opening shape)
      (.next (.many (token (wordBefore anyTail))) newline) (crlf s)
        = (Reader.next (opening shape) (.next
          (.many (token (wordBefore (anyTailWith commentedTail)))) newline) s).map crlf :=
    fun shape => CrBlind.next_of (CrBlind.opening shape)
      (ends hwords (shortens_wordBefore _) (shortens_wordBefore _)) s
  cases shape
  case blockOpener => exact tailed CrBlind.blockOpener (fun _ => rfl) s
  case bracketTail => exact tailed CrBlind.openBracket (fun _ => rfl) s
  case heredocIntro => rfl
  case plain =>
    exact ends crWord_wordOrChar (Shortens.pattern rfl) (Shortens.pattern rfl) s
  all_goals exact opened _

/-- A terminator is followed by its newline, so with carriage returns there is no
terminator. -/
theorem readHeredoc_crlf (s : List Char) : readHeredoc (crlf s) = none := by
  rw [readHeredoc, Option.bind_eq_none_iff]
  intro head hhead
  cases hbody : readBody head with
  | none => rfl
  | some h =>
    obtain ⟨_, hrest, _, hsuffix, t, hclosing, rfl⟩ := readBody_eq_some hbody
    obtain ⟨b, b', _, hlabel, hb', _, heq⟩ := closing_eq_some.1 hclosing
    obtain ⟨r, hr, hhead⟩ := suffix_of_readHead hhead
    have hwhole : h.afterBody <:+ crlf s := by
      refine hsuffix.trans (List.IsSuffix.trans ?_
        (hhead.trans (Takes.suffix cuts_beforeLabel hr)))
      rw [hrest]
      exact List.suffix_cons _ _
    obtain ⟨m, hm⟩ := hwhole
    -- Before the newline there is a blank or the end of the label.
    rcases List.eq_nil_or_concat (head.label.toList ++ b') with hnil | ⟨k, c, hk⟩
    · obtain ⟨_, _, hcons, _⟩ := hlabel
      rw [hcons] at hnil
      cases hnil
    have hcr : crlf s = (m ++ b ++ k) ++ c :: '\n' :: h.afterAll := by
      rw [← hm, heq, ← List.append_assoc head.label.toList, hk]
      simp
    obtain rfl := eq_cr_of_crlf hcr
    have hmem : '\r' ∈ head.label.toList ++ b' := by simp [hk]
    rcases List.mem_append.1 hmem with hmem | hmem
    · exact absurd (hlabel.all _ hmem) (by decide)
    · exact absurd (hb' _ hmem) (by decide)

/-- Reads a line of the first shape that fits, where `tail` says when an opener ends a
line, and where there are no heredocs. -/
def readLineWith (tail : Reader → Reader) (s : List Char) :
    Option ((LineShape × List Char) × List Char) :=
  LineShape.all.findSome? fun shape =>
    (lineWith tail shape s).map fun t => ((shape, taken s t), t)

theorem cuts_commentedTail {opener : Reader} (h : Cuts opener) :
    Cuts (commentedTail opener) :=
  h.next (cuts_spacing.next ((cuts_pattern _).next Takes.present))

theorem cuts_lineWith (shape : LineShape) : Cuts (lineWith commentedTail shape) := by
  have tailed : ∀ {opener : Reader}, Cuts opener → Cuts (Reader.next
      (.many (token (wordBefore (leadStopWith commentedTail))))
      (.next (commentedTail opener) newline)) := fun h =>
    (Takes.many (cuts_token (cuts_wordBefore _))).next
      ((cuts_commentedTail h).next cuts_newline)
  have opened : Cuts (Reader.next (opening shape)
      (.next (.many (token (wordBefore (anyTailWith commentedTail)))) newline)) :=
    (cuts_opening shape).next
      ((Takes.many (cuts_token (cuts_wordBefore _))).next cuts_newline)
  cases shape
  case blockOpener => exact tailed ((cuts_pattern _).orElse (cuts_pattern _))
  case bracketTail => exact tailed (cuts_pattern _)
  case heredocIntro => exact fun _ _ h => nomatch h
  case plain => exact cuts_upToEnd.next cuts_newline
  all_goals exact opened

/-- A line with carriage returns is read as one without them in which openers need a
comment and there are no heredocs. -/
theorem readLine_crlf (s : List Char) : readLine (crlf s)
    = (readLineWith commentedTail s).map fun p =>
      (.whole p.1.1 (crlf p.1.2), crlf p.2) := by
  rw [readLine, readLineWith, List.map_findSome?]
  congr 1
  funext shape
  by_cases hshape : shape = .heredocIntro
  · subst hshape
    rw [readAs, readHeredoc_crlf]
    rfl
  · rw [readAs_of_ne hshape, lineOf_crlf, Function.comp_apply, Option.map_map,
      Option.map_map]
    cases hline : lineWith commentedTail shape s with
    | none => rfl
    | some t =>
      have hsuffix := Takes.suffix (cuts_lineWith shape) hline
      exact congrArg (fun m => some (LogicalLine.whole shape m, crlf t))
        (taken_crlf hsuffix)

end RubyIndent.Ruby
