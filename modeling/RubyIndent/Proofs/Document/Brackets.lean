import RubyIndent.Proofs.Document.Classification
import RubyIndent.Proofs.Document.Forgetting

/-!
# Lines that close their brackets

A line that starts with a bracket and closes all its brackets again. If there is no
other bracket of the first one's kind inside of the first pair, then the line is read
as one that closes its bracket, and the depth stays as it is. If there is one, then
the test whether the first bracket is closed stops there, and the line is read as
one that opens a level (`readLine_nested`): `[[1]]` indents what follows.
-/

namespace RubyIndent.Ruby

open RubyIndent.Peg RubyIndent.Text RubyIndent.Pattern

/-- A text whose brackets are closed in the order in which they were opened. -/
inductive Nested : List Char → Prop where
  | nil : Nested []
  | char {c : Char} {s : List Char} (hc : ∀ p ∈ brackets, c ≠ p.1 ∧ c ≠ p.2)
      (hs : Nested s) : Nested (c :: s)
  | pair {o c : Char} {inner s : List Char} (h : (o, c) ∈ brackets)
      (hinner : Nested inner) (hs : Nested s) : Nested (o :: (inner ++ c :: s))

/-- Nothing but words, blanks, brackets and signs: no literal, escape or comment,
no block parameters and no other line. -/
def Bare (s : List Char) : Prop :=
  ∀ c ∈ s, c ∉ ['\n', '\"', '\'', '\\', '#', '|']

def EndsInDo (s : List Char) : Prop :=
  ∃ m b, s = m ++ 'd' :: 'o' :: b ∧ Blanks b ∧
    ∀ c ∈ m.getLast?, isWordChar c = false

instance (s : List Char) : Decidable (Bare s) :=
  List.decidableBAll _ s

theorem not_endsInDo {s : List Char} (h : 'd' ∉ s) : ¬ EndsInDo s := by
  rintro ⟨m, b, rfl, _⟩
  exact h (by simp)

/-! ## Brackets in order -/

theorem bracket_ne {o c o' c' : Char} (h : (o, c) ∈ brackets)
    (h' : (o', c') ∈ brackets) : c ≠ o' ∧ (c = c' → o = o') := by
  simp only [brackets, List.mem_cons, Prod.mk.injEq, List.not_mem_nil,
    or_false] at h h'
  rcases h with ⟨rfl, rfl⟩ | ⟨rfl, rfl⟩ <;>
    rcases h' with ⟨rfl, rfl⟩ | ⟨rfl, rfl⟩ <;> decide

/-- Where a character stands in a text that is cut at another one. -/
theorem append_cons_cases {m n s t : List Char} {c d : Char}
    (h : m ++ c :: s = n ++ d :: t) :
    (∃ u, m = n ++ d :: u ∧ t = u ++ c :: s) ∨ (m = n ∧ c = d) ∨
      ∃ u, n = m ++ c :: u ∧ s = u ++ d :: t := by
  rcases List.append_eq_append_iff.1 h with ⟨u, rfl, hu⟩ | ⟨u, rfl, hu⟩
  · rcases List.cons_eq_append_iff.1 hu with ⟨rfl, heq⟩ | ⟨v, rfl, heq⟩
    · cases heq
      exact .inr (.inl ⟨(List.append_nil _).symm, rfl⟩)
    · exact .inr (.inr ⟨v, rfl, heq⟩)
  · rcases List.cons_eq_append_iff.1 hu with ⟨rfl, heq⟩ | ⟨v, rfl, heq⟩
    · cases heq
      exact .inr (.inl ⟨List.append_nil _, rfl⟩)
    · exact .inl ⟨v, rfl, heq⟩

/-- A bracket that opens is followed by one that closes. -/
theorem Nested.closed {s : List Char} (h : Nested s) {o c : Char}
    (ho : (o, c) ∈ brackets) {m t : List Char} (hs : s = m ++ o :: t) :
    ∃ p ∈ brackets, p.2 ∈ t := by
  induction h generalizing m t with
  | nil => simp at hs
  | char hc _ ih =>
    rcases List.cons_eq_append_iff.1 hs with ⟨rfl, heq⟩ | ⟨m, rfl, heq⟩
    · cases heq
      exact absurd rfl (hc _ ho).1
    · exact ih heq
  | pair h _ _ ihinner ih =>
    rcases List.cons_eq_append_iff.1 hs with ⟨rfl, heq⟩ | ⟨m, rfl, heq⟩
    · cases heq
      exact ⟨_, h, by simp⟩
    · rcases append_cons_cases heq with ⟨u, _, rfl⟩ | ⟨_, heq⟩ | ⟨u, _, heq⟩
      · exact ⟨_, h, by simp⟩
      · exact absurd heq (bracket_ne h ho).1
      · exact ih heq

/-- A bracket that closes comes behind one of its kind that opens. -/
theorem Nested.opened {s : List Char} (h : Nested s) {o c : Char}
    (ho : (o, c) ∈ brackets) {m t : List Char} (hs : s = m ++ c :: t) : o ∈ m := by
  induction h generalizing m t with
  | nil => simp at hs
  | char hc _ ih =>
    rcases List.cons_eq_append_iff.1 hs with ⟨rfl, heq⟩ | ⟨m, rfl, heq⟩
    · cases heq
      exact absurd rfl (hc _ ho).2
    · exact List.mem_cons_of_mem _ (ih heq)
  | pair h _ _ ihinner ih =>
    rcases List.cons_eq_append_iff.1 hs with ⟨rfl, heq⟩ | ⟨m, rfl, heq⟩
    · cases heq
      exact absurd rfl (bracket_ne ho h).1
    · rcases append_cons_cases heq with ⟨u, rfl, _⟩ | ⟨_, hc⟩ | ⟨u, rfl, hu⟩
      · exact List.mem_cons_of_mem _ (ihinner rfl)
      · rw [(bracket_ne ho h).2 hc.symm]
        exact List.mem_cons_self
      · simp [ih hu]

/-- Before the first bracket of some kind that opens, none of that kind closes. -/
theorem Nested.not_mem {s t : List Char} (h : Nested (s ++ t)) {o c : Char}
    (ho : (o, c) ∈ brackets) (hs : o ∉ s) : c ∉ s := by
  intro hc
  obtain ⟨m, n, rfl⟩ := List.append_of_mem hc
  have hmem := h.opened ho (m := m) (t := n ++ t) (by simp)
  exact hs (List.mem_append_left _ hmem)

/-! ## The end of a bare line -/

theorem Bare.of_append {m s : List Char} (h : Bare (m ++ s)) : Bare s :=
  fun c hc => h c (List.mem_append_right m hc)

theorem Bare.ne {s : List Char} (h : Bare s) {c : Char} (hc : c ∈ s) :
    c ≠ '\n' ∧ c ≠ '#' ∧ c ≠ '|' := by
  refine ⟨?_, ?_, ?_⟩ <;> rintro rfl <;> exact absurd (h _ hc) (by decide)

/-- The first character that is no blank is on the line, or ends it. -/
theorem dropWhile_line (s t : List Char) : Blanks s ∨ ∃ c ∈ s, ∃ m,
    (s ++ '\n' :: t).dropWhile isSpacing = c :: m := by
  cases hd : s.dropWhile isSpacing with
  | nil => exact .inl (List.dropWhile_eq_nil_iff.1 hd)
  | cons c m =>
    refine .inr ⟨c, ?_, m ++ '\n' :: t, ?_⟩
    · refine (List.dropWhile_suffix isSpacing).subset ?_
      rw [hd]
      exact List.mem_cons_self
    · rw [dropWhile_append_stop (by rintro _ ⟨⟩; rfl), hd]
      rfl

/-- Without a bar there are no block parameters. -/
theorem blockParams_bare {s : List Char} (hs : Bare s) (t : List Char) :
    blockParams (s ++ '\n' :: t) = none := by
  rw [blockParams, Reader.next, spacing, Option.bind_some]
  rcases dropWhile_line s t with hblank | ⟨c, hc, m, heq⟩
  · rw [dropWhile_blanks hblank (by simp [Flush, isSpacing])]
    rfl
  · rw [heq]
    simp [Reader.next, Reader.literal, Ne.symm (hs.ne hc).2.2]

/-- Behind an opener that ends a bare line there are blanks only. -/
theorem blanks_of_tail {opener : Reader} {s t u v : List Char} (hs : Bare s)
    (hopener : opener u = some (s ++ '\n' :: t)) (h : tail opener u = some v) :
    Blanks s := by
  rw [tail, Reader.next, hopener, Option.bind_some, Reader.next, spacing,
    Option.bind_some] at h
  rcases dropWhile_line s t with hblank | ⟨c, hc, m, heq⟩
  · exact hblank
  · obtain ⟨hn, hsharp, _⟩ := hs.ne hc
    rw [heq] at h
    simp [Reader.next, Reader.optional, comment, Reader.pattern, Token.comment,
      Regex.strip, strip_char, hsharp, Reader.present, Reader.absent, newline,
      Reader.literal, Ne.symm hn] at h

/-- A bare line that starts with some word. -/
theorem literal_bare {w : String} (hw : '\n' ∉ w.toList) {s t u : List Char}
    (h : Reader.literal w (s ++ '\n' :: t) = some u) :
    ∃ s', s = w.toList ++ s' ∧ u = s' ++ '\n' :: t := by
  rcases List.append_eq_append_iff.1 (literal_eq_some h) with
    ⟨m, hm, heq⟩ | ⟨m, hm, heq⟩
  · cases m with
    | nil => exact ⟨[], by rw [hm]; simp, heq.symm⟩
    | cons c m =>
      cases heq
      exact absurd (by simp [hm]) hw
  · exact ⟨m, hm, heq⟩

theorem blockOpener_bare {s : List Char} (hs : Bare s) (t : List Char) :
    blockOpener (s ++ '\n' :: t) = Reader.literal "do" (s ++ '\n' :: t) := by
  have params : ∀ {w : String} {u}, '\n' ∉ w.toList →
      Reader.literal w (s ++ '\n' :: t) = some u → blockParams u = none := by
    intro w u hw hu
    obtain ⟨s', rfl, rfl⟩ := literal_bare hw hu
    exact blockParams_bare hs.of_append t
  have hbrace : Reader.pattern Token.braceBlock (s ++ '\n' :: t) = none := by
    rw [pattern_braceBlock, Option.bind_eq_none_iff]
    exact fun u hu => params (by decide) hu
  rw [blockOpener, Reader.orElse, hbrace, Option.or_none, pattern_doBlock]
  cases hdo : Reader.literal "do" (s ++ '\n' :: t) with
  | none => rfl
  | some u =>
    rw [Option.bind_some, params (by decide) hdo]
    rfl

/-- What a tail of a bare line looks like. -/
theorem anyTail_bare {s : List Char} (hs : Bare s) {t u : List Char}
    (h : anyTail (s ++ '\n' :: t) = some u) : ∃ b, Blanks b ∧
      (s = 'd' :: 'o' :: b ∨ ∃ p ∈ brackets, s = p.1 :: b) := by
  have opened : ∀ {opener : Reader} {w : String} {v}, '\n' ∉ w.toList →
      tail opener (s ++ '\n' :: t) = some u →
      opener (s ++ '\n' :: t) = some v →
      Reader.literal w (s ++ '\n' :: t) = some v →
      ∃ b, Blanks b ∧ s = w.toList ++ b := by
    intro opener w v hw htail hv hliteral
    obtain ⟨s', rfl, rfl⟩ := literal_bare hw hliteral
    exact ⟨s', blanks_of_tail hs.of_append hv htail, rfl⟩
  rcases Option.or_eq_some_iff.1 h with h | ⟨_, h⟩
  · obtain ⟨v, hv, _⟩ := Option.bind_eq_some_iff.1 h
    obtain ⟨b, hb, heq⟩ := opened (by decide) h hv (blockOpener_bare hs t ▸ hv)
    exact ⟨b, hb, .inl heq⟩
  · obtain ⟨v, hv, _⟩ := Option.bind_eq_some_iff.1 h
    have hopen := hv
    rw [pattern_openBracket] at hopen
    rcases Option.or_eq_some_iff.1 hopen with hopen | ⟨_, hopen⟩
    · obtain ⟨b, hb, heq⟩ := opened (by decide) h hv hopen
      exact ⟨b, hb, .inr ⟨('[', ']'), by decide, heq⟩⟩
    · obtain ⟨b, hb, heq⟩ := opened (by decide) h hv hopen
      exact ⟨b, hb, .inr ⟨('\x7b', '\x7d'), by decide, heq⟩⟩

/-- The tokens of a bare line lead up to its newline, from the start of a token on,
if the line does not end with `do` or a bracket that opens. -/
theorem skipAll_bare {line : List Char} (hline : Bare line)
    (hdo : ¬ EndsInDo line)
    (hopen : ∀ p ∈ brackets, ∀ m b, line = m ++ p.1 :: b → ¬ Blanks b)
    (t : List Char) {k s : List Char} (hs : line = k ++ s)
    (hword : ∀ c ∈ k.getLast?, ∀ d ∈ s.head?,
      isWordChar c = true → isWordChar d = false) :
    Reader.skipAll (token (wordBefore anyTail)) (s ++ '\n' :: t)
      = '\n' :: t := by
  generalize hn : s.length = n
  induction n using Nat.strongRecOn generalizing k s with
  | _ n ih =>
    have htail : anyTail (s ++ '\n' :: t) = none := by
      cases h : anyTail (s ++ '\n' :: t) with
      | none => rfl
      | some u =>
        obtain ⟨b, hb, rfl | ⟨p, hp, rfl⟩⟩ :=
          anyTail_bare (Bare.of_append (hs ▸ hline)) h
        · refine absurd ⟨k, b, hs, hb, fun c hc => ?_⟩ hdo
          cases hc' : isWordChar c with
          | false => rfl
          | true => exact absurd (hword c hc 'd' rfl hc') (by decide)
        · exact absurd hb (hopen p hp k b hs)
    cases s with
    | nil => exact skipAll_none (token_wordBefore (by decide) htail)
    | cons c s =>
      have hc : c ∉ ['\n', '\"', '\'', '\\', '#', '|'] :=
        hline c (by simp [hs])
      simp only [List.mem_cons, List.not_mem_nil, or_false, not_or] at hc
      obtain ⟨hn', hdq, hsq, hback, hsharp, _⟩ := hc
      rw [List.cons_append] at htail ⊢
      have htoken := token_wordBefore ⟨hback, hsharp, hdq, hsq⟩ htail
      rw [pattern_wordOrChar] at htoken
      cases hc : isWordChar c with
      | true =>
        rw [hc, if_pos rfl] at htoken
        rw [skipAll_some htoken (length_dropWhile_lt _ c _),
          dropWhile_append_stop (by rintro _ ⟨⟩; rfl)]
        refine ih _ (hn ▸ length_dropWhile_lt isWordChar c s)
          (k := k ++ c :: s.takeWhile isWordChar) ?_ ?_ rfl
        · rw [hs, List.append_assoc, List.cons_append,
            List.takeWhile_append_dropWhile]
        · intro _ _ d hd _
          have hstop := List.head?_dropWhile_not isWordChar s
          rw [Option.mem_def.1 hd] at hstop
          simpa using hstop
      | false =>
        rw [hc, if_neg (by simp), if_neg (by simp [hn', hdq, hsq])] at htoken
        rw [skipAll_some htoken (Nat.lt_succ_self _)]
        refine ih s.length (hn ▸ Nat.lt_succ_self _) (k := k ++ [c]) (by simp [hs]) ?_ rfl
        intro d hd _ _ hd'
        rw [List.getLast?_concat, Option.mem_some_iff] at hd
        rw [hd, hd'] at hc
        cases hc

/-! ## The shape of a line that closes its brackets -/

/-- A line is taken to close its first bracket unless another one of the same kind
stands inside of the first pair. -/
theorem opening_nested {o c : Char} (h : (o, c) ∈ brackets)
    {inner rest : List Char} (hinner : Nested inner) (hrest : Nested rest)
    (hline : Bare (o :: (inner ++ c :: rest))) (t : List Char) :
    opening .bracketSameLine (o :: (inner ++ c :: rest) ++ '\n' :: t)
      = if o ∈ inner then none else some (rest ++ '\n' :: t) := by
  have hnewline : ∀ d ∈ inner ++ c :: rest, d ≠ '\n' := fun d hd =>
    (hline.ne (List.mem_cons_of_mem o hd)).1
  split
  · rename_i hmem
    obtain ⟨a, b, rfl, ha⟩ := List.eq_append_cons_of_mem hmem
    have hnone : afterLast c a = none :=
      afterLast_eq_none.2 (Nested.not_mem hinner h ha)
    have hopening := opening_bracketSameLine h (s := a)
      (t := o :: (b ++ c :: rest ++ '\n' :: t)) (fun d hd => ⟨?_, ?_⟩) (by simp)
    · rw [hnone] at hopening
      simpa using hopening
    · rintro rfl
      exact ha hd
    · exact hnewline d (by simp [hd])
  · rename_i hmem
    -- The test goes on to the next bracket of the same kind, or to the newline.
    obtain ⟨a, b, rfl, hrun, hb⟩ := exists_run o rest
    have ha : o ∉ a := fun ho => (hrun o ho).1 rfl
    have hlast : afterLast c (inner ++ c :: a) = some a := by
      rw [afterLast_append, afterLast,
        afterLast_eq_none.2 (Nested.not_mem hrest h ha)]
      simp
    have hopening := opening_bracketSameLine h (s := inner ++ c :: a)
      (t := b ++ '\n' :: t) (fun d hd => ⟨?_, hnewline d ?_⟩) fun d hd => ?_
    · rw [hlast] at hopening
      simpa using hopening
    · rintro rfl
      simp only [List.mem_append, List.mem_cons, hmem, ha, or_false,
        false_or] at hd
      exact (bracket_ne h h).1 hd.symm
    · simp only [List.mem_append, List.mem_cons] at hd ⊢
      rcases hd with hd | hd | hd <;> simp [hd]
    · cases b with
      | nil => exact .inr (Option.mem_some_iff.1 hd).symm
      | cons e b => exact hb d hd

/-- The line that is read where all brackets are closed. -/
theorem readLine_nested {o c : Char} (h : (o, c) ∈ brackets)
    {inner rest : List Char} (hinner : Nested inner) (hrest : Nested rest)
    (hline : Bare (o :: (inner ++ c :: rest)))
    (hdo : ¬ EndsInDo (o :: (inner ++ c :: rest))) (t : List Char) :
    readLine (o :: (inner ++ c :: rest) ++ '\n' :: t)
      = some (.whole (if o ∈ inner then .bracketOpen else .bracketSameLine)
        (o :: (inner ++ c :: rest) ++ ['\n']), t) := by
  have hopen : ∀ p ∈ brackets, ∀ m b,
      o :: (inner ++ c :: rest) = m ++ p.1 :: b → ¬ Blanks b := by
    intro p hp m b heq hb
    obtain ⟨q, hq, hmem⟩ := (Nested.pair h hinner hrest).closed hp heq
    have hclosers : ∀ q ∈ brackets, isSpacing q.2 = false := by decide
    cases (hclosers q hq).symm.trans (hb _ hmem)
  have hwords : isWordChar o = false ∧ isWordChar c = false := by
    have hall : ∀ q ∈ brackets, isWordChar q.1 = false ∧ isWordChar q.2 = false := by
      decide
    exact hall _ h
  have ends : ∀ {k s x}, o :: (inner ++ c :: rest) = k ++ [x] ++ s →
      isWordChar x = false →
      Reader.next upToTail newline (s ++ '\n' :: t) = some t := by
    intro k s x hs hx
    have hskip := skipAll_bare hline hdo hopen t hs fun d hd _ _ hd' => by
      rw [List.getLast?_concat, Option.mem_some_iff] at hd
      rw [← hd, hx] at hd'
      cases hd'
    rw [Reader.next, upToTail, Peg.Reader.many, Option.bind_some, hskip]
    rfl
  have hinnerEnds := ends (k := []) (x := o) (s := inner ++ c :: rest) rfl hwords.1
  have hrestEnds := ends (k := o :: inner) (x := c) (s := rest) (by simp) hwords.2
  have hsame := opening_nested h hinner hrest hline t
  have htaken : taken (o :: (inner ++ c :: rest) ++ '\n' :: t) t
      = o :: (inner ++ c :: rest) ++ ['\n'] := by
    rw [List.append_cons, taken_append_self]
  have hkeyword : ∀ shape ∈ [LineShape.indentOpen, .outdent, .dual],
      readAs shape (o :: (inner ++ c :: rest) ++ '\n' :: t) = none := by
    intro shape hmem
    rw [readAs_of_opening (by revert shape; decide), Option.map_eq_none_iff]
    simp only [brackets, List.mem_cons, Prod.mk.injEq, List.not_mem_nil,
      or_false] at h hmem
    rcases h with ⟨rfl, rfl⟩ | ⟨rfl, rfl⟩ <;> rcases hmem with rfl | rfl | rfl <;> rfl
  have hopening : opening .bracketOpen (o :: (inner ++ c :: rest) ++ '\n' :: t)
      = some (inner ++ c :: rest ++ '\n' :: t) := by
    simp only [brackets, List.mem_cons, Prod.mk.injEq, List.not_mem_nil,
      or_false] at h
    rcases h with ⟨rfl, rfl⟩ | ⟨rfl, rfl⟩ <;> rfl
  have hall : LineShape.all = [.indentOpen, .outdent, .dual] ++ .bracketSameLine ::
      .bracketOpen :: [.bracketClose, .blockOpener, .bracketTail, .heredocIntro,
        .plain] := rfl
  rw [readLine, hall, List.findSome?_append, List.findSome?_eq_none_iff.2 hkeyword,
    Option.none_or, List.findSome?_cons, readAs_of_opening (by decide), hsame]
  by_cases hmem : o ∈ inner
  · rw [if_pos hmem, if_pos hmem, Option.bind_none, Option.map_none,
      List.findSome?_cons, readAs_of_opening (by decide), hopening,
      Option.bind_some, hinnerEnds, Option.map_some, htaken]
  · rw [if_neg hmem, if_neg hmem, Option.bind_some, hrestEnds, Option.map_some,
      htaken]

end RubyIndent.Ruby

namespace RubyIndent.Document

open RubyIndent.Peg RubyIndent.Ruby RubyIndent.Text

variable {src : List Char}

/-- A line that closes its brackets leaves the depth as it is exactly if no other
bracket of the first one's kind stands inside of the first pair. In that case it has
the shape of a line that is closed on itself, and else of one that opens a level. -/
theorem bracket_line {o c : Char} (h : (o, c) ∈ brackets)
    {inner rest : List Char} (hinner : Nested inner) (hrest : Nested rest)
    (hbare : Bare (o :: (inner ++ c :: rest)))
    (hdo : ¬ EndsInDo (o :: (inner ++ c :: rest))) {below : List Char}
    {s : State Indenter src} (hs : Ready s)
    (htext : s.cursor.rest.dropWhile isSpacing
      = o :: (inner ++ c :: rest) ++ '\n' :: below) :
    let shape := if o ∈ inner then .bracketOpen else .bracketSameLine
    let r := matchLine (skipBlanks s)
    r.matched = true ∧ r.state.cursor.rest = below ∧
      MatchedAs shape (skipBlanks s).cursor r.state ∧
      r.state.context.depth = s.context.depth + (if o ∈ inner then 1 else 0) ∧
      (∀ b, Blanks b → classify (String.ofList
        (b ++ (o :: (inner ++ c :: rest) ++ '\n' :: below))) = some shape) := by
  intro shape r
  have hread := readLine_nested h hinner hrest hbare hdo below
  obtain ⟨hmatched, hend, hshape, hdepth⟩ := matchLine_of_readLine hs (htext ▸ hread)
  refine ⟨hmatched, hend, hshape, ?_, fun b hb => ?_⟩
  · rw [hdepth]
    split <;> rfl
  · have hflush : Flush (o :: (inner ++ c :: rest) ++ '\n' :: below) :=
      htext ▸ flush_dropWhile s.cursor.rest
    rw [classify_eq, String.toList_ofList, dropWhile_blanks hb hflush, hread]
    rfl

/-- A pair of braces with another kind of brackets in it. -/
theorem bracket_line_braces :
    let start := State.start "\x7b[1]\x7d\nx\n".toList { unit := "  " : Indenter }
    (matchLine (skipBlanks start)).matched = true ∧
      (matchLine (skipBlanks start)).state.context.depth = 0 := by
  intro start
  have hinner : Nested "[1]".toList :=
    .pair (by decide) (.char (by decide) .nil) .nil
  obtain ⟨hmatched, _, _, hdepth, _⟩ := bracket_line (by decide) hinner .nil
    (by decide) (not_endsInDo (by decide)) (ready_start _ _)
    (show start.cursor.rest.dropWhile isSpacing
      = "\x7b[1]\x7d\nx\n".toList by decide +kernel)
  exact ⟨hmatched, hdepth⟩

/-- A list in a list opens a level that it does not close. -/
theorem bracket_line_lists :
    Nested "[[1]]".toList ∧ Bare "[[1]]".toList ∧ ¬ EndsInDo "[[1]]".toList ∧
      classify "[[1]]\nx\n" = some .bracketOpen ∧
      reindent "[[1]]\nx\n" {} = .ok "[[1]]\n  x\n" :=
  ⟨.pair (by decide) (.pair (by decide) (.char (by decide) .nil) .nil) .nil,
    by decide, not_endsInDo (by decide),
    (classify_eq _).trans (by decide +kernel),
    reindent_of_writeAll rfl (by decide +kernel)⟩

end RubyIndent.Document
