import RubyIndent.Proofs.Document.Depth
import RubyIndent.Proofs.Document.Forgetting
import RubyIndent.Proofs.Ruby.Tails

/-!
# Closing lines

A line that starts with `end` or a closing bracket steps out if the tokens behind
these lead up to its newline. Where they do not, because the line ends with an
opener, no shape fits that shows at the start of a line (`openings_of_closer`), and
the line is read by its end: it stands at the depth of the lines before it and
opens a level. So `].each do |x|` closes nothing.
-/

namespace RubyIndent.Ruby

open RubyIndent.Peg RubyIndent.Text RubyIndent.Pattern

/-- What a closing line starts with: `end` as a whole word that is no hash key, or
a closing bracket. -/
def closer : Reader :=
  .orElse (opening .outdent) (opening .bracketClose)

/-! ## What a closing line starts with -/

/-- A keyword is followed by no character of a word. -/
theorem keyword_eq_some {word : String} {s t : List Char}
    (h : keyword word s = some t) :
    s = word.toList ++ t ∧ t.dropWhile isWordChar = t := by
  obtain ⟨u, hu, hbehind⟩ := Option.bind_eq_some_iff.1 h
  obtain ⟨v, hv, hcolon⟩ := Option.bind_eq_some_iff.1 hbehind
  obtain ⟨rfl, hident⟩ := absent_eq_some hv
  obtain ⟨rfl, _⟩ := absent_eq_some hcolon
  refine ⟨literal_eq_some hu, ?_⟩
  cases t with
  | nil => rfl
  | cons c t =>
    have hc : isWordChar c = false := by
      refine Bool.eq_false_iff.2 fun hc => ?_
      rw [Reader.pattern, Token.identChar, Token.oneOf, Regex.strip,
        contains_oneOf] at hident
      simp only [isWordChar, Bool.or_eq_true, decide_eq_true_eq] at hc
      simp only [List.any_cons, Token.only, between_self] at hident
      rcases hc with ((hc | hc) | hc) | hc <;> simp [hc] at hident
    rw [List.dropWhile_cons, if_neg (by simp [hc])]

theorem closer_eq_some {s rest : List Char} (h : closer s = some rest) :
    opening .outdent s = some rest ∧ s = 'e' :: 'n' :: 'd' :: rest ∧
        rest.dropWhile isWordChar = rest ∨
      s = ']' :: rest ∨ s = '\x7d' :: rest := by
  rcases Option.or_eq_some_iff.1 h with h | ⟨_, h⟩
  · exact .inl ⟨h, keyword_eq_some h⟩
  · rcases Option.or_eq_some_iff.1 h with h | ⟨_, h⟩
    · exact .inr (.inl (literal_eq_some h))
    · exact .inr (.inr (literal_eq_some h))

/-- What closes a line is one token, and no opener. -/
theorem skipAll_closer {stop : Reader} {s rest : List Char}
    (h : closer s = some rest)
    (hstop : ∀ c ∈ ['e', ']', '\x7d'], ∀ u, stop (c :: u) = none) :
    Reader.skipAll (token (wordBefore stop)) s
      = Reader.skipAll (token (wordBefore stop)) rest := by
  rcases closer_eq_some h with ⟨_, rfl, hword⟩ | rfl | rfl
  · refine skipAll_some ?_ (by simp; omega)
    rw [token_wordBefore (by decide) (hstop 'e' (by decide) _),
      pattern_wordOrChar, if_pos (by decide), List.dropWhile_cons,
      if_pos (by decide), List.dropWhile_cons, if_pos (by decide), hword]
  · refine skipAll_some ?_ (Nat.lt_succ_self _)
    rw [token_wordBefore (by decide) (hstop ']' (by decide) _)]
    rfl
  · refine skipAll_some ?_ (Nat.lt_succ_self _)
    rw [token_wordBefore (by decide) (hstop '\x7d' (by decide) _)]
    rfl

/-! ## The shape of a closing line -/

/-- Of the shapes that show at the start of a line, only the closing ones fit a
closing line, and only if its tokens lead up to the newline. -/
theorem openings_of_closer {s rest : List Char} (h : closer s = some rest) :
    ∃ shape, (shape = .outdent ∨ shape = .bracketClose) ∧
      openingShapes.findSome? (readAs · s)
        = (Reader.next upToTail newline rest).map
          fun e => (.whole shape (taken s e), e) := by
  have other : ∀ shape ∈ openingShapes, opening shape s = none →
      readAs shape s = none := by
    intro shape hmem hnone
    rw [readAs_of_opening hmem, hnone]
    rfl
  have fits : ∀ shape ∈ openingShapes, opening shape s = some rest →
      readAs shape s = (Reader.next upToTail newline rest).map
        fun e => (.whole shape (taken s e), e) := by
    intro shape hmem hsome
    rw [readAs_of_opening hmem, hsome]
    rfl
  have hopen := other .indentOpen (by decide)
  have hdual := other .dual (by decide)
  have hsame := other .bracketSameLine (by decide)
  have hbracket := other .bracketOpen (by decide)
  rcases closer_eq_some h with ⟨hend, rfl, _⟩ | rfl | rfl
  · refine ⟨.outdent, .inl rfl, ?_⟩
    simp only [openingShapes, List.findSome?_cons, List.findSome?_nil,
      hopen rfl, hdual rfl, hsame rfl, hbracket rfl,
      other .bracketClose (by decide) rfl, fits .outdent (by decide) hend]
    cases Reader.next upToTail newline rest <;> rfl
  · refine ⟨.bracketClose, .inr rfl, ?_⟩
    simp only [openingShapes, List.findSome?_cons, List.findSome?_nil,
      hopen rfl, hdual rfl, hsame rfl, hbracket rfl,
      other .outdent (by decide) rfl, fits .bracketClose (by decide) rfl]
    cases Reader.next upToTail newline rest <;> rfl
  · refine ⟨.bracketClose, .inr rfl, ?_⟩
    simp only [openingShapes, List.findSome?_cons, List.findSome?_nil,
      hopen rfl, hdual rfl, hsame rfl, hbracket rfl,
      other .outdent (by decide) rfl, fits .bracketClose (by decide) rfl]
    cases Reader.next upToTail newline rest <;> rfl

/-- The tokens up to a tail or a heredoc are among those up to a tail. -/
theorem skipAll_upToStop (s : List Char) :
    Reader.skipAll (token (wordBefore anyTail))
        (Reader.skipAll (token (wordBefore leadStop)) s)
      = Reader.skipAll (token (wordBefore anyTail)) s := by
  refine skipAll_skipAll (cuts_token (cuts_wordBefore leadStop))
    (token_mono fun s t hs => ?_) s
  obtain ⟨u, hu, hword⟩ := Option.bind_eq_some_iff.1 hs
  obtain ⟨rfl, hnone⟩ := absent_eq_some hu
  rw [wordBefore, Reader.next, Reader.absent, (Option.or_eq_none_iff.1 hnone).1,
    if_neg (by simp)]
  exact hword

/-- Where the introducing line of a heredoc does not end with an opener, the tokens
up to a tail lead to its end, with the label among them. -/
theorem skipAll_of_head {s : List Char} {head : HeredocHead}
    (h : readHead s = some head) (hopens : head.opens = false) :
    Reader.skipAll (token (wordBefore anyTail)) s = head.rest := by
  obtain ⟨r, hr, hlabel⟩ := Option.bind_eq_some_iff.1 h
  obtain ⟨t, ht, hhead⟩ := Option.bind_eq_some_iff.1 hlabel
  obtain ⟨u, hu, rfl⟩ := Option.map_eq_some_iff.1 hhead
  have hr : Reader.pattern Token.heredocStart
      (Reader.skipAll (token (wordBefore leadStop)) s) = some r := hr
  cases hu
  have hnone : anyTail (Reader.skipAll (token (wordBefore anyTail)) t) = none := by
    simpa using hopens
  dsimp only
  rw [hnone, Option.getD_none, ← skipAll_upToStop]
  -- The characters before the label are tokens of their own.
  have char : ∀ c ∈ ['<', '-', '~'], ∀ v,
      Reader.skipAll (token (wordBefore anyTail)) (c :: v)
        = Reader.skipAll (token (wordBefore anyTail)) v := by
    intro c hc v
    refine skipAll_some ?_ (Nat.lt_succ_self _)
    simp only [List.mem_cons, List.not_mem_nil, or_false] at hc
    rcases hc with rfl | rfl | rfl <;> exact token_wordBefore (by decide) rfl
  have hstart : Reader.skipAll (token (wordBefore anyTail))
      (Reader.skipAll (token (wordBefore leadStop)) s)
        = Reader.skipAll (token (wordBefore anyTail)) r := by
    rcases pattern_heredocStart hr with heq | heq | heq
    · rw [heq, char _ (by decide), char _ (by decide)]
    · rw [heq, char _ (by decide), char _ (by decide), char _ (by decide)]
    · rw [heq, char _ (by decide), char _ (by decide), char _ (by decide)]
  rw [hstart]
  -- The label is the start of a word, and what is left of the word is no tail.
  have word : ∀ {c v}, isWordChar c = true → anyTail (c :: v) = none →
      Reader.skipAll (token (wordBefore anyTail)) (c :: v)
        = Reader.skipAll (token (wordBefore anyTail)) (v.dropWhile isWordChar) := by
    intro c v hc htail
    refine skipAll_some ?_ (length_dropWhile_lt _ c v)
    rw [token_wordBefore (not_special_of_isWordChar hc) htail,
      pattern_wordOrChar, if_pos hc]
  rcases r with _ | ⟨c, r⟩
  · cases ht
  rw [pattern_heredocLabel] at ht
  split at ht
  · rename_i hc
    cases ht
    have hword : isWordChar c = true := by simp [isWordChar, hc]
    have hne : c ≠ 'd' ∧ c ≠ '\x7b' ∧ c ≠ '[' := by
      refine ⟨?_, ?_, ?_⟩ <;> rintro rfl <;> exact absurd hc (by decide)
    rw [word hword (anyTail_eq_none hne _), ← dropWhile_dropWhile_label]
    generalize r.dropWhile isLabelChar = t at hnone ⊢
    cases t with
    | nil => rfl
    | cons c t =>
      cases hc : isWordChar c with
      | false => rw [List.dropWhile_cons, if_neg (by simp [hc])]
      | true =>
        rw [List.dropWhile_cons, if_pos hc]
        cases htail : anyTail (c :: t) with
        | none => exact (word hc htail).symm
        | some x =>
          have hstop : token (wordBefore anyTail) (c :: t) = none := by
            rw [token_word (not_special_of_isWordChar hc), wordBefore,
              Reader.next, Reader.absent, htail]
            rfl
          rw [skipAll_none hstop, htail] at hnone
          cases hnone
  · cases ht

/-- A closing line whose tokens lead up to the newline. -/
theorem readLine_of_closer {s rest r e : List Char} {l : LogicalLine}
    (h : closer s = some rest) (hend : Reader.next upToTail newline rest = some e)
    (hline : readLine s = some (l, r)) :
    (∀ d, l.shape.level d = d - 1) ∧ l.rise = -1 := by
  obtain ⟨shape, hshape, hfind⟩ := openings_of_closer h
  have hall : LineShape.all
      = openingShapes ++ [.blockOpener, .bracketTail, .heredocIntro, .plain] := rfl
  rw [readLine, hall, List.findSome?_append, hfind, hend] at hline
  cases hline
  rcases hshape with rfl | rfl
  · exact ⟨fun _ => rfl, rfl⟩
  · exact ⟨fun _ => rfl, rfl⟩

/-- A line that ends with an opener, where no heredoc starts before it. -/
theorem readAs_of_tail {s t : List Char}
    (h : Reader.next upToStop anyTail s = some t) :
    readAs .blockOpener s ≠ none ∨ readAs .bracketTail s ≠ none := by
  obtain ⟨u, rfl⟩ : ∃ u, t = '\n' :: u := anyTail_eq_some h
  have ends : ∀ {f : Reader}, f (Reader.skipAll (token (wordBefore leadStop)) s)
      = some ('\n' :: u) → Reader.next upToStop (.next f newline) s = some u := by
    intro f hf
    change Option.bind (f _) newline = some u
    rw [hf]
    rfl
  rcases Option.or_eq_some_iff.1 h with h | ⟨_, h⟩
  · left
    rw [readAs_of_ne (by decide), lineOf, ends h]
    nofun
  · right
    rw [readAs_of_ne (by decide), lineOf, ends h]
    nofun

/-- A closing line whose tokens do not lead up to the newline is read by its end.
It opens a level, unless it is read as a plain line because of a heredoc on it that
does not end. -/
theorem readLine_of_closer_tail {s rest r : List Char} {l : LogicalLine}
    (h : closer s = some rest) (hend : Reader.next upToTail newline rest = none)
    (hline : readLine s = some (l, r)) :
    (∀ d, l.shape.level d = d) ∧ l.rise = (if l.shape = .plain then 0 else 1) ∧
      ((Reader.next upToStop anyTail rest).isSome → l.shape ≠ .plain) := by
  obtain ⟨_, _, hfind⟩ := openings_of_closer h
  rw [hend, Option.map_none, List.findSome?_eq_none_iff] at hfind
  obtain ⟨hread, hbefore⟩ := readAs_of_readLine hline
  have hnot : l.shape ∉ openingShapes := fun hmem => by
    cases (hfind _ hmem).symm.trans hread
  have hrise := (shape_of_readAs hread).2
  cases hl : l.shape with
  | indentOpen | outdent | dual | bracketSameLine | bracketOpen | bracketClose =>
    rw [hl] at hnot
    exact absurd hnot (by decide)
  | blockOpener | bracketTail =>
    rw [hl] at hrise
    exact ⟨fun _ => rfl, hrise (by decide), nofun⟩
  | heredocIntro =>
    rw [hl] at hread
    obtain ⟨hd, hheredoc, heq⟩ := Option.map_eq_some_iff.1 hread
    cases heq
    obtain ⟨head, hhead, hbody⟩ := Option.bind_eq_some_iff.1 hheredoc
    obtain ⟨rfl, hrest, _⟩ := readBody_eq_some hbody
    refine ⟨fun _ => rfl, ?_, nofun⟩
    -- Without an opener the tokens would lead up to the newline.
    cases hopens : hd.opens with
    | true => rfl
    | false =>
      have hskip := skipAll_of_head hhead hopens
      have hchars : ∀ c ∈ ['e', ']', '\x7d'], c ≠ 'd' ∧ c ≠ '\x7b' ∧ c ≠ '[' := by
        simp
      rw [skipAll_closer h fun c hc => anyTail_eq_none (hchars c hc), hrest] at hskip
      have hsome : Reader.next upToTail newline rest = some hd.body :=
        Option.bind_eq_some_iff.2 ⟨_, congrArg some hskip, rfl⟩
      cases hend.symm.trans hsome
  | plain =>
    rw [hl] at hrise hbefore
    refine ⟨fun _ => rfl, hrise (by decide), fun htail => ?_⟩
    obtain ⟨t, ht⟩ := Option.isSome_iff_exists.1 htail
    have hstop : ∀ c ∈ ['e', ']', '\x7d'], ∀ u, leadStop (c :: u) = none := by
      intro c hc u
      simp only [List.mem_cons, List.not_mem_nil, or_false] at hc
      rcases hc with rfl | rfl | rfl <;> rfl
    have htail : Reader.next upToStop anyTail s = some t := by
      refine (congrArg anyTail (skipAll_closer h hstop)).trans ht
    rcases readAs_of_tail htail with hne | hne
    · exact absurd (hbefore .blockOpener (by decide)) hne
    · exact absurd (hbefore .bracketTail (by decide)) hne

end RubyIndent.Ruby

namespace RubyIndent.Document

open RubyIndent.Peg RubyIndent.Ruby RubyIndent.Text

variable {src : List Char}

theorem Writes.eq_of_nil {s t : State Indenter src} (h : Writes s [] t) :
    s = t := by
  generalize hnil : [] = lines at h
  cases h with
  | nil => rfl
  | snoc _ _ => simp at hnil

/-- A closing line has something to see on it. -/
theorem WritesLine.visible_of_closer {u t : State Indenter src}
    {line : WrittenLine} (h : WritesLine u line t) (hu : Ready u)
    {rest : List Char}
    (hcloser : closer (u.cursor.rest.dropWhile isSpacing) = some rest) :
    ¬ LineEnds line.source := by
  obtain ⟨l, r, value, hline, hround, _, _, _, hsource⟩ := h.round hu
  obtain ⟨hl, b, b', _, _, _, _, htext, hrest, _⟩ := round_layout hu hround hline
  have hstart : u.cursor.rest.dropWhile isSpacing
      = l.kept ++ (l.closingLine b b' ++ r) := by
    refine (List.append_right_inj (u.cursor.rest.takeWhile isSpacing)).1 ?_
    rw [List.takeWhile_append_dropWhile, ← hrest]
  obtain ⟨c, k, hkept⟩ := List.exists_cons_of_ne_nil hl.kept_ne_nil
  rw [hstart, hkept] at hcloser
  rw [hsource, htext, hkept]
  intro hends
  have hc := hends c List.mem_cons_self
  rcases closer_eq_some hcloser with ⟨_, heq, _⟩ | heq | heq
  · rw [(List.cons.inj heq).1] at hc
    exact absurd hc (by decide)
  · rw [(List.cons.inj heq).1] at hc
    exact absurd hc (by decide)
  · rw [(List.cons.inj heq).1] at hc
    exact absurd hc (by decide)

/-- What is written for a closing line, and the depth behind it. -/
theorem WritesLine.closing {u t : State Indenter src} {line : WrittenLine}
    (h : WritesLine u line t) (hu : Ready u) {rest : List Char}
    (hcloser : closer (u.cursor.rest.dropWhile isSpacing) = some rest) :
    if (Reader.next upToTail newline rest).isSome then
      AtLevel u.context.unit (u.context.depth - 1).toNat line.shape line.source
        line.written.toList ∧
      t.context.depth = u.context.depth - 1
    else
      AtLevel u.context.unit u.context.depth.toNat line.shape line.source
        line.written.toList ∧
      t.context.depth
        = u.context.depth + (if line.shape = .plain then 0 else 1) ∧
      ((Reader.next upToStop anyTail rest).isSome → line.shape ≠ .plain) := by
  obtain ⟨l, r, value, hline, hround, rfl, _, hshape, hsource⟩ := h.round hu
  have hdepth : (afterRound u value).context.depth = u.context.depth + l.rise :=
    (congrArg Indenter.depth hround.context).trans (depth_emit l _)
  have hlaid := (h.laid hu).1.visible (h.visible_of_closer hu hcloser)
  rw [hdepth]
  rw [hshape] at hlaid ⊢
  cases hend : Reader.next upToTail newline rest with
  | some e =>
    obtain ⟨hlevel, hrise⟩ := readLine_of_closer hcloser hend hline
    rw [hlevel] at hlaid
    exact ⟨hlaid, by rw [hrise]; rfl⟩
  | none =>
    obtain ⟨hlevel, hrise, hplain⟩ := readLine_of_closer_tail hcloser hend hline
    rw [hlevel] at hlaid
    exact ⟨hlaid, by rw [hrise], hplain⟩

/-- Closing lines step out unless they end with an opener. In a document that is
accepted, a line that starts with `end` or a closing bracket, and whose tokens lead
up to its newline, is written one level out from the depth before it, and the depth
behind it is one less. A line whose tokens do not lead there is written at the depth
before it. If they lead to an opener before any heredoc, or if a heredoc on the line
is read as one, then the depth behind the line is one more. -/
theorem reindent_steps_out {input output : String} {config : Config}
    (himpose : config.imposeIndent = true)
    (h : reindent input config = .ok output) :
    let start := State.start input.toList { unit := config.indentUnit }
    ∃ lines last, Writes start lines last ∧
      output = String.join (lines.map (·.written)) ∧
      ∀ before line after, lines = before ++ line :: after →
        ∃ u t, Writes start before u ∧ WritesLine u line t ∧
          line.source = lineText u ∧ u.context.depth = depthOf before ∧
          ∀ rest, closer (skipBlanks u).cursor.rest = some rest →
            if (Reader.next upToTail newline rest).isSome then
              AtLevel config.indentUnit (depthOf before - 1).toNat line.shape
                line.source line.written.toList ∧
              t.context.depth = depthOf before - 1
            else
              AtLevel config.indentUnit (depthOf before).toNat line.shape
                line.source line.written.toList ∧
              t.context.depth
                = depthOf before + (if line.shape = .plain then 0 else 1) ∧
              ((Reader.next upToStop anyTail rest).isSome →
                line.shape ≠ .plain) := by
  intro start
  obtain ⟨lines, last, hwrites, _, houtput, _⟩ := writes_of_reindent himpose h
  refine ⟨lines, last, hwrites, houtput, fun before line after hlines => ?_⟩
  obtain ⟨u, t, hbefore, hline, hu, hsource, hunit, hdepth⟩ := hwrites.round hlines
  refine ⟨u, t, hbefore, hline, hsource, hdepth, fun rest hcloser => ?_⟩
  rw [(skipBlanks_of_ready hu).2.1] at hcloser
  have hclosing := hline.closing hu hcloser
  rwa [hunit, hdepth] at hclosing

/-- An `end` that closes nothing steps out as well. -/
theorem reindent_steps_out_negative :
    ∃ line t, WritesLine (.start "end\n".toList { unit := "  " }) line t ∧
      AtLevel "  " 0 line.shape line.source line.written.toList ∧
      t.context.depth = -1 := by
  have h : reindent "end\n" {} = .ok "end\n" :=
    reindent_of_writeAll rfl (by decide +kernel)
  obtain ⟨lines, last, _, houtput, hlines⟩ := reindent_steps_out rfl h
  cases lines with
  | nil => exact absurd houtput (by decide)
  | cons line lines =>
    obtain ⟨u, t, hu, hline, _, _, hclosing⟩ := hlines [] line lines rfl
    obtain rfl := hu.eq_of_nil
    have hstep := hclosing ['\n'] (by decide +kernel)
    rw [if_pos (by decide +kernel)] at hstep
    exact ⟨line, t, hline, hstep⟩

/-- A bracket that closes a level is written inside of it if the line ends with an
opener, and the block behind it stands one level too deep. -/
theorem reindent_closer_before_opener :
    let text := "].map do\nend\n".toList
    closer text = some text.tail ∧
      readLine text
        = some (.whole .blockOpener "].map do\n".toList, "end\n".toList) ∧
      reindent "[\n].map do\nend\n" {} = .ok "[\n  ].map do\n  end\n" :=
  ⟨by decide +kernel, by decide +kernel,
    reindent_of_writeAll rfl (by decide +kernel)⟩

end RubyIndent.Document
