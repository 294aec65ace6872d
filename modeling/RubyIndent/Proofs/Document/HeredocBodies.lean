import RubyIndent.Proofs.Document.Content
import RubyIndent.Proofs.Ruby.Tails

/-!
# Heredoc bodies

Where the tokens of a line lead up to the start of a heredoc whose terminator
stands below, the body of the heredoc is written as it stands, provided that the
line is read as a heredoc. That is the case exactly if none of the shapes fits
that show at the start of a line (`readLine_eq_heredoc`,
`lineOf_eq_none_of_heredoc`): these are tried first, and the tokens up to a tail
pass over the start of a heredoc. So the lines below `if <<A` are reindented,
although they are the body of a heredoc.
-/

namespace RubyIndent.Ruby

open RubyIndent.Peg RubyIndent.Text RubyIndent.Pattern

/-! ## The introducing line -/

theorem token_of_no_tail {s : List Char} (h : anyTail s = none) :
    token (wordBefore anyTail) s = lineToken s := by
  simp [lineToken, token, Reader.orElse, wordBefore, Reader.next, Reader.absent,
    h]

/-- The introducing line of a heredoc ends with a newline if the line can be
read as a plain one. -/
theorem newline_of_readHead {s e : List Char} {head : HeredocHead}
    (h : readHead s = some head)
    (he : Reader.next upToEnd newline s = some e) :
    ∃ body, head.rest = '\n' :: body := by
  obtain ⟨r, t, u, hr, ht, hu, rfl⟩ := readHead_eq_some h
  dsimp only
  cases htail : anyTail u with
  | some x => exact anyTail_eq_some htail
  | none =>
    -- The tokens end where the plain reading ends.
    have hshort : Shortens (token (wordBefore anyTail)) :=
      shortens_token (shortens_wordBefore _)
    have hstop := skipAll_stops hshort t
    rw [show Reader.skipAll _ t = u from Option.some.inj hu,
      token_of_no_tail htail] at hstop
    have hend : Reader.skipAll lineToken s = '\n' :: e := newline_eq_some he
    rw [skipAll_introducing hr ht hu, skipAll_none hstop] at hend
    exact ⟨e, hend⟩

/-! ## The terminator -/

def unlines : List (List Char) → List Char
  | [] => []
  | line :: lines => line ++ '\n' :: unlines lines

/-- A text is what trimming leaves of it, with blanks around. -/
theorem eq_blanks_trimBlanks (s : List Char) : ∃ b b', Blanks b ∧ Blanks b' ∧
    s = b ++ ((Literal.trimBlanks (String.ofList s)).toList ++ b') := by
  refine ⟨s.takeWhile isSpacing,
    ((s.dropWhile isSpacing).reverse.takeWhile isSpacing).reverse,
    blanks_takeWhile s, fun c hc => ?_, ?_⟩
  · exact blanks_takeWhile _ c (List.mem_reverse.1 hc)
  · have htrim : (Literal.trimBlanks (String.ofList s)).toList
        = ((s.dropWhile isSpacing).reverse.dropWhile isSpacing).reverse := by
      rw [Literal.trimBlanks, String.toList_ofList, String.toList_ofList]
      rfl
    rw [htrim, ← List.reverse_append, List.takeWhile_append_dropWhile,
      List.reverse_reverse, List.takeWhile_append_dropWhile]

/-- Whether a line is the terminator shows when it is trimmed. -/
theorem closing_line {label : String} (hlabel : IsLabel label.toList)
    {line : List Char} (hline : '\n' ∉ line) (s : List Char) :
    closing label (line ++ '\n' :: s)
      = if Literal.trimBlanks (String.ofList line) = label
        then some ('\n' :: s) else none := by
  split
  · rename_i htrim
    obtain ⟨b, b', hb, hb', heq⟩ := eq_blanks_trimBlanks line
    rw [htrim] at heq
    exact closing_eq_some.2 ⟨b, b', hb, hlabel, hb', .inr ⟨s, rfl⟩, by
      rw [heq]
      simp⟩
  · rename_i htrim
    cases hc : closing label (line ++ '\n' :: s) with
    | none => rfl
    | some t =>
      obtain ⟨b, b', hb, _, hb', ht, heq⟩ := closing_eq_some.1 hc
      have hnot : '\n' ∉ b ++ (label.toList ++ b') := by
        simp [hb.not_newline, hlabel.not_newline, hb'.not_newline]
      rw [← List.append_assoc label.toList, ← List.append_assoc b] at heq
      rcases ht with rfl | ⟨t, rfl⟩
      · rw [List.append_nil] at heq
        exact absurd (heq ▸ List.mem_append_right line List.mem_cons_self) hnot
      · have hsame : line = b ++ (label.toList ++ b') := by
          have hsplit := congrArg (List.splitOn '\n') heq
          rw [List.splitOn_append_cons_self_of_not_mem hline,
            List.splitOn_append_cons_self_of_not_mem hnot] at hsplit
          exact (List.cons.inj hsplit).1
        rw [hsame, trimBlanks_blanks hb hb' hlabel.flush.1 hlabel.flush.2,
          String.ofList_toList] at htrim
        exact absurd rfl htrim

/-- The body ends before the first line that is the label. -/
theorem afterBody_unlines {label : String} (hlabel : IsLabel label.toList)
    {lines : List (List Char)} {line post : List Char}
    (hlines : ∀ l ∈ lines,
      '\n' ∉ l ∧ Literal.trimBlanks (String.ofList l) ≠ label)
    (hline : '\n' ∉ line)
    (htrim : Literal.trimBlanks (String.ofList line) = label) :
    afterBody label (unlines lines ++ (line ++ '\n' :: post))
      = line ++ '\n' :: post := by
  unfold afterBody
  induction lines with
  | nil =>
    refine skipAll_none ?_
    rw [unlines, List.nil_append, bodyLine, Reader.next, Reader.absent,
      closing_line hlabel hline, if_pos htrim]
    rfl
  | cons l lines ih =>
    obtain ⟨⟨hl, hne⟩, hlines⟩ := List.forall_mem_cons.1 hlines
    have hbody : bodyLine label (l ++ '\n' :: (unlines lines
        ++ (line ++ '\n' :: post)))
        = some (unlines lines ++ (line ++ '\n' :: post)) := by
      rw [bodyLine, Reader.next, Reader.absent, closing_line hlabel hl,
        if_neg hne, if_neg (by simp), Option.bind_some, physicalLine_append hl]
      rfl
    rw [unlines, List.append_assoc, List.cons_append,
      skipAll_some hbody (shortens_bodyLine label _ _ hbody), ih hlines]

/-- A heredoc whose terminator stands below is read. -/
theorem readBody_of_terminator {head : HeredocHead}
    (hlabel : IsLabel head.label.toList) {lines : List (List Char)}
    {line post : List Char}
    (hrest : head.rest
      = '\n' :: (unlines lines ++ (line ++ '\n' :: post)))
    (hlines : ∀ l ∈ lines,
      '\n' ∉ l ∧ Literal.trimBlanks (String.ofList l) ≠ head.label)
    (hline : '\n' ∉ line)
    (htrim : Literal.trimBlanks (String.ofList line) = head.label) :
    readBody head = some { head with
      body := unlines lines ++ (line ++ '\n' :: post)
      afterBody := line ++ '\n' :: post
      afterAll := post } := by
  have hnewline : newline head.rest
      = some (unlines lines ++ (line ++ '\n' :: post)) := by
    rw [hrest]
    rfl
  have hclosing : Reader.next (closing head.label) newline
      (line ++ '\n' :: post) = some post := by
    rw [Reader.next, closing_line hlabel hline, if_pos htrim]
    rfl
  rw [readBody, hnewline, Option.bind_some]
  dsimp only
  rw [afterBody_unlines hlabel hlines hline htrim, hclosing]
  rfl

/-! ## The shape of the line -/

/-- The tokens before a heredoc are not followed by a tail. -/
theorem no_tail_of_readHead {s : List Char} {head : HeredocHead}
    (h : readHead s = some head) :
    lineOf .blockOpener s = none ∧ lineOf .bracketTail s = none := by
  obtain ⟨r, _, _, hr, _⟩ := readHead_eq_some h
  have hr : Reader.pattern Token.heredocStart
      (Reader.skipAll (token (wordBefore leadStop)) s) = some r := hr
  -- The tokens stop at `<<`, which starts no tail.
  have tails : ∀ u : List Char, blockTail ('<' :: u) = none ∧
      bracketTail ('<' :: u) = none := fun u => ⟨rfl, rfl⟩
  have hstop : blockTail (Reader.skipAll (token (wordBefore leadStop)) s) = none ∧
      bracketTail (Reader.skipAll (token (wordBefore leadStop)) s) = none := by
    rcases pattern_heredocStart hr with heq | heq | heq
    · rw [heq]
      exact tails _
    · rw [heq]
      exact tails _
    · rw [heq]
      exact tails _
  constructor
  · change Option.bind (blockTail _) newline = none
    rw [hstop.1]
    rfl
  · change Option.bind (bracketTail _) newline = none
    rw [hstop.2]
    rfl

theorem findSome?_leadingShapes {s : List Char} {head : HeredocHead}
    (hhead : readHead s = some head)
    (hnone : ∀ shape ∈ openingShapes, lineOf shape s = none) :
    leadingShapes.findSome? (readAs · s) = none := by
  obtain ⟨hblock, hbracket⟩ := no_tail_of_readHead hhead
  refine List.findSome?_eq_none_iff.2 fun shape hmem => ?_
  have hne : shape ≠ .heredocIntro := by
    rintro rfl
    revert hmem
    decide
  rw [readAs_of_ne hne, Option.map_eq_none_iff]
  simp only [leadingShapes_eq, List.mem_append, List.mem_cons,
    List.not_mem_nil, or_false] at hmem
  rcases hmem with hmem | rfl | rfl
  · exact hnone shape hmem
  · exact hblock
  · exact hbracket

/-- Where a heredoc stands, the line is read as one if no shape fits that shows
at the start of a line. -/
theorem readLine_eq_heredoc {s : List Char} {head : HeredocHead} {h : Heredoc}
    (hhead : readHead s = some head) (hbody : readBody head = some h)
    (hnone : ∀ shape ∈ openingShapes, lineOf shape s = none) :
    readLine s = readAs .heredocIntro s := by
  have hsome : readAs .heredocIntro s ≠ none := by
    rw [readAs, readHeredoc, hhead, Option.bind_some, hbody]
    exact Option.some_ne_none _
  obtain ⟨p, hp⟩ := Option.ne_none_iff_exists'.1 hsome
  rw [readLine_eq, findSome?_leadingShapes hhead hnone, Option.none_or, hp,
    Option.some_or]

/-- In a line that is read as a heredoc, no shape fits that is tried before. -/
theorem lineOf_eq_none_of_heredoc {s r : List Char} {l : LogicalLine}
    (h : readLine s = some (l, r)) (hl : l.shape = .heredocIntro) :
    ∀ shape ∈ leadingShapes, lineOf shape s = none := by
  have hne : ∀ shape ∈ leadingShapes, shape ≠ .heredocIntro := by decide
  rw [readLine_eq] at h
  cases hlead : leadingShapes.findSome? (readAs · s) with
  | none =>
    intro shape hmem
    have hnone := List.findSome?_eq_none_iff.1 hlead shape hmem
    rw [readAs_of_ne (hne shape hmem)] at hnone
    exact Option.map_eq_none_iff.1 hnone
  | some p =>
    obtain ⟨shape, hmem, hp⟩ := List.exists_of_findSome?_eq_some hlead
    rw [hlead, Option.some_or] at h
    cases h
    rw [readAs_of_ne (hne shape hmem)] at hp
    obtain ⟨e, _, heq⟩ := Option.map_eq_some_iff.1 hp
    cases heq
    exact absurd hl (hne shape hmem)

theorem isLabel_of_readHead {s : List Char} {head : HeredocHead}
    (h : readHead s = some head) : IsLabel head.label.toList := by
  obtain ⟨r, t, u, _, ht, _, rfl⟩ := readHead_eq_some h
  obtain ⟨l, hl, rfl, _⟩ := pattern_heredocLabel_eq_some.1 ht
  dsimp only
  rwa [taken_append_self, String.toList_ofList]

/-- The logical line that is read where a heredoc stands. -/
theorem readLine_of_terminator {s m : List Char} {head : HeredocHead}
    {lines : List (List Char)} {line post : List Char}
    (hhead : readHead s = some head)
    (hnone : ∀ shape ∈ openingShapes, lineOf shape s = none)
    (hrest : head.rest = '\n' :: (unlines lines ++ (line ++ '\n' :: post)))
    (hs : s = m ++ '\n' :: (unlines lines ++ (line ++ '\n' :: post)))
    (hlines : ∀ l ∈ lines,
      '\n' ∉ l ∧ Literal.trimBlanks (String.ofList l) ≠ head.label)
    (hline : '\n' ∉ line)
    (htrim : Literal.trimBlanks (String.ofList line) = head.label) :
    readLine s
      = some (.heredoc m (unlines lines) head.label head.opens, post) := by
  have hread := readBody_of_terminator (isLabel_of_readHead hhead) hrest hlines
    hline htrim
  have htaken : taken s head.rest = m := by
    rw [hrest, hs, taken_append_self]
  rw [readLine_eq_heredoc hhead hread hnone, readAs, readHeredoc, hhead,
    Option.bind_some, hread, Option.map_some]
  dsimp only
  rw [taken_append_self, htaken]

/-- In a line that is read, no shape at the start of which fits, the introducing
line of a heredoc ends with a newline. -/
theorem newline_of_readLine {s : List Char} {head : HeredocHead}
    {p : LogicalLine × List Char} (hhead : readHead s = some head)
    (hnone : ∀ shape ∈ openingShapes, lineOf shape s = none)
    (hline : readLine s = some p) : ∃ body, head.rest = '\n' :: body := by
  cases hb : readBody head with
  | some h => exact ⟨_, (readBody_eq_some hb).2.1⟩
  | none =>
    have hread : readAs .heredocIntro s = none := by
      rw [readAs, readHeredoc, hhead, Option.bind_some, hb]
      rfl
    rw [readLine_eq, findSome?_leadingShapes hhead hnone, hread] at hline
    obtain ⟨e, he, _⟩ := Option.map_eq_some_iff.1 hline
    exact newline_of_readHead hhead he

end RubyIndent.Ruby

namespace RubyIndent.Document

open RubyIndent.Peg RubyIndent.Ruby RubyIndent.Text

variable {src : List Char}

/-! ## Line numbers -/

theorem length_physicalLines (s : List Char) :
    (physicalLines s).length = s.count '\n' + 1 := by
  unfold physicalLines
  induction s with
  | nil => rfl
  | cons c s ih =>
    rw [List.splitOn_cons_eq_if_modifyHead, List.count_cons]
    split
    · rw [List.length_cons, ih]
    · rw [List.length_modifyHead, ih]

theorem physicalLines_unlines {lines : List (List Char)}
    (h : ∀ l ∈ lines, '\n' ∉ l) (s : List Char) :
    physicalLines (unlines lines ++ s) = lines ++ physicalLines s := by
  induction lines with
  | nil => rfl
  | cons l lines ih =>
    obtain ⟨hl, hlines⟩ := List.forall_mem_cons.1 h
    rw [unlines, List.append_assoc, List.cons_append, physicalLines,
      List.splitOn_append_cons_self_of_not_mem hl]
    exact congrArg (List.cons l) (ih hlines)

/-- At the start of a round as many lines were written as were read. -/
theorem StartsRound.count_newline {s t : State Indenter src}
    (h : StartsRound s t) (hs : Ready s) (hunit : Blanks s.context.unit.toList) :
    t.context.unit = s.context.unit ∧
      t.context.output.toList.count '\n' + t.cursor.rest.count '\n'
        = s.context.output.toList.count '\n' + s.cursor.rest.count '\n' := by
  induction h with
  | first => exact ⟨rfl, rfl⟩
  | @next t value ht _ hvalue _ ih =>
    obtain ⟨hsame, hcount⟩ := ih
    have hready := (ht.ready hs).1
    obtain ⟨l, r, hline, hround⟩ := round_of_matched hready hvalue
    obtain ⟨_, b, b', k, k', hb, hb', _, hrest, hout, _⟩ :=
      round_layout hready hround hline
    refine ⟨(unit_afterRound hround).trans hsame, ?_⟩
    -- Only blanks differ between what is read and what is written.
    have hlevels : ∀ k, (levels t.context.unit k).count '\n' = 0 :=
      fun k => (blanks_levels (hsame ▸ hunit) k).count_newline
    have hfront := (blanks_takeWhile t.cursor.rest).count_newline
    have hclosing : (l.closingLine b b').count '\n'
        = (l.closingLine (levels t.context.unit k') []).count '\n' := by
      cases l with
      | whole shape text => rfl
      | heredoc head body label opens =>
        simp [LogicalLine.closingLine, List.count_append, hlevels,
          hb.count_newline, hb'.count_newline]
    have hcounts := congrArg (List.count '\n') hrest
    rw [hout, hround.rest]
    simp only [List.count_append] at hcounts ⊢
    have hk := hlevels k
    omega

/-! ## Bodies -/

/-- What is written for a heredoc, as physical lines: those of the body stand
where they stood. -/
theorem body_kept {s t fin : State Indenter src} (hs : Ready s)
    (hunit : Blanks s.context.unit.toList) (hout : s.context.output = "")
    (hrun : run s = .ok fin) (ht : LineAt s t) {before head body rest : List Char}
    {lines : List (List Char)} {label : String} {opens : Bool}
    (hline : readLine (t.cursor.rest.dropWhile isSpacing)
      = some (.heredoc head (unlines lines) label opens, rest))
    (hbefore : s.cursor.rest = before ++ '\n' :: body)
    (hbody : t.cursor.rest.dropWhile isSpacing = head ++ '\n' :: body)
    (hlines : ∀ l ∈ lines, '\n' ∉ l) : ∃ earlier later,
      physicalLines fin.context.output.toList = earlier ++ (lines ++ later) ∧
      earlier.length = (physicalLines before).length := by
  obtain ⟨l, r, value, hread, hround, hready, hrun'⟩ := ht.round hs hrun
  cases hline.symm.trans hread
  obtain ⟨_, b, b', k, k', _, _, _, _, hwritten, _⟩ :=
    round_layout hready hround hline
  obtain ⟨more, hmore⟩ := run_ok_output hround.ready hrun'
  obtain ⟨hsame, hcount⟩ := ht.starts.count_newline hs hunit
  obtain ⟨after, hfin⟩ : ∃ after, fin.context.output.toList
      = t.context.output.toList ++ (levels t.context.unit k ++ head)
        ++ '\n' :: (unlines lines ++ after) := by
    refine ⟨LogicalLine.closingLine (levels t.context.unit k') []
      (.heredoc head (unlines lines) label opens) ++ more.toList, ?_⟩
    rw [hmore, String.toList_append, hwritten]
    simp [LogicalLine.kept]
  refine ⟨physicalLines (t.context.output.toList
    ++ (levels t.context.unit k ++ head)), physicalLines after, ?_, ?_⟩
  · rw [hfin, physicalLines_newline, physicalLines_unlines hlines]
  · have hfront := (blanks_takeWhile t.cursor.rest).count_newline
    have hunit' : Blanks t.context.unit.toList := hsame ▸ hunit
    have hlevels := (blanks_levels hunit' k).count_newline
    have hrest : t.cursor.rest
        = t.cursor.rest.takeWhile isSpacing ++ (head ++ '\n' :: body) := by
      rw [← hbody, List.takeWhile_append_dropWhile]
    have hcounts := congrArg (List.count '\n') hrest
    rw [hbefore, hout] at hcount
    simp only [List.count_append, List.count_cons_self, String.toList_empty,
      List.count_nil] at hcounts hcount
    rw [length_physicalLines, length_physicalLines]
    simp only [List.count_append]
    omega

/-- The bodies of heredocs are kept. If the tokens of a logical line lead up to
the start of a heredoc, none of the shapes fits that show at the start of a
line, and a line below trims to the label, then the line is read as a heredoc,
and the physical lines between the introducing line and the first such line are
written as they stand, with the line numbers that they had. A line that one of
these shapes fits is never read as a heredoc. -/
theorem reindent_keeps_heredocs {input output : String} {config : Config}
    (himpose : config.imposeIndent = true)
    (hunit : Blanks config.indentUnit.toList)
    (h : reindent input config = .ok output) :
    let start := State.start input.toList { unit := config.indentUnit }
    ∀ t head, LineAt start t →
      readHead (skipBlanks t).cursor.rest = some head →
      ((∀ shape ∈ openingShapes,
          lineOf shape (skipBlanks t).cursor.rest = none) →
        ∃ earlier body, head.rest = '\n' :: body ∧
          physicalLines input.toList = earlier ++ physicalLines body ∧
          ∀ lines line post, body = unlines lines ++ (line ++ '\n' :: post) →
            (∀ l ∈ lines,
              '\n' ∉ l ∧ Literal.trimBlanks (String.ofList l) ≠ head.label) →
            '\n' ∉ line →
            Literal.trimBlanks (String.ofList line) = head.label →
            ReadsHeredoc t ∧ ∃ earlier' later,
              physicalLines output.toList = earlier' ++ (lines ++ later) ∧
              earlier'.length = earlier.length) ∧
      (ReadsHeredoc t → ∀ shape ∈ openingShapes,
        lineOf shape (skipBlanks t).cursor.rest = none) := by
  intro start t head ht hhead
  have hready : Ready start := ready_start _ _
  obtain ⟨fin, hrun, rfl⟩ := run_of_reindent himpose h
  obtain ⟨l, r, value, hline, hround, hready', _⟩ := ht.round hready hrun
  rw [(skipBlanks_of_ready hready').2.1] at hhead ⊢
  constructor
  · intro hnone
    obtain ⟨body, hbody⟩ := newline_of_readLine hhead hnone hline
    obtain ⟨x, hx, hsuffix⟩ := suffix_of_readHead hhead
    obtain ⟨m, hm⟩ := hsuffix.trans (Takes.suffix cuts_beforeLabel hx)
    rw [hbody] at hm
    have hinput : input.toList = input.toList.take t.cursor.index
        ++ t.cursor.rest.takeWhile isSpacing ++ m ++ '\n' :: body := by
      rw [List.append_assoc, hm, List.append_assoc,
        List.takeWhile_append_dropWhile, t.cursor.rest_eq,
        List.take_append_drop]
    refine ⟨physicalLines (input.toList.take t.cursor.index
      ++ t.cursor.rest.takeWhile isSpacing ++ m), body, hbody, ?_, ?_⟩
    · rw [← physicalLines_newline, ← hinput]
    · rintro lines line post rfl hlines hterm htrim
      have hlogical := readLine_of_terminator hhead hnone hbody hm.symm hlines
        hterm htrim
      refine ⟨hround.readsHeredoc_iff.2 ?_,
        body_kept hready hunit rfl hrun ht hlogical hinput hm.symm
          fun l hl => (hlines l hl).1⟩
      cases hlogical.symm.trans hline
      rfl
  · intro hheredoc shape hmem
    exact lineOf_eq_none_of_heredoc hline (hround.readsHeredoc_iff.1 hheredoc)
      shape (leadingShapes_eq ▸ List.mem_append_left _ hmem)

/-- The body of a heredoc on a plain line. -/
theorem reindent_keeps_heredocs_plain : ∃ earlier later,
    physicalLines "<<A\n b\nA\n".toList = earlier ++ ([" b".toList] ++ later) ∧
      earlier.length = 1 := by
  have h : reindent "<<A\n b\n A\n" {} = .ok "<<A\n b\nA\n" :=
    eq_ok_of_toOption (by decide +kernel)
  obtain ⟨earlier, body, hbody, hlines, hkept⟩ :=
    (reindent_keeps_heredocs rfl (by decide) h (State.start _ _)
      ⟨"A", false, "\n b\n A\n".toList⟩ ⟨.first, by decide +kernel⟩
      (by decide +kernel)).1 (by decide +kernel)
  obtain rfl : " b\n A\n".toList = body := (List.cons.inj hbody).2
  obtain ⟨_, earlier', later, hout, hlen⟩ := hkept [" b".toList] " A".toList [] rfl
    (by decide) (by decide) (by decide)
  refine ⟨earlier', later, hout, hlen.trans ?_⟩
  have hcount := congrArg List.length hlines
  rw [List.length_append] at hcount
  have hall : (physicalLines "<<A\n b\n A\n".toList).length = 4 := by decide
  have hbelow : (physicalLines " b\n A\n".toList).length = 3 := by decide
  omega

/-- Behind a keyword the body of a heredoc is reindented. -/
theorem reindent_heredoc_behind_keyword :
    let start := State.start "if <<A\n x\nA\n".toList { unit := "  " : Indenter }
    LineAt start start ∧
      readHead (skipBlanks start).cursor.rest
        = some ⟨"A", false, "\n x\nA\n".toList⟩ ∧
      reindent "if <<A\n x\nA\n" {} = .ok "if <<A\n  x\n  A\n" ∧
      " x".toList ∉ physicalLines "if <<A\n  x\n  A\n".toList :=
  ⟨⟨.first, by decide +kernel⟩, by decide +kernel,
    eq_ok_of_toOption (by decide +kernel), by decide⟩

end RubyIndent.Document
