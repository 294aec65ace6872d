import RubyIndent.Proofs.Document.Acceptance
import RubyIndent.Proofs.Document.Classification
import RubyIndent.Proofs.Document.HeredocBodies
import RubyIndent.Proofs.Document.Isolation

/-!
# How far heredocs go

A heredoc ends with the first line below its introducing line that holds its label
and nothing else, if that line has a newline (`Closes`); there is no other way for it
to end (`readBody_iff`). Without such a line the introducing line is an ordinary one.
It is then read as a plain line, which ends where the introducing line does, unless
quotes in its opener start a string (`skipAll_of_readHead`).
-/

namespace RubyIndent.Ruby

open RubyIndent.Peg RubyIndent.Text RubyIndent.Pattern

/-! ## The terminator -/

/-- A text from the line below the introducing line of a heredoc on, taken apart at
the first line that trims to the label. That line has a newline. -/
structure Closes (label : String) (body : List Char) (lines : List (List Char))
    (line post : List Char) : Prop where
  body_eq : body = unlines lines ++ (line ++ '\n' :: post)
  before : ∀ l ∈ lines, '\n' ∉ l ∧ Literal.trimBlanks (String.ofList l) ≠ label
  on_line : '\n' ∉ line
  trims : Literal.trimBlanks (String.ofList line) = label

theorem physicalLine_eq_some {s t : List Char} (h : physicalLine s = some t) :
    ∃ line, s = line ++ '\n' :: t ∧ '\n' ∉ line := by
  obtain ⟨u, hu, ht⟩ := Option.bind_eq_some_iff.1 h
  have honline : StaysOnLine (.pattern Token.physicalLine) := .pattern rfl
  obtain ⟨line, hline, hne⟩ := honline s u hu
  rw [newline_eq_some ht] at hline
  exact ⟨line, hline, fun hmem => hne _ hmem rfl⟩

/-- What is passed before the terminator are whole lines, none of which trims to the
label. -/
theorem exists_lines_afterBody {label : String} (hlabel : IsLabel label.toList)
    (s : List Char) : ∃ lines, s = unlines lines ++ afterBody label s ∧
      ∀ l ∈ lines, '\n' ∉ l ∧ Literal.trimBlanks (String.ofList l) ≠ label := by
  unfold afterBody
  fun_induction Reader.skipAll (bodyLine label) s with
  | case1 s h => exact ⟨[], rfl, by simp⟩
  | case2 s t h hlt ih =>
    obtain ⟨lines, hlines, hbefore⟩ := ih
    obtain ⟨u, hu, ht⟩ := Option.bind_eq_some_iff.1 h
    obtain ⟨rfl, hnot⟩ := absent_eq_some hu
    obtain ⟨line, rfl, hline⟩ := physicalLine_eq_some ht
    rw [closing_line hlabel hline] at hnot
    refine ⟨line :: lines, ?_, List.forall_mem_cons.2 ⟨⟨hline, ?_⟩, hbefore⟩⟩
    · rw [unlines, List.append_assoc, List.cons_append, ← hlines]
    · intro htrim
      rw [if_pos htrim] at hnot
      cases hnot
  | case3 s t h hlt => exact absurd (shortens_bodyLine label s t h) hlt

/-- A heredoc is read exactly if a terminator with a newline stands below. -/
theorem readBody_iff {head : HeredocHead} (hlabel : IsLabel head.label.toList)
    {body : List Char} (hbody : head.rest = '\n' :: body) :
    (∃ h, readBody head = some h) ↔
      ∃ lines line post, Closes head.label body lines line post := by
  constructor
  · rintro ⟨h, hread⟩
    obtain ⟨_, hrest, hafter, _, t, ht, rfl⟩ := readBody_eq_some hread
    obtain rfl : body = h.body := (List.cons.inj (hbody.symm.trans hrest)).2
    obtain ⟨lines, hlines, hbefore⟩ := exists_lines_afterBody hlabel h.body
    obtain ⟨b, b', hb, _, hb', _, hclosing⟩ := closing_eq_some.1 ht
    refine ⟨lines, b ++ (head.label.toList ++ b'), h.afterAll, ?_, hbefore, ?_, ?_⟩
    · rw [hlines, ← hafter, hclosing]
      simp
    · simp [hb.not_newline, hlabel.not_newline, hb'.not_newline]
    · rw [trimBlanks_blanks hb hb' hlabel.flush.1 hlabel.flush.2, String.ofList_toList]
  · rintro ⟨lines, line, post, rfl, hbefore, hline, htrim⟩
    exact ⟨_, readBody_of_terminator hlabel hbody hbefore hline htrim⟩

/-! ## The introducing line as a plain one -/

/-- The opener at the end of the introducing line, if there is one, has no quotes. -/
def HeredocHead.OpensUnquoted (head : HeredocHead) (s : List Char) : Prop :=
  head.opens = true → ∀ w, w ++ head.rest <:+ s →
    anyTail (w ++ head.rest) = some head.rest → Unquoted w

/-- The plain reading ends where the introducing line of a heredoc ends. -/
theorem skipAll_of_readHead {s body : List Char} {head : HeredocHead}
    (h : readHead s = some head) (hbody : head.rest = '\n' :: body)
    (hquotes : head.OpensUnquoted s) :
    Reader.skipAll lineToken s = head.rest := by
  obtain ⟨r, r', u, hr, hr', hu, rfl⟩ := readHead_eq_some h
  rw [skipAll_introducing hr hr' hu]
  dsimp only at hbody ⊢
  unfold HeredocHead.OpensUnquoted at hquotes
  dsimp only at hquotes
  cases htail : anyTail u with
  | none =>
    rw [htail, Option.getD_none] at hbody
    rw [hbody]
    exact skipAll_none rfl
  | some x =>
    have hcut : u <:+ s := (Takes.suffix cuts_upToTail hu).trans
      ((Takes.suffix (cuts_pattern _) hr').trans (Takes.suffix cuts_beforeLabel hr))
    obtain ⟨w, rfl, _⟩ := staysOnLine_anyTail u x htail
    simp only [htail, Option.getD_some] at hbody hquotes ⊢
    subst hbody
    exact skipAll_unquoted (hquotes rfl w hcut htail) (.inr ⟨body, rfl⟩)

/-! ## The line that is read -/

section

variable {s : List Char} {head : HeredocHead}

/-- Without a terminator the line is left to the plain shape. -/
theorem readLine_of_open (hnone : ∀ shape ∈ leadingShapes, readAs shape s = none)
    (hhead : readHead s = some head) (hopen : readBody head = none) :
    readLine s = readAs .plain s := by
  have hheredoc : readAs .heredocIntro s = none := by
    rw [readAs, readHeredoc, hhead, Option.bind_some, hopen]
    rfl
  rw [readLine_eq, List.findSome?_eq_none_iff.2 hnone, hheredoc, Option.none_or,
    Option.none_or]

/-- With a terminator the line is a heredoc, and its body are the lines between. -/
theorem readLine_of_closes (hnone : ∀ shape ∈ leadingShapes, readAs shape s = none)
    (hhead : readHead s = some head) {body : List Char}
    (hbody : head.rest = '\n' :: body) {lines : List (List Char)}
    {line post : List Char} (hcloses : Closes head.label body lines line post) :
    readLine s = some (.heredoc (taken s head.rest) (unlines lines) head.label
      head.opens, post) := by
  obtain ⟨rfl, hbefore, hline, htrim⟩ := hcloses
  obtain ⟨t, ht, hsuffix⟩ := suffix_of_readHead hhead
  obtain ⟨m, rfl⟩ := hsuffix.trans (Takes.suffix cuts_beforeLabel ht)
  have hopening : ∀ shape ∈ openingShapes, lineOf shape (m ++ head.rest) = none := by
    intro shape hmem
    have hne : shape ≠ .heredocIntro := by
      rintro rfl
      revert hmem
      decide
    have hread := hnone shape (leadingShapes_eq ▸ List.mem_append_left _ hmem)
    rw [readAs_of_ne hne] at hread
    exact Option.map_eq_none_iff.1 hread
  rw [taken_append_self]
  exact readLine_of_terminator hhead hopening hbody (by rw [hbody]) hbefore hline htrim

end

/-! ## The action that runs last -/

variable {src : List Char}

/-- A heredoc that is written releases its label. -/
theorem label_emitHeredoc (caps : Captures) (i : Indenter) :
    (Line.emitHeredoc caps i).2.label = none := by
  unfold Line.emitHeredoc
  cases (caps.get? "opener").isSome <;> rfl

/-- The context behind a shape that matched is what its action made. -/
theorem shapes_conclude {shapes : List LineShape} (hnodup : shapes.Nodup)
    {s t : State Indenter src} {w : Value (Cursor src)}
    (hnew : ∀ shape ∈ shapes,
      s.memo.outcome? ((Sym.shape shape).id, s.cursor) = none)
    (he : Evaluates grammar
      (.first (shapes.map fun shape => (Sym.shape shape).ref)) s (some w) t) :
    ∃ shape caps i, MatchedAs shape s.cursor t ∧
      t.context = (Line.action shape caps i).2 := by
  induction shapes generalizing s with
  | nil => cases he
  | cons shape shapes ih =>
    have hfirst := hnew shape List.mem_cons_self
    cases he with
    | first_some h =>
      cases h with
      | rule h =>
        rcases h.apply_new hfirst (grammar_rule? _) closed_heredocRules
            (shape_rule_within shape) (Sym.shape_not_heredocRules shape) with
          ⟨_, _, hvalue, _⟩ | ⟨v, u, _, _, hview, hcontext, hmemo⟩
        · cases hvalue
        · exact ⟨shape, u.captures, u.context, .of_setOutcome hview hmemo, hcontext⟩
    | @first_none _ _ _ u _ _ h hrest =>
      cases h with
      | rule h =>
        refine ih (s := u.rewind s) (List.nodup_cons.1 hnodup).2 ?_ hrest
        intro other hother
        have hne : other ≠ shape := by
          rintro rfl
          exact (List.nodup_cons.1 hnodup).1 hother
        exact (outcome?_other_shape hne h s.cursor).trans
          (hnew other (List.mem_cons_of_mem _ hother))

end RubyIndent.Ruby

namespace RubyIndent.Document

open RubyIndent.Peg RubyIndent.Ruby RubyIndent.Text

variable {src : List Char}

/-! ## The shape of a line in a run -/

/-- While a round looks for its line, the action of one shape runs, and it is this
one. -/
def Chooses (t : State Indenter src) (shape : LineShape) : Prop :=
  ∃ log, LineSteps (skipBlanks t) log ∧
    (log.filterMap written?).map LineAction.shape = [shape]

theorem chooses_iff {t : State Indenter src} (ht : Ready t) {shape : LineShape} :
    Chooses t shape ↔
      (readLine (skipBlanks t).cursor.rest).map (fun p => p.1.shape) = some shape := by
  have hready := (skipBlanks_of_ready ht).1
  constructor
  · rintro ⟨log, hlog, hshape⟩
    rw [hlog.shapes hready] at hshape
    exact Option.toList_eq_singleton_iff.1 hshape
  · intro h
    obtain ⟨log, hlog⟩ := exists_lineSteps (skipBlanks t)
    refine ⟨log, hlog, ?_⟩
    rw [hlog.shapes hready, h]
    rfl

/-- A shape that is not matched is not read. -/
theorem not_readAs_of_unmatched {shape : LineShape} (hne : shape ≠ .heredocIntro)
    {s : State Indenter src} (hs : Ready s)
    (h : (s.apply grammar (Sym.shape shape).id).value = none) :
    readAs shape s.cursor.rest = none := by
  have hnew := hs.unmet (.shape shape) s.cursor rfl (.inr ⟨rfl, nofun⟩)
  obtain ⟨_, _, hread⟩ := apply_shape hs.toSound hnew fun heq => absurd heq hne
  cases hp : readAs shape s.cursor.rest with
  | none => rfl
  | some p =>
    rw [hp] at hread
    cases h.symm.trans hread.1

/-- The line rule does what the plain shape does alone, where no other shape is
read. -/
theorem matchLine_eq_plain {s : State Indenter src} (hs : Ready s)
    (h : readLine s.cursor.rest = readAs .plain s.cursor.rest) :
    let r := s.apply grammar (Sym.shape .plain).id
    (matchLine s).value = r.value ∧ (matchLine s).state.cursor = r.state.cursor ∧
      forget (matchLine s).state.context = forget r.state.context := by
  intro r
  have hnew := hs.unmet (.shape .plain) s.cursor rfl (.inr ⟨rfl, nofun⟩)
  obtain ⟨_, _, hread⟩ := apply_shape hs.toSound hnew nofun
  have hline := line_evaluates hs (State.apply_evaluates grammar Sym.line.id s)
  rw [h] at hline
  cases hp : readAs .plain s.cursor.rest with
  | none =>
    rw [hp] at hline hread
    obtain ⟨hvalue, hview, hcontext⟩ := hread
    obtain ⟨hcursor, hcontext'⟩ := hs.matchLine_none hline
    exact ⟨hline.trans hvalue.symm, hcursor.trans (congrArg View.cursor hview).symm,
      hcontext'.trans hcontext.symm⟩
  | some p =>
    rw [hp] at hline hread
    obtain ⟨⟨hvalue, hrest, hcontext, _⟩, _⟩ := hline
    obtain ⟨hvalue', hrest', hcontext', _⟩ := hread
    exact ⟨hvalue.trans hvalue'.symm, cursor_eq_of_rest (hrest.trans hrest'.symm),
      hcontext.trans hcontext'.symm⟩

/-- A line is found by looking for the shapes in order. The line rule itself adds no
entry for a shape, neither before nor behind them. -/
theorem line_choice {s t : State Indenter src} {w : Value (Cursor src)}
    (hs : Ready s) (he : Evaluates grammar (.apply Sym.line.id) s (some w) t) :
    ∃ v u, Evaluates grammar
        (.first (LineShape.all.map fun shape => (Sym.shape shape).ref))
        (s.entered Sym.line.id).opened (some v) u ∧
      t.cursor = u.cursor ∧ t.context = u.context ∧
      ∀ shape, (s.entered Sym.line.id).opened.memo.outcome?
          ((Sym.shape shape).id, s.cursor) = none ∧
        t.memo.outcome? ((Sym.shape shape).id, s.cursor)
          = u.memo.outcome? ((Sym.shape shape).id, s.cursor) := by
  have hnew := hs.unmet .line s.cursor rfl (.inr ⟨rfl, by decide⟩)
  rcases he.apply_new hnew (grammar_rule? .line) closed_belowLine line_within
      line_not_belowLine with
    ⟨_, _, hvalue, _⟩ | ⟨v, u, h, _, hview, hcontext, hmemo⟩
  · cases hvalue
  have hne : ∀ shape, (Sym.line.id, s.cursor) ≠ ((Sym.shape shape).id, s.cursor) := by
    intro shape heq
    cases (eq_of_visit_eq (b := .shape shape) heq).1
  cases h with
  | choice h =>
    refine ⟨v, u, h, congrArg View.cursor hview, hcontext, fun shape => ⟨?_, ?_⟩⟩
    · exact (Memo.outcome?_enter_ne s.memo (hne shape)).trans
        (hs.unmet (.shape shape) s.cursor rfl (.inr ⟨rfl, nofun⟩))
    · rw [hmemo, Memo.outcome?_setOutcome_ne _ (hne shape)]

/-- Behind a line that was written, the context is what the action of its shape
made. -/
theorem line_concludes {s t : State Indenter src} {w : Value (Cursor src)}
    (hs : Ready s) (he : Evaluates grammar (.apply Sym.line.id) s (some w) t) :
    ∃ shape caps i, MatchedAs shape s.cursor t ∧
      t.context = (Line.action shape caps i).2 := by
  obtain ⟨v, u, h, hcursor, hcontext, hentries⟩ := line_choice hs he
  obtain ⟨shape, caps, i, ⟨w', hmatched⟩, hmade⟩ :=
    shapes_conclude (by decide) (fun shape _ => (hentries shape).1) h
  refine ⟨shape, caps, i, ⟨w', ?_⟩, hcontext.trans hmade⟩
  rw [(hentries shape).2, hcursor]
  exact hmatched

/-- No label is remembered behind a heredoc. -/
theorem Round.label_of_heredoc {t : State Indenter src} {l : LogicalLine}
    {r : List Char} {value : Value (Cursor src)} (hround : Round t l r value)
    (ht : Ready t) (hl : l.shape = .heredocIntro) :
    (matchLine (skipBlanks t)).state.context.label = none := by
  have hready := (skipBlanks_of_ready ht).1
  have he := State.apply_evaluates grammar Sym.line.id (skipBlanks t)
  change Evaluates grammar _ _ (matchLine (skipBlanks t)).value _ at he
  rw [hround.matched] at he
  obtain ⟨shape, caps, i, hmatched, hcontext⟩ := line_concludes hready he
  -- Only one shape matched.
  obtain ⟨log, hlog⟩ := exists_lineSteps (skipBlanks t)
  have hchosen := hlog.chosen hready
  rw [hround.matched] at hchosen
  generalize log.filterMap written? = lines at hchosen
  cases hchosen with
  | line chosen labels hshape =>
    obtain rfl : shape = chosen := hshape shape hmatched
    obtain rfl : l.shape = shape := hshape l.shape hround.shape
    rw [hl] at hcontext
    change (matchLine (skipBlanks t)).state.context = _ at hcontext
    rw [hcontext]
    exact label_emitHeredoc caps i

/-! ## The extent of a heredoc -/

/-- What is written for a heredoc. -/
theorem emit_heredoc {head : List Char} {label : String} (hhead : ¬ LineEnds head)
    (hlabel : IsLabel label.toList) (body : List Char) (opens : Bool) (i : Indenter) :
    ((LogicalLine.heredoc head body label opens).emit i).1
      = i.indentation i.depth ++ String.ofList head ++ "\n" ++ String.ofList body
        ++ (i.indentation i.depth ++ label) ++ "\n" := by
  have render : ∀ {s : List Char}, ¬ LineEnds s →
      i.render i.depth (String.ofList s) = i.indentation i.depth ++ String.ofList s := by
    intro s hs
    have hblank : Indenter.isBlankLine (String.ofList s) = false := by
      refine Bool.eq_false_iff.2 fun h => hs ?_
      simpa [Indenter.isBlankLine, LineEnds] using h
    rw [Indenter.render, hblank, if_neg Bool.false_ne_true]
  have hend := render hlabel.visible
  rw [String.ofList_toList] at hend
  simp only [LogicalLine.emit, Indenter.emitHeredoc, render hhead, hend]

/-- What a round does with a heredoc. The text of the line is its introducing line,
the lines of its body, and its terminator. -/
structure WritesHeredoc (t : State Indenter src) (head : HeredocHead)
    (lines : List (List Char)) (post : List Char) : Prop where
  written : (matchLine (skipBlanks t)).value.map Value.toString
    = some (t.context.indentation t.context.depth
      ++ String.ofList (taken (skipBlanks t).cursor.rest head.rest) ++ "\n"
      ++ String.ofList (unlines lines)
      ++ (t.context.indentation t.context.depth ++ head.label) ++ "\n")
  stop : (lineEnd t).rest = post
  label : (matchLine (skipBlanks t)).state.context.label = none
  depth : (matchLine (skipBlanks t)).state.context.depth
    = t.context.depth + if head.opens then 1 else 0

theorem writesHeredoc_of_readLine {t : State Indenter src} (ht : Ready t)
    {head : HeredocHead} {lines : List (List Char)} {post : List Char}
    (hhead : readHead (skipBlanks t).cursor.rest = some head)
    (hline : readLine (skipBlanks t).cursor.rest
      = some (.heredoc (taken (skipBlanks t).cursor.rest head.rest) (unlines lines)
        head.label head.opens, post)) : WritesHeredoc t head lines post := by
  obtain ⟨hready, hrest, hcontext⟩ := skipBlanks_of_ready ht
  have hmatch := line_evaluates hready
    (State.apply_evaluates grammar Sym.line.id (skipBlanks t))
  rw [hline] at hmatch
  obtain ⟨⟨hvalue, hstop, hforget, _⟩, _⟩ := hmatch
  rw [hcontext] at hvalue hforget
  have hvisible := visible_of_readAs (readAs_of_readLine hline).1 nofun
  have hround := round_of_ready ht
  rw [← hrest, hline] at hround
  obtain ⟨value, hround⟩ := hround
  refine ⟨?_, hstop, hround.label_of_heredoc ht rfl, ?_⟩
  · have hemit := emit_heredoc hvisible (isLabel_of_readHead hhead) (unlines lines)
      head.opens (forget t.context)
    change (matchLine (skipBlanks t)).value = _ at hvalue
    rw [hvalue]
    exact congrArg some hemit
  · have hdepth := congrArg Indenter.depth hforget
    rw [depth_emit] at hdepth
    exact hdepth

/-- The extent of heredocs. Let the tokens of a logical line lead up to the start of
a heredoc, the introducing line end with a newline, and none of the shapes match that
are tried before. Then the line is taken for a heredoc exactly if one of the lines
below trims to the label and the first of these has a newline. If so, its body are the
lines between, however they look and whatever label an earlier start has left behind;
it is written with the introducing line and the label at the current depth, the next
line starts behind the terminator, no label is remembered, and a level is opened
exactly if the introducing line ends with an opener. If not, what happens is what the
plain shape does alone, and a new round starts behind the plain line. Unless quotes in
the opener start a string, there is such a line, and the new round starts with the line
below the introducing line. -/
theorem heredoc_extent {input : String} {config : Config}
    {t : State Indenter input.toList}
    (ht : LineAt (.start input.toList { unit := config.indentUnit }) t)
    (hbefore : ∀ shape ∈ leadingShapes,
      ((skipBlanks t).apply grammar (Sym.shape shape).id).value = none)
    {head : HeredocHead} (hhead : readHead (skipBlanks t).cursor.rest = some head)
    {body : List Char} (hbody : head.rest = '\n' :: body) :
    (Chooses t .heredocIntro ↔
      ∃ lines line post, Closes head.label body lines line post) ∧
    (∀ lines line post, Closes head.label body lines line post →
      WritesHeredoc t head lines post) ∧
    (¬ Chooses t .heredocIntro →
      let r := (skipBlanks t).apply grammar (Sym.shape .plain).id
      ((matchLine (skipBlanks t)).value = r.value ∧ lineEnd t = r.state.cursor ∧
        forget (matchLine (skipBlanks t)).state.context = forget r.state.context) ∧
      (∀ value, r.value = some value → Chooses t .plain ∧
        StartsRound (.start input.toList { unit := config.indentUnit })
          (afterRound t value)) ∧
      (head.OpensUnquoted (skipBlanks t).cursor.rest →
        ∃ value, r.value = some value ∧
          (afterRound t value).cursor.rest = body)) := by
  have hready := (ht.starts.ready (ready_start _ _)).1
  obtain ⟨hspaced, hrest, _⟩ := skipBlanks_of_ready hready
  have hlabel := isLabel_of_readHead hhead
  have hnone : ∀ shape ∈ leadingShapes,
      readAs shape (skipBlanks t).cursor.rest = none := by
    intro shape hmem
    refine not_readAs_of_unmatched ?_ hspaced (hbefore shape hmem)
    rintro rfl
    revert hmem
    decide
  have hwrites : ∀ lines line post, Closes head.label body lines line post →
      WritesHeredoc t head lines post ∧ Chooses t .heredocIntro := by
    intro lines line post hcloses
    have hline := readLine_of_closes hnone hhead hbody hcloses
    refine ⟨writesHeredoc_of_readLine hready hhead hline, (chooses_iff hready).2 ?_⟩
    rw [hline]
    rfl
  have hplain : (¬ ∃ lines line post, Closes head.label body lines line post) →
      readLine (skipBlanks t).cursor.rest
        = readAs .plain (skipBlanks t).cursor.rest := by
    intro hopen
    refine readLine_of_open hnone hhead ?_
    by_contra hread
    exact hopen ((readBody_iff hlabel hbody).1 (Option.ne_none_iff_exists'.1 hread))
  have hiff : Chooses t .heredocIntro ↔
      ∃ lines line post, Closes head.label body lines line post := by
    constructor
    · intro hchooses
      by_contra hopen
      rw [chooses_iff hready, hplain hopen, Option.map_eq_some_iff] at hchooses
      obtain ⟨⟨l, r⟩, hread, hshape⟩ := hchooses
      cases (shape_of_readAs hread).1.symm.trans hshape
    · rintro ⟨lines, line, post, hcloses⟩
      exact (hwrites lines line post hcloses).2
  refine ⟨hiff, fun lines line post h => (hwrites lines line post h).1, ?_⟩
  intro hnot r
  have hline := hplain fun h => hnot (hiff.2 h)
  have halone := matchLine_eq_plain hspaced hline
  refine ⟨halone, ?_, ?_⟩
  · intro value hvalue
    have hmatched := halone.1.trans hvalue
    obtain ⟨l, u, hread, hround⟩ := round_of_matched hready hmatched
    refine ⟨(chooses_iff hready).2 ?_,
      .next ht.starts ht.more hmatched (hround.progress hread)⟩
    rw [← hrest] at hread
    rw [hread, Option.map_some, (shape_of_readAs (hline.symm.trans hread)).1]
  · intro hquotes
    have hread : readLine (skipBlanks t).cursor.rest
        = some (.whole .plain (taken (skipBlanks t).cursor.rest body), body) := by
      rw [hline]
      change ((newline (Reader.skipAll lineToken _)).map _) = _
      rw [skipAll_of_readHead hhead hbody hquotes, hbody]
      rfl
    have hround := round_of_ready hready
    rw [← hrest, hread] at hround
    obtain ⟨value, hround⟩ := hround
    exact ⟨value, halone.1.symm.trans hround.matched, hround.rest⟩

/-- Neither another label nor the label with a word behind it ends the body; the
block opens behind the terminator. -/
theorem heredoc_extent_block :
    let start := State.start "<<A do |x|\nB\n A x\n A\nend\n".toList
      { unit := "  " : Indenter }
    Chooses start .heredocIntro ∧
      WritesHeredoc start ⟨"A", true, "\nB\n A x\n A\nend\n".toList⟩
        ["B".toList, " A x".toList] "end\n".toList := by
  intro start
  have hcloses : Closes "A" "B\n A x\n A\nend\n".toList
      ["B".toList, " A x".toList] " A".toList "end\n".toList :=
    ⟨rfl, by decide, by decide, by decide⟩
  have hstart : LineAt (.start "<<A do |x|\nB\n A x\n A\nend\n".toList
      { unit := ({} : Config).indentUnit }) start :=
    ⟨.first, by decide +kernel⟩
  have hhead : readHead (skipBlanks start).cursor.rest
      = some ⟨"A", true, "\nB\n A x\n A\nend\n".toList⟩ := by decide +kernel
  obtain ⟨hiff, hwrites, _⟩ := heredoc_extent hstart (by decide +kernel) hhead rfl
  exact ⟨hiff.2 ⟨_, _, _, hcloses⟩, hwrites _ _ _ hcloses⟩

end RubyIndent.Document
