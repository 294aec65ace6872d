import RubyIndent.Proofs.Document.Writing

/-!
# Lines do not disturb each other

All lines of a document share one table and one indenter. `runAlone` is the driver
that shares nothing: it matches each line in a fresh parse, which has seen no other
line and remembers no label. Both succeed on the same documents and write the same
(`run_eq_runAlone`), because a line that is matched in a state left behind by the
lines before it comes out as in a fresh one (`Ready.matchLine_eq`).
-/

namespace RubyIndent.Document

open RubyIndent.Peg RubyIndent.Ruby RubyIndent.Text

variable {src : List Char}

/-- A fresh parse at a place, with the depth that was reached and no label. -/
def aloneAt (c : Cursor src) (i : Indenter) : State Indenter src :=
  .startAt c (forget i)

def runAlone (c : Cursor src) (i : Indenter) : Except Diagnostic Indenter :=
  let start := (skipBlanks (aloneAt c i)).cursor
  if start.atEnd then .ok i
  else
    let r := matchLine (aloneAt start i)
    match r.value with
    | none => .error (r.state.explain grammar Sym.line.name)
    | some value =>
      if h : c.index < r.state.cursor.index then
        have := Cursor.length_rest_lt h
        runAlone r.state.cursor (r.state.context.push value.toString)
      else .error (r.state.explain grammar Sym.line.name)
termination_by c.rest.length

/-- Reindents a document, each line in a fresh parse. -/
def reindentAlone (input : String) (config : Config) :
    Except Diagnostic String :=
  if config.imposeIndent then
    (runAlone (.first input.toList) { unit := config.indentUnit }).map (·.output)
  else .ok input

theorem ready_aloneAt (c : Cursor src) (i : Indenter) : Ready (aloneAt c i) := by
  have hnone : ∀ v, (aloneAt c i).memo.outcome? v = none :=
    Memo.outcome?_empty
  have hquiet := State.quiescent_startAt grammar plain c (forget i)
  exact ⟨⟨hquiet.agrees, hquiet.clear⟩, fun _ _ _ _ => hnone _⟩

/-! ## One line -/

/-- Two states in which the line rule has been applied, with the same result. -/
structure SameReading (s t : State Indenter src) : Prop where
  value : (matchLine s).value = (matchLine t).value
  stop : (matchLine s).state.cursor = (matchLine t).state.cursor
  context : forget (matchLine s).state.context = forget (matchLine t).state.context
  shapes : ∀ log log', LineSteps s log → LineSteps t log' →
    (log.filterMap written?).map LineAction.shape
      = (log'.filterMap written?).map LineAction.shape

/-- The shape whose action runs is that of the line that is read. -/
theorem LineSteps.shapes {s : State Indenter src} {log : List (Event src)}
    (h : LineSteps s log) (hs : Ready s) :
    (log.filterMap written?).map LineAction.shape
      = ((readLine s.cursor.rest).map fun p => p.1.shape).toList := by
  have hline := line_evaluates hs (State.apply_evaluates grammar Sym.line.id s)
  have hchosen := h.chosen hs
  generalize log.filterMap written? = lines at hchosen
  cases hread : readLine s.cursor.rest with
  | none =>
    rw [hread] at hline
    change (matchLine s).value = none at hline
    rw [hline] at hchosen
    cases hchosen
    rfl
  | some p =>
    rw [hread] at hline
    obtain ⟨⟨hvalue, _, _, hmatched⟩, _, _⟩ := hline
    change (matchLine s).value = some _ at hvalue
    rw [hvalue] at hchosen
    cases hchosen with
    | line shape labels hshape =>
      cases hshape p.1.shape hmatched
      rfl

/-- Where no line is found, nothing but the label changes. -/
theorem Ready.matchLine_none {s : State Indenter src} (hs : Ready s)
    (h : (matchLine s).value = none) : (matchLine s).state.cursor = s.cursor ∧
      forget (matchLine s).state.context = forget s.context := by
  have he := State.apply_evaluates grammar Sym.line.id s
  change Evaluates grammar (.apply Sym.line.id) s (matchLine s).value _ at he
  rw [h] at he
  obtain ⟨log, hlog⟩ := exists_lineSteps s
  have hchosen := hlog.chosen hs
  have hmoved := Steps.forget_context hlog nofun
  rw [h] at hchosen
  generalize log.filterMap written? = lines at hchosen hmoved
  cases hchosen
  exact ⟨congrArg View.cursor he.view_of_apply_none, hmoved⟩

/-- What a line comes to is known from the text and from what the indenter holds,
the label apart. -/
theorem Ready.matchLine_eq {s t : State Indenter src} (hs : Ready s)
    (ht : Ready t) (hcursor : s.cursor = t.cursor)
    (hcontext : forget s.context = forget t.context) : SameReading s t := by
  have hshapes : ∀ log log', LineSteps s log → LineSteps t log' →
      (log.filterMap written?).map LineAction.shape
        = (log'.filterMap written?).map LineAction.shape := by
    intro log log' hlog hlog'
    rw [hlog.shapes hs, hlog'.shapes ht, hcursor]
  have hes := State.apply_evaluates grammar Sym.line.id s
  have het := State.apply_evaluates grammar Sym.line.id t
  have hlineS := line_evaluates hs hes
  have hlineT := line_evaluates ht het
  rw [hcursor] at hlineS
  cases hread : readLine t.cursor.rest with
  | none =>
    rw [hread] at hlineS hlineT
    obtain ⟨hstopS, hcontextS⟩ := hs.matchLine_none hlineS
    obtain ⟨hstopT, hcontextT⟩ := ht.matchLine_none hlineT
    exact ⟨hlineS.trans hlineT.symm, (hstopS.trans hcursor).trans hstopT.symm,
      (hcontextS.trans hcontext).trans hcontextT.symm, hshapes⟩
  | some p =>
    obtain ⟨l, r⟩ := p
    rw [hread] at hlineS hlineT
    obtain ⟨⟨hvalueS, hrestS, hcontextS, _⟩, _, _⟩ := hlineS
    obtain ⟨⟨hvalueT, hrestT, hcontextT, _⟩, _, _⟩ := hlineT
    rw [hcontext] at hvalueS hcontextS
    exact ⟨hvalueS.trans hvalueT.symm,
      cursor_eq_of_rest (hrestS.trans hrestT.symm),
      hcontextS.trans hcontextT.symm, hshapes⟩

/-- A line of the document comes out as in a fresh parse. -/
theorem Ready.sameReading {t : State Indenter src} (ht : Ready t) :
    SameReading (skipBlanks t) (aloneAt (skipBlanks t).cursor t.context) := by
  obtain ⟨hready, _, hcontext⟩ := skipBlanks_of_ready ht
  refine hready.matchLine_eq (ready_aloneAt _ _) rfl ?_
  rw [hcontext]
  rfl

/-! ## All lines -/

section

variable {c start : Cursor src} {i : Indenter}

theorem runAlone_of_end (h : (skipBlanks (aloneAt c i)).cursor.atEnd = true) :
    runAlone c i = .ok i := by
  rw [runAlone, if_pos h]

theorem runAlone_of_none (hstart : (skipBlanks (aloneAt c i)).cursor = start)
    (hmore : start.atEnd = false)
    (hvalue : (matchLine (aloneAt start i)).value = none) :
    ∃ d, runAlone c i = .error d := by
  subst hstart
  rw [runAlone, if_neg (by simp [hmore])]
  dsimp only
  rw [hvalue]
  exact ⟨_, rfl⟩

theorem runAlone_of_some (hstart : (skipBlanks (aloneAt c i)).cursor = start)
    (hmore : start.atEnd = false) {value : Value (Cursor src)}
    (hvalue : (matchLine (aloneAt start i)).value = some value)
    (hlt : c.index < (matchLine (aloneAt start i)).state.cursor.index) :
    runAlone c i = runAlone (matchLine (aloneAt start i)).state.cursor
      ((matchLine (aloneAt start i)).state.context.push value.toString) := by
  subst hstart
  rw [runAlone, if_neg (by simp [hmore])]
  dsimp only
  rw [hvalue]
  exact dif_pos hlt

end

theorem cursor_skipBlanks {s t : State Indenter src} (hs : Ready s)
    (ht : Ready t) (h : s.cursor = t.cursor) :
    (skipBlanks s).cursor = (skipBlanks t).cursor := by
  refine cursor_eq_of_rest ?_
  rw [(skipBlanks_of_ready hs).2.1, (skipBlanks_of_ready ht).2.1, h]

/-- A run comes to the same as the lines alone. -/
theorem run_eq_runAlone {s : State Indenter src} (hs : Ready s) {i : Indenter}
    (hi : forget i = forget s.context) :
    (run s).toOption.map (fun t => forget t.context)
      = (runAlone s.cursor i).toOption.map forget := by
  generalize hn : s.cursor.rest.length = n
  induction n using Nat.strongRecOn generalizing s i with
  | _ n ih =>
    obtain ⟨hready, _, hcontext⟩ := skipBlanks_of_ready hs
    have hstart : (skipBlanks (aloneAt s.cursor i)).cursor
        = (skipBlanks s).cursor :=
      cursor_skipBlanks (ready_aloneAt _ _) hs rfl
    have hsame : SameReading (skipBlanks s) (aloneAt (skipBlanks s).cursor i) :=
      hready.matchLine_eq (ready_aloneAt _ _) rfl
        ((congrArg forget hcontext).trans hi.symm)
    by_cases hend : s.cursor.rest.dropWhile isSpacing = []
    · have hatEnd : (skipBlanks (aloneAt s.cursor i)).cursor.atEnd = true := by
        rw [Cursor.atEnd, (skipBlanks_of_ready (ready_aloneAt _ _)).2.1]
        exact List.isEmpty_iff.2 hend
      rw [run_eq_of_end hs hend, runAlone_of_end hatEnd]
      exact congrArg some ((congrArg forget hcontext).trans hi.symm)
    · have hmore := not_atEnd_skipBlanks hs hend
      have hround := round_of_ready hs
      cases hline : readLine (s.cursor.rest.dropWhile isSpacing) with
      | none =>
        rw [hline] at hround
        obtain ⟨d, hd⟩ := run_eq_of_none hs hend hline
        obtain ⟨d', hd'⟩ :=
          runAlone_of_none hstart hmore (hsame.value.symm.trans hround)
        rw [hd, hd']
        rfl
      | some p =>
        obtain ⟨l, r⟩ := p
        rw [hline] at hround
        obtain ⟨value, hround⟩ := hround
        have hprogress := hround.progress hline
        have hlt : (afterRound s value).cursor.rest.length
            < s.cursor.rest.length :=
          Cursor.length_rest_lt hprogress
        have hnext : s.cursor.index
            < (matchLine (aloneAt (skipBlanks s).cursor i)).state.cursor.index :=
          hsame.stop ▸ hprogress
        rw [run_eq_of_round hs hend hround hline,
          runAlone_of_some hstart hmore (hsame.value.symm.trans hround.matched) hnext,
          ← hsame.stop]
        refine ih _ (hn ▸ hlt) hround.ready ?_ rfl
        exact congrArg (Indenter.push value.toString) hsame.context.symm

/-- Sharing one table and one indenter between the lines of a document changes
nothing: a document is reindented as if each of its lines were matched in a parse of
its own. Whatever the lines before have left behind, each line is found to have the
same shape, ends at the same place, and is written alike. -/
theorem reindent_eq_alone (input : String) (config : Config) :
    (reindent input config).toOption = (reindentAlone input config).toOption ∧
    ∀ t, LineAt (.start input.toList { unit := config.indentUnit }) t →
      SameReading (skipBlanks t) (aloneAt (skipBlanks t).cursor t.context) := by
  have hready : Ready (.start input.toList { unit := config.indentUnit }) :=
    ready_start _ _
  refine ⟨?_, fun t ht => (ht.starts.ready hready).1.sameReading⟩
  unfold reindent reindentAlone
  split
  · have hrun := congrArg (Option.map Indenter.output)
      (run_eq_runAlone hready (i := { unit := config.indentUnit }) rfl)
    rw [Option.map_map, Option.map_map] at hrun
    have toOption_map : ∀ {α : Type} (e : Except Diagnostic α) (f : α → String),
        (e.map f).toOption = e.toOption.map f := by
      intro α e f
      cases e <;> rfl
    rw [toOption_map, toOption_map]
    exact hrun
  · rfl

/-- A heredoc that is looked for in vain leaves its label and its scan of the later
lines behind; the heredoc on the next line is found all the same. -/
theorem reindent_eq_alone_heredoc :
    (reindentAlone "a <<B\n<<D\nD\n" {}).toOption = some "a <<B\n<<D\nD\n" ∧
      ∃ t, LineAt (.start "a <<B\n<<D\nD\n".toList { unit := "  " }) t ∧
        t.cursor.rest = "<<D\nD\n".toList ∧
        SameReading (skipBlanks t) (aloneAt (skipBlanks t).cursor t.context) := by
  obtain ⟨halone, hlines⟩ := reindent_eq_alone "a <<B\n<<D\nD\n" {}
  refine ⟨halone ▸ by decide +kernel, ?_⟩
  let start : State Indenter "a <<B\n<<D\nD\n".toList := .start _ { unit := "  " }
  have hready : Ready start := ready_start _ _
  have hread : (readLine (start.cursor.rest.dropWhile isSpacing)).map (·.2)
      = some "<<D\nD\n".toList := by decide +kernel
  obtain ⟨⟨l, r⟩, hline, rfl⟩ := Option.map_eq_some_iff.1 hread
  have hround := round_of_ready hready
  rw [hline] at hround
  obtain ⟨value, hround⟩ := hround
  have hmore : (skipBlanks start).atEnd = false :=
    not_atEnd_skipBlanks hready (by decide)
  have hnext : (skipBlanks (afterRound start value)).atEnd = false := by
    refine not_atEnd_skipBlanks hround.ready ?_
    rw [hround.rest]
    decide
  have hat : LineAt start (afterRound start value) :=
    ⟨.next .first hmore hround.matched (hround.progress hline), hnext⟩
  exact ⟨_, hat, hround.rest, hlines _ hat⟩

end RubyIndent.Document
