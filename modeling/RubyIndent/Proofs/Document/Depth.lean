import RubyIndent.Proofs.Document.Writing

/-!
# Depth accounting

The lines of a run, each with the action that wrote it. The depth is the sum of
what these actions do to it, it is not clamped, and it moves at no other moment:
what is tried in vain, looked at ahead or part of a literal leaves it alone
(`WritesLine.during`). Every line is written at the level that the depth before it
asks for, so a closing line stands as far in as the line that opened its block,
and a document whose blocks are well nested ends where it began.
-/

namespace RubyIndent.Document

open RubyIndent.Peg RubyIndent.Ruby RubyIndent.Text

variable {src : List Char}

/-- A line that a round wrote: the action that ran, and the text it made. -/
structure WrittenLine extends LineAction where
  written : String

/-- The line as it stood in the document. -/
def WrittenLine.source (l : WrittenLine) : List Char :=
  l.caps.text.toList

def depthOf (lines : List WrittenLine) : Int :=
  depthAfter (lines.map (·.toLineAction)) 0

/-- A round from `u` on writes a line: of all actions of shapes, only the one of
this line runs. -/
inductive WritesLine (u : State Indenter src) :
    WrittenLine → State Indenter src → Prop where
  | intro {value : Value (Cursor src)} {log : List (Event src)} {a : LineAction}
      (hmore : (skipBlanks u).atEnd = false)
      (hvalue : (matchLine (skipBlanks u)).value = some value)
      (hprogress : u.cursor.index < (lineEnd u).index)
      (hlog : LineSteps (skipBlanks u) log) (hwritten : log.filterMap written? = [a]) :
    WritesLine u ⟨a, value.toString⟩ (afterRound u value)

/-- The driver writes lines, one in each round. -/
inductive Writes (s : State Indenter src) :
    List WrittenLine → State Indenter src → Prop where
  | nil : Writes s [] s
  | snoc {lines : List WrittenLine} {u t : State Indenter src}
      {line : WrittenLine} (h : Writes s lines u) (hline : WritesLine u line t) :
    Writes s (lines ++ [line]) t

/-! ## One line -/

theorem depthOf_snoc (lines : List WrittenLine) (line : WrittenLine) :
    depthOf (lines ++ [line]) = depthOf lines + line.move := by
  rw [depthOf, List.map_append, depthAfter_append]
  rfl

theorem WritesLine.round {u t : State Indenter src} {line : WrittenLine}
    (h : WritesLine u line t) (hu : Ready u) : ∃ l r value,
      readLine (u.cursor.rest.dropWhile isSpacing) = some (l, r) ∧
      Round u l r value ∧ t = afterRound u value ∧
      line.written = value.toString ∧ line.shape = l.shape ∧
      line.source = lineText u := by
  cases h with
  | intro hmore hvalue hprogress hlog hwritten =>
    obtain ⟨l, r, hline, hround⟩ := round_of_matched hu hvalue
    obtain ⟨labels, hlines⟩ := hround.writes hu hlog
    cases hwritten.symm.trans hlines
    refine ⟨l, r, _, hline, hround, rfl, rfl, rfl, ?_⟩
    exact String.toList_ofList

/-- What the indenter holds after a line. -/
theorem WritesLine.context {u t : State Indenter src} {line : WrittenLine}
    (h : WritesLine u line t) (hu : Ready u) :
    forget t.context = { forget u.context with
      depth := u.context.depth + line.move
      output := u.context.output ++ line.written } := by
  cases h with
  | intro hmore hvalue hprogress hlog hwritten =>
    have hmoved := Steps.forget_context hlog nofun
    rw [hwritten] at hmoved
    simp only [(skipBlanks_of_ready hu).2.2] at hmoved
    exact congrArg (Indenter.push _) hmoved

/-- A line is written at the level that its shape and the depth ask for. -/
theorem WritesLine.laid {u t : State Indenter src} {line : WrittenLine}
    (h : WritesLine u line t) (hu : Ready u) :
    Laid u.context.unit (line.shape.level u.context.depth).toNat line.shape
      line.source line.written.toList ∧
    (line.shape ≠ .plain → ¬ LineEnds line.source) := by
  have hcontext := congrArg Indenter.output (h.context hu)
  obtain ⟨l, r, value, hline, hround, rfl, hwritten, hshape, hsource⟩ := h.round hu
  obtain ⟨_, b, b', _, _, hb, hb', htext, _⟩ := round_layout hu hround hline
  rw [hshape, hsource, htext]
  have hemit : line.written = (l.emit (forget u.context)).1 := by
    have hround := congrArg Indenter.output hround.context
    rw [Indenter.push, output_emit] at hround
    exact String.append_right_inj _ |>.1 (hcontext.symm.trans hround)
  rw [hemit]
  exact emit_laid hline (flush_dropWhile u.cursor.rest) (forget u.context) hb hb'

/-- The depth while a line is looked for: it moves when the action of the line
runs, and at no other moment. -/
theorem WritesLine.during {u t : State Indenter src} {line : WrittenLine}
    (h : WritesLine u line t) (hu : Ready u) {log : List (Event src)}
    {c : Peg.Config Indenter src}
    (hc : Steps grammar ⟨.apply Sym.line.id, skipBlanks u, []⟩ log c) :
    log.filterMap written? = [] ∧ c.state.context.depth = u.context.depth ∨
    log.filterMap written? = [line.toLineAction] ∧
      c.state.context.depth = u.context.depth + line.move := by
  have hmoved := congrArg Indenter.depth (Steps.forget_context hc nofun)
  change c.state.context.depth
    = depthAfter _ (skipBlanks u).context.depth at hmoved
  rw [(skipBlanks_of_ready hu).2.2] at hmoved
  cases h with
  | intro _ _ _ hlog hwritten =>
    obtain ⟨rest, rfl, _⟩ := hc.before_end hlog rfl
    rw [List.filterMap_append] at hwritten
    rcases List.append_eq_singleton_iff.1 hwritten with ⟨hnone, _⟩ | ⟨hone, _⟩
    · exact .inl ⟨hnone, by rw [hmoved, hnone]; rfl⟩
    · exact .inr ⟨hone, by rw [hmoved, hone]; rfl⟩

/-- Skipping blanks does not move the depth. -/
theorem depth_of_spacing {u : State Indenter src} {log : List (Event src)}
    {c : Peg.Config Indenter src}
    (hc : Steps grammar ⟨.apply Sym.spacing.id, u, []⟩ log c) :
    c.state.context.depth = u.context.depth := by
  obtain ⟨full, hfull, hplain⟩ :=
    (State.apply_evaluates grammar Sym.spacing.id u).performs closed_plain
      (plain_id.2 rfl)
  obtain ⟨rest, rfl, _⟩ := hc.before_end (hfull []) rfl
  have hnone : log.filterMap written? = [] :=
    written_of_heredocRules fun e he => .inl (hplain e (List.mem_append_left _ he))
  have hmoved := congrArg Indenter.depth (Steps.forget_context hc nofun)
  rw [hnone] at hmoved
  exact hmoved

/-! ## All lines -/

theorem Writes.starts {s t : State Indenter src} {lines : List WrittenLine}
    (h : Writes s lines t) : StartsRound s t := by
  induction h with
  | nil => exact .first
  | snoc _ hline ih =>
    cases hline with
    | intro hmore hvalue hprogress _ _ => exact .next ih hmore hvalue hprogress

/-- The depth is what the lines so far add up to, and the output is what they
wrote. -/
theorem Writes.context {lines : List WrittenLine} {t : State Indenter src}
    {unit : String} (h : Writes (.start src { unit }) lines t) :
    t.context.unit = unit ∧ t.context.depth = depthOf lines ∧
      t.context.output = String.join (lines.map (·.written)) := by
  induction h with
  | nil => exact ⟨rfl, rfl, rfl⟩
  | @snoc lines u t line h hline ih =>
    obtain ⟨hunit, hdepth, houtput⟩ := ih
    have hcontext := hline.context (h.starts.ready (ready_start _ _)).1
    have hunit' : t.context.unit = u.context.unit :=
      congrArg (fun i => i.unit) hcontext
    have hdepth' : t.context.depth = u.context.depth + line.move :=
      congrArg (fun i => i.depth) hcontext
    have houtput' : t.context.output = u.context.output ++ line.written :=
      congrArg (fun i => i.output) hcontext
    refine ⟨hunit'.trans hunit, ?_, ?_⟩
    · rw [hdepth', hdepth, depthOf_snoc]
    · rw [houtput', houtput, List.map_append, String.join_append]
      simp

/-- Every line of a run was written by a round. -/
theorem Writes.split {s t : State Indenter src} {lines : List WrittenLine}
    (h : Writes s lines t) {before after : List WrittenLine} {line : WrittenLine}
    (hlines : lines = before ++ line :: after) :
    ∃ u t, Writes s before u ∧ WritesLine u line t := by
  induction h generalizing after with
  | nil => simp at hlines
  | @snoc lines u t last h hline ih =>
    rcases List.eq_nil_or_concat after with rfl | ⟨after, last', rfl⟩
    · obtain ⟨rfl, hlast⟩ := List.append_inj' hlines rfl
      cases hlast
      exact ⟨u, t, h, hline⟩
    · have hinit : lines ++ [last] = (before ++ line :: after) ++ [last'] := by
        simpa using hlines
      exact ih (List.append_inj' hinit rfl).1

/-- A run that succeeds writes its lines up to the end of the document. -/
theorem run_writes {s t fin : State Indenter src} {lines : List WrittenLine}
    (h : Writes s lines t) (hs : Ready s) (hrun : run t = .ok fin) :
    ∃ more last, Writes s (lines ++ more) last ∧ fin = skipBlanks last := by
  generalize hn : t.cursor.rest.length = n
  induction n using Nat.strongRecOn generalizing t lines with
  | _ n ih =>
    have ht := (h.starts.ready hs).1
    by_cases hend : t.cursor.rest.dropWhile isSpacing = []
    · cases (run_eq_of_end ht hend).symm.trans hrun
      exact ⟨[], t, by rwa [List.append_nil], rfl⟩
    · have hmore := not_atEnd_skipBlanks ht hend
      obtain ⟨l, r, value, hline, hround, _, hrun'⟩ :=
        LineAt.round ⟨.first, hmore⟩ ht hrun
      obtain ⟨log, hlog⟩ := exists_lineSteps (skipBlanks t)
      obtain ⟨labels, hwritten⟩ := hround.writes ht hlog
      have hprogress := hround.progress hline
      have hlt : (afterRound t value).cursor.rest.length < t.cursor.rest.length :=
        Cursor.length_rest_lt hprogress
      have hnext := h.snoc (.intro hmore hround.matched hprogress hlog hwritten)
      obtain ⟨more, last, hlast, hfin⟩ := ih _ (hn ▸ hlt) hnext hrun' rfl
      exact ⟨_ :: more, last, by simpa using hlast, hfin⟩

/-- A document that is accepted is written by the actions of its lines. -/
theorem writes_of_reindent {input output : String} {config : Config}
    (himpose : config.imposeIndent = true)
    (h : reindent input config = .ok output) :
    let start := State.start input.toList { unit := config.indentUnit }
    ∃ lines last, Writes start lines last ∧ run start = .ok (skipBlanks last) ∧
      output = String.join (lines.map (·.written)) ∧
      (skipBlanks last).context.depth = depthOf lines := by
  intro start
  have hready : Ready start := ready_start _ _
  obtain ⟨fin, hrun, rfl⟩ := run_of_reindent himpose h
  obtain ⟨lines, last, hwrites, rfl⟩ := run_writes .nil hready hrun
  rw [List.nil_append] at hwrites
  have hlast := (skipBlanks_of_ready (hwrites.starts.ready hready).1).2.2
  obtain ⟨_, hdepth, houtput⟩ := hwrites.context
  rw [← hlast] at hdepth houtput
  exact ⟨lines, last, hwrites, hrun, houtput, hdepth⟩

/-- The round that wrote a line, and what the lines before it lead to. -/
theorem Writes.round {lines : List WrittenLine} {last : State Indenter src}
    {unit : String} (h : Writes (.start src { unit }) lines last)
    {before after : List WrittenLine} {line : WrittenLine}
    (hlines : lines = before ++ line :: after) :
    ∃ u t, Writes (.start src { unit }) before u ∧ WritesLine u line t ∧ Ready u ∧
      line.source = lineText u ∧ u.context.unit = unit ∧
      u.context.depth = depthOf before := by
  obtain ⟨u, t, hbefore, hline⟩ := h.split hlines
  have hu := (hbefore.starts.ready (ready_start _ _)).1
  obtain ⟨_, _, _, _, _, _, _, _, hsource⟩ := hline.round hu
  obtain ⟨hunit, hdepth, _⟩ := hbefore.context
  exact ⟨u, t, hbefore, hline, hu, hsource, hunit, hdepth⟩

/-! ## Blocks -/

/-- Lines that close what they open, in the order in which it was opened. -/
inductive WellNested : List WrittenLine → Prop where
  | nil : WellNested []
  | level {line : WrittenLine} {rest : List WrittenLine} (h : line.move = 0)
      (hrest : WellNested rest) : WellNested (line :: rest)
  | block {opener closer : WrittenLine} {inner rest : List WrittenLine}
      (hopen : opener.move = 1) (hinner : WellNested inner)
      (hclose : closer.move = -1) (hrest : WellNested rest) :
    WellNested (opener :: (inner ++ closer :: rest))

/-- Well-nested lines lead back to the depth before them. -/
theorem WellNested.depthAfter_eq {lines : List WrittenLine} (h : WellNested lines)
    (d : Int) : depthAfter (lines.map (·.toLineAction)) d = d := by
  induction h generalizing d with
  | nil => rfl
  | @level line rest h _ ih =>
    rw [List.map_cons, depthAfter_cons, h, Int.add_zero, ih]
  | @block opener closer inner rest hopen _ hclose _ ih ih' =>
    rw [List.map_cons, depthAfter_cons, List.map_append, depthAfter_append, ih,
      List.map_cons, depthAfter_cons, hopen, hclose, Int.add_neg_cancel_right, ih']

/-- A line that opens a level stands outside of it. -/
theorem level_of_opener {a : LineAction} (h : a.move = 1) (d : Int) :
    a.shape.level d = d ∧ a.shape ≠ .plain := by
  obtain ⟨shape, caps⟩ := a
  by_cases hshape : shape = .heredocIntro
  · subst hshape
    exact ⟨rfl, nofun⟩
  · rw [LineAction.move_of_ne hshape] at h
    change shape.depthDelta = 1 at h
    cases shape
    case indentOpen | bracketOpen | blockOpener | bracketTail => exact ⟨rfl, nofun⟩
    all_goals exact absurd h (by decide)

/-- A line that closes a level stands outside of it. -/
theorem level_of_closer {a : LineAction} (h : a.move = -1) (d : Int) :
    a.shape.level d = d - 1 ∧ a.shape ≠ .plain := by
  obtain ⟨shape, caps⟩ := a
  by_cases hshape : shape = .heredocIntro
  · subst hshape
    rw [LineAction.move_heredocIntro] at h
    split at h
    · exact absurd h (by decide)
    · exact absurd h (by decide)
  · rw [LineAction.move_of_ne hshape] at h
    change shape.depthDelta = -1 at h
    cases shape
    case outdent | bracketClose => exact ⟨rfl, nofun⟩
    all_goals exact absurd h (by decide)

/-- Every line of a run is written at its level. -/
theorem Writes.laid {lines : List WrittenLine} {last : State Indenter src}
    {unit : String} (h : Writes (.start src { unit }) lines last)
    {before after : List WrittenLine} {line : WrittenLine}
    (hlines : lines = before ++ line :: after) :
    Laid unit (line.shape.level (depthOf before)).toNat line.shape line.source
      line.written.toList ∧
    (line.shape ≠ .plain → ¬ LineEnds line.source) := by
  obtain ⟨u, t, _, hline, hu, _, hunit, hdepth⟩ := h.round hlines
  have hlaid := hline.laid hu
  rwa [hunit, hdepth] at hlaid

/-- A line that closes a block stands at the level of the line that opens it. -/
theorem Writes.aligned {lines : List WrittenLine} {last : State Indenter src}
    {unit : String} (h : Writes (.start src { unit }) lines last)
    {before inner after : List WrittenLine} {opener closer : WrittenLine}
    (hlines : lines = before ++ opener :: (inner ++ closer :: after))
    (hopen : opener.move = 1) (hclose : closer.move = -1)
    (hinner : depthOf (before ++ opener :: inner) = depthOf (before ++ [opener])) :
    ∃ n, AtLevel unit n opener.shape opener.source opener.written.toList ∧
      AtLevel unit n closer.shape closer.source closer.written.toList := by
  have hlines' : lines = (before ++ opener :: inner) ++ closer :: after := by
    simp [hlines]
  obtain ⟨hlaid, hvisible⟩ := h.laid hlines
  obtain ⟨hlaid', hvisible'⟩ := h.laid hlines'
  obtain ⟨hlevel, hne⟩ := level_of_opener hopen (depthOf before)
  obtain ⟨hlevel', hne'⟩ :=
    level_of_closer hclose (depthOf (before ++ opener :: inner))
  have hsame : depthOf (before ++ opener :: inner) - 1 = depthOf before := by
    rw [hinner, depthOf_snoc, hopen]
    omega
  rw [hlevel] at hlaid
  rw [hlevel', hsame] at hlaid'
  exact ⟨_, hlaid.visible (hvisible hne), hlaid'.visible (hvisible' hne')⟩

/-- A document is written by the actions of its lines, one for each. The depth
before and after a line is the sum of what the actions so far do to it, and during
the line it moves when the line's action runs and not before. The line stands at
the level that its shape asks for at that depth. So where the depth is back to what
it was behind an opening line, a closing line stands at the same level, and a
document of well-nested lines ends at depth zero. -/
theorem reindent_accounts_depth {input output : String} {config : Config}
    (himpose : config.imposeIndent = true)
    (h : reindent input config = .ok output) :
    let start := State.start input.toList { unit := config.indentUnit }
    ∃ lines last, Writes start lines last ∧ run start = .ok (skipBlanks last) ∧
      output = String.join (lines.map (·.written)) ∧
      (skipBlanks last).context.depth = depthOf lines ∧
      (∀ before line after, lines = before ++ line :: after →
        ∃ u t, Writes start before u ∧ WritesLine u line t ∧
          line.source = lineText u ∧
          u.context.depth = depthOf before ∧
          t.context.depth = depthOf before + line.shape.depthDelta +
            (if line.opens then 1 else 0) ∧
          Laid config.indentUnit (line.shape.level (depthOf before)).toNat
            line.shape line.source line.written.toList ∧
          (∀ log c, Steps grammar ⟨.apply Sym.spacing.id, u, []⟩ log c →
            c.state.context.depth = u.context.depth) ∧
          ∀ log c, Steps grammar ⟨.apply Sym.line.id, skipBlanks u, []⟩ log c →
            log.filterMap written? = [] ∧
              c.state.context.depth = u.context.depth ∨
            log.filterMap written? = [line.toLineAction] ∧
              c.state.context.depth = t.context.depth) ∧
      (∀ before opener inner closer after,
        lines = before ++ opener :: (inner ++ closer :: after) →
        opener.move = 1 → closer.move = -1 →
        depthOf (before ++ opener :: inner) = depthOf (before ++ [opener]) →
        ∃ n, AtLevel config.indentUnit n opener.shape opener.source
            opener.written.toList ∧
          AtLevel config.indentUnit n closer.shape closer.source
            closer.written.toList) ∧
      (WellNested lines → (skipBlanks last).context.depth = 0) := by
  intro start
  obtain ⟨lines, last, hwrites, hrun, houtput, hdepth⟩ :=
    writes_of_reindent himpose h
  refine ⟨lines, last, hwrites, hrun, houtput, hdepth, ?_, ?_, ?_⟩
  · intro before line after hlines
    obtain ⟨u, t, hbefore, hline, hu, hsource, _, hdepth⟩ := hwrites.round hlines
    have hmoved : t.context.depth = u.context.depth + line.move :=
      congrArg Indenter.depth (hline.context hu)
    refine ⟨u, t, hbefore, hline, hsource, hdepth, ?_, (hwrites.laid hlines).1,
      fun log c hc => depth_of_spacing hc, fun log c hc => ?_⟩
    · rw [hmoved, hdepth, Int.add_assoc]
      rfl
    · rw [hmoved]
      exact hline.during hu hc
  · intro before opener inner closer after hlines hopen hclose hinner
    exact hwrites.aligned hlines hopen hclose hinner
  · intro hnested
    rw [hdepth]
    exact hnested.depthAfter_eq 0

/-- Two closing lines too many: the opening line behind them brings the depth up to
minus one only. -/
theorem reindent_accounts_depth_negative : ∃ lines last,
    Writes (.start "end\nend\nif a\n".toList { unit := "  " }) lines last ∧
    "end\nend\nif a\n" = String.join (lines.map (·.written)) ∧
    depthOf lines = -1 := by
  have hend : (run (.start "end\nend\nif a\n".toList { unit := "  " })).toOption.map
      (fun t => (t.context.output, t.context.depth))
      = some ("end\nend\nif a\n", -1) := by decide +kernel
  obtain ⟨fin, hfin, heq⟩ := Option.map_eq_some_iff.1 hend
  have hrun := eq_ok_of_toOption hfin
  have h : reindent "end\nend\nif a\n" {} = .ok "end\nend\nif a\n" := by
    refine (congrArg (Except.map fun t => t.context.output) hrun).trans ?_
    exact congrArg (fun p => Except.ok p.1) heq
  obtain ⟨lines, last, hwrites, hrun', houtput, hdepth, _⟩ :=
    reindent_accounts_depth rfl h
  refine ⟨lines, last, hwrites, houtput, ?_⟩
  cases hrun.symm.trans hrun'
  exact hdepth.symm.trans (congrArg (·.2) heq)

end RubyIndent.Document
