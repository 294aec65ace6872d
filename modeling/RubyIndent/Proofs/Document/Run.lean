import RubyIndent.Document
import RubyIndent.Proofs.Peg.Memoization
import RubyIndent.Proofs.Ruby.Layout

/-!
# The run over a document

The driver goes through a document line by line with one table. What the table
holds from the lines before does no harm to a line that starts where they ended
(`Ready`), so each round of the driver reads the logical line that stands there
(`round_of_ready`). A run is therefore known from the text alone:
`logicalLines` takes the text apart, and `run_eq` says that the driver succeeds
where it does and writes these lines.
-/

namespace RubyIndent.Document

open RubyIndent.Peg RubyIndent.Ruby RubyIndent.Text

variable {src : List Char}

/-! ## One line -/

/-- A place that a line from the cursor on may ask about for the first time.
Only the body of a heredoc was possibly looked for right at the cursor. -/
def Ahead (s : State Indenter src) (sym : Sym) (c : Cursor src) : Prop :=
  c.rest.length < s.cursor.rest.length ∨ c = s.cursor ∧ sym ≠ .heredocBody

/-- The table is right about the plain part of the grammar, and says nothing
about the other rules ahead of the cursor. -/
structure Ready (s : State Indenter src) : Prop extends
    Sound grammar plain s where
  unmet : ∀ sym c, sym.isPlain = false → Ahead s sym c →
    s.memo.outcome? (sym.id, c) = none

def belowLine (id : RuleId) : Prop :=
  heredocRules id ∨ ∃ shape, id = (Sym.shape shape).id

theorem closed_belowLine : grammar.Closed belowLine := by
  rintro id rule (hid | ⟨shape, rfl⟩) hr
  · exact (closed_heredocRules id rule hid hr).mono fun _ => .inl
  · cases (grammar_rule? (.shape shape)).symm.trans hr
    by_cases hs : shape = .heredocIntro
    · subst hs
      exact heredocIntro_within.mono fun _ => .inl
    · exact (body_within shape hs).mono fun _ hp => .inl (.inl hp)

theorem line_within : Line.line.Within belowLine := by
  have all : ∀ shapes : List LineShape,
      AllWithin belowLine (shapes.map fun s => (Sym.shape s).ref) := by
    intro shapes
    induction shapes with
    | nil => exact trivial
    | cons shape shapes ih => exact ⟨.inr ⟨shape, rfl⟩, ih⟩
  exact all _

theorem line_not_belowLine : ¬ belowLine Sym.line.id := by
  rintro ((h | h | h) | ⟨shape, h⟩)
  · exact Sym.not_plain rfl h
  · cases Sym.id_injective h
  · cases Sym.id_injective h
  · cases Sym.id_injective (t := .shape shape) h

/-- A heredoc is looked for ahead of the cursor. -/
theorem ahead_of_heredocVisit {s : State Indenter src} {w : Visit (Cursor src)}
    (hw : HeredocVisit s.cursor.rest w) :
    ∃ sym : Sym, w = (sym.id, w.2) ∧ sym.isPlain = false ∧ sym ≠ .line ∧
      Ahead s sym w.2 := by
  obtain ⟨id, c⟩ := w
  rcases hw with ⟨rfl, hw⟩ | ⟨rfl, hw⟩
  · refine ⟨.heredocLabel, rfl, rfl, nofun, ?_⟩
    have hle := (Takes.suffix cuts_beforeLabel hw).length_le
    rcases Nat.lt_or_eq_of_le hle with hlt | heq
    · exact .inl hlt
    · refine .inr ⟨?_, by decide⟩
      exact cursor_eq_of_rest ((Takes.suffix cuts_beforeLabel hw).eq_of_length heq)
  · refine ⟨.heredocBody, rfl, rfl, nofun, .inl ?_⟩
    obtain ⟨head, hhead, hbody⟩ := Option.bind_eq_some_iff.1 hw
    obtain ⟨t, ht, hsuffix⟩ := suffix_of_readHead hhead
    have hle := (hsuffix.trans (Takes.suffix cuts_beforeLabel ht)).length_le
    exact Nat.lt_of_lt_of_le (shortens_newline _ _ hbody) hle

/-- What is ahead of the end of a line was not looked for by the line. -/
theorem not_lineVisit_of_ahead {s t : State Indenter src} {sym : Sym}
    {c : Cursor src} (hlt : t.cursor.rest.length < s.cursor.rest.length)
    (hc : Ahead t sym c) : ¬ LineVisit s.cursor t.cursor.rest (sym.id, c) := by
  have hle : c.rest.length ≤ t.cursor.rest.length := by
    rcases hc with hc | ⟨rfl, _⟩
    · exact Nat.le_of_lt hc
    · exact Nat.le_refl _
  rintro (⟨shape, _, hw⟩ | ⟨_, hw⟩ | ⟨hid, hw⟩)
  · cases (eq_of_visit_eq (b := .shape shape) hw).2
    omega
  · exact Nat.not_le_of_lt hw hle
  · rcases hc with hc | ⟨_, hne⟩
    · exact Nat.not_le_of_lt hc hw
    · exact hne (Sym.id_injective hid)

/-- A line was read, so the state behind it is ready for the next one. -/
theorem Ready.next {s t : State Indenter src} (hs : Ready s)
    (hsound : Sound grammar plain t)
    (hlt : t.cursor.rest.length < s.cursor.rest.length)
    (hchanges : Changes plain (fun w => LineVisit s.cursor t.cursor.rest w ∨
      w = (Sym.line.id, s.cursor)) s t) : Ready t := by
  refine ⟨hsound, fun sym c hsym hc => ?_⟩
  have hahead : c.rest.length < s.cursor.rest.length := by
    rcases hc with hc | ⟨rfl, _⟩
    · exact Nat.lt_trans hc hlt
    · exact hlt
  rw [hchanges sym.id c (Sym.not_plain hsym) ?_]
  · exact hs.unmet sym c hsym (.inl hahead)
  · rintro (hw | hw)
    · exact not_lineVisit_of_ahead hlt hc hw
    · cases (eq_of_visit_eq hw).2
      exact Nat.lt_irrefl _ hahead

theorem readLine_shortens {s r : List Char} {l : LogicalLine}
    (h : readLine s = some (l, r)) : r.length < s.length := by
  obtain ⟨shape, _, h⟩ := List.exists_of_findSome?_eq_some h
  exact shortens_readAs h

/-- The line rule reads a logical line. -/
theorem line_evaluates {s t : State Indenter src}
    {v : Option (Value (Cursor src))} (hs : Ready s)
    (he : Evaluates grammar (.apply Sym.line.id) s v t) :
    match readLine s.cursor.rest with
    | none => v = none
    | some p => LineRead s v t (some p) ∧ Ready t ∧
      (p.1.shape = .heredocIntro ∨ UnmatchedAs .heredocIntro s.cursor t) := by
  have hid : ¬ plain Sym.line.id := Sym.not_plain rfl
  have hnew := hs.unmet .line s.cursor rfl (.inr ⟨rfl, by decide⟩)
  have hsound := hs.of_evaluates he trivial
  have hstart : Sound grammar plain (s.entered Sym.line.id).opened :=
    (hs.entered hid).of_eq rfl
  -- Entering the line rule adds an entry for the line rule only.
  have unmet : ∀ (sym : Sym) c, sym.isPlain = false → Ahead s sym c →
      sym ≠ .line →
      (s.entered Sym.line.id).opened.memo.outcome? (sym.id, c) = none := by
    intro sym c hsym hc hne
    have hne' : (Sym.line.id, s.cursor) ≠ (sym.id, c) := fun heq =>
      hne (Sym.id_injective (congrArg Prod.fst heq)).symm
    exact (Memo.outcome?_enter_ne s.memo hne').trans (hs.unmet sym c hsym hc)
  have shapes : ∀ {w u}, Evaluates grammar (.expr Line.line)
      (s.entered Sym.line.id).opened w u → match readLine s.cursor.rest with
      | none => w = none
      | some p => LineRead (s.entered Sym.line.id).opened w u (some p) ∧
        Changes plain (LineVisit s.cursor p.2) (s.entered Sym.line.id).opened
          u ∧
        (p.1.shape = .heredocIntro ∨ UnmatchedAs .heredocIntro s.cursor u) := by
    intro w u h
    cases h with
    | choice h =>
      refine allShapes_evaluate hstart ?_ ?_ h
      · rintro _ ⟨shape, _, rfl⟩
        exact unmet (.shape shape) s.cursor rfl (.inr ⟨rfl, nofun⟩) nofun
      · intro w hw
        obtain ⟨sym, heq, hsym, hne, hc⟩ := ahead_of_heredocVisit (s := s) hw
        rw [heq]
        exact unmet sym w.2 hsym hc hne
  rcases he.apply_new hnew (grammar_rule? .line) closed_belowLine line_within
      line_not_belowLine with
    ⟨u, h, rfl, _, _, _⟩ | ⟨w, u, h, rfl, hview, hctx, hmemo⟩
  · have hres := shapes h
    split at hres
    · exact rfl
    · cases hres.1.1
  · have hres := shapes h
    have hcursor : t.cursor = u.cursor := congrArg View.cursor hview
    split at hres
    · cases hres
    · rename_i p hread
      obtain ⟨l, r⟩ := p
      obtain ⟨⟨hv, hrest, hforget, w', hmatched⟩, hchanges, hother⟩ := hres
      have hrest' : t.cursor.rest = r := hcursor ▸ hrest
      -- The entry for the line is made last and hides none of the shapes.
      have hkept : ∀ shape, t.memo.outcome? ((Sym.shape shape).id, s.cursor)
          = u.memo.outcome? ((Sym.shape shape).id, s.cursor) := by
        intro shape
        rw [hmemo, Memo.outcome?_setOutcome_ne]
        intro heq
        cases (eq_of_visit_eq (b := .shape shape) heq).1
      refine ⟨⟨hv, hrest', ?_, w', ?_⟩, ?_, ?_⟩
      · rw [hctx]
        exact hforget
      · rw [hkept, hcursor]
        exact hmatched
      · refine hs.next hsound ?_ ?_
        · rw [hrest']
          exact readLine_shortens hread
        · rw [hrest']
          exact Changes.apply_new hchanges hmemo
      · refine hother.imp_right fun hunmatched d w => ?_
        rw [hkept]
        exact hunmatched d w

/-! ## One round -/

theorem skipBlanks_of_ready {s : State Indenter src} (hs : Ready s) :
    Ready (skipBlanks s) ∧
      (skipBlanks s).cursor.rest = s.cursor.rest.dropWhile isSpacing ∧
      (skipBlanks s).context = s.context := by
  have he : Evaluates grammar (.expr Sym.spacing.ref) s _ (skipBlanks s) :=
    .rule (State.apply_evaluates grammar Sym.spacing.id s)
  obtain ⟨⟨d, hd, _, hview⟩, hstays⟩ :=
    reads_spacing.took closed_plain (plain_id.2 rfl) he hs.toSound
  have hcursor : (skipBlanks s).cursor = d := congrArg View.cursor hview
  have hrest : (skipBlanks s).cursor.rest = s.cursor.rest.dropWhile isSpacing :=
    hcursor ▸ hd
  refine ⟨⟨hstays.toSound, fun sym c hsym hc => ?_⟩, hrest,
    hstays.apart.context silent_plain⟩
  rw [hstays.apart.outside _ (Sym.not_plain hsym)]
  refine hs.unmet sym c hsym ?_
  have hsuffix : (skipBlanks s).cursor.rest <:+ s.cursor.rest :=
    hrest ▸ List.dropWhile_suffix _
  rcases hc with hc | ⟨rfl, hne⟩
  · exact .inl (Nat.lt_of_lt_of_le hc hsuffix.length_le)
  · rcases Nat.lt_or_eq_of_le hsuffix.length_le with hlt | heq
    · exact .inl hlt
    · exact .inr ⟨cursor_eq_of_rest (hsuffix.eq_of_length heq), hne⟩

def afterRound (s : State Indenter src) (value : Value (Cursor src)) :
    State Indenter src :=
  write value (matchLine (skipBlanks s)).state

/-- What a round does where a logical line stands. -/
structure Round (s : State Indenter src) (l : LogicalLine) (r : List Char)
    (value : Value (Cursor src)) : Prop where
  ready : Ready (afterRound s value)
  matched : (matchLine (skipBlanks s)).value = some value
  rest : (afterRound s value).cursor.rest = r
  context : forget (afterRound s value).context
    = (l.emit (forget s.context)).2.push (l.emit (forget s.context)).1
  shape : MatchedAs l.shape (skipBlanks s).cursor
    (matchLine (skipBlanks s)).state
  other : l.shape = .heredocIntro ∨ UnmatchedAs .heredocIntro
    (skipBlanks s).cursor (matchLine (skipBlanks s)).state

/-- A round reads the logical line behind the blanks, or none. -/
theorem round_of_ready {s : State Indenter src} (hs : Ready s) :
    match readLine (s.cursor.rest.dropWhile isSpacing) with
    | none => (matchLine (skipBlanks s)).value = none
    | some (l, r) => ∃ value, Round s l r value := by
  obtain ⟨hready, hrest, hctx⟩ := skipBlanks_of_ready hs
  have hline := line_evaluates hready
    (State.apply_evaluates grammar Sym.line.id (skipBlanks s))
  rw [hrest] at hline
  cases hread : readLine (s.cursor.rest.dropWhile isSpacing) with
  | none =>
    rw [hread] at hline
    exact hline
  | some p =>
    obtain ⟨l, r⟩ := p
    rw [hread] at hline
    obtain ⟨⟨hv, hr, hforget, hmatched⟩, hnext, hother⟩ := hline
    rw [hctx] at hv hforget
    refine ⟨_, ⟨hnext.toSound.of_eq rfl, hnext.unmet⟩, hv, hr, ?_, hmatched,
      hother⟩
    exact congrArg (Indenter.push (l.emit (forget s.context)).1) hforget

theorem run_eq_of_end {s : State Indenter src} (hs : Ready s)
    (h : s.cursor.rest.dropWhile isSpacing = []) : run s = .ok (skipBlanks s) := by
  have hend : (skipBlanks s).atEnd = true := by
    rw [State.atEnd, Cursor.atEnd, (skipBlanks_of_ready hs).2.1, h]
    rfl
  rw [run, if_pos hend]

theorem not_atEnd_skipBlanks {s : State Indenter src} (hs : Ready s)
    (h : s.cursor.rest.dropWhile isSpacing ≠ []) :
    (skipBlanks s).atEnd = false := by
  rw [State.atEnd, Cursor.atEnd, (skipBlanks_of_ready hs).2.1]
  exact List.isEmpty_eq_false_iff.2 h

theorem run_eq_of_none {s : State Indenter src} (hs : Ready s)
    (h : s.cursor.rest.dropWhile isSpacing ≠ [])
    (hline : readLine (s.cursor.rest.dropWhile isSpacing) = none) :
    ∃ d, run s = .error d := by
  have hvalue := round_of_ready hs
  rw [hline] at hvalue
  dsimp only at hvalue
  rw [run, if_neg (by simp [not_atEnd_skipBlanks hs h])]
  dsimp only
  rw [hvalue]
  exact ⟨_, rfl⟩

/-- A round takes something of the text. -/
theorem Round.progress {s : State Indenter src} {l : LogicalLine}
    {r : List Char} {value : Value (Cursor src)} (h : Round s l r value)
    (hline : readLine (s.cursor.rest.dropWhile isSpacing) = some (l, r)) :
    s.cursor.index < (matchLine (skipBlanks s)).state.cursor.index := by
  rw [Pattern.index_lt_iff]
  have hrest : (matchLine (skipBlanks s)).state.cursor.rest = r := h.rest
  rw [hrest]
  exact Nat.lt_of_lt_of_le (readLine_shortens hline)
    (List.dropWhile_suffix _).length_le

theorem run_eq_of_round {s : State Indenter src} (hs : Ready s)
    (h : s.cursor.rest.dropWhile isSpacing ≠ []) {l : LogicalLine}
    {r : List Char} {value : Value (Cursor src)} (hround : Round s l r value)
    (hline : readLine (s.cursor.rest.dropWhile isSpacing) = some (l, r)) :
    run s = run (afterRound s value) := by
  rw [run, if_neg (by simp [not_atEnd_skipBlanks hs h])]
  dsimp only
  rw [hround.matched]
  exact dif_pos (hround.progress hline)

/-! ## The whole run -/

def logicalLines (s : List Char) : Option (List LogicalLine) :=
  if s.dropWhile isSpacing = [] then some []
  else
    match readLine (s.dropWhile isSpacing) with
    | none => none
    | some (l, r) =>
      if r.length < s.length then (logicalLines r).map (l :: ·) else none
termination_by s.length

def writeAll : List LogicalLine → Indenter → Indenter
  | [], i => i
  | l :: ls, i => writeAll ls ((l.emit i).2.push (l.emit i).1)

/-- Lines are added to what is written already. -/
theorem output_writeAll (ls : List LogicalLine) (i : Indenter) :
    ∃ out, (writeAll ls i).output = i.output ++ out := by
  induction ls generalizing i with
  | nil => exact ⟨"", String.append_empty.symm⟩
  | cons l ls ih =>
    obtain ⟨out, hout⟩ := ih ((l.emit i).2.push (l.emit i).1)
    refine ⟨(l.emit i).1 ++ out, ?_⟩
    rw [writeAll, hout, Indenter.push, output_emit, String.append_assoc]

/-- The driver takes the text apart as `logicalLines` does, and writes the
lines. -/
theorem run_eq {s : State Indenter src} (hs : Ready s) :
    match logicalLines s.cursor.rest with
    | none => ∃ d, run s = .error d
    | some ls => ∃ t, run s = .ok t ∧
      forget t.context = writeAll ls (forget s.context) := by
  generalize hn : s.cursor.rest.length = n
  induction n using Nat.strongRecOn generalizing s with
  | _ n ih =>
    rw [logicalLines]
    by_cases hend : s.cursor.rest.dropWhile isSpacing = []
    · rw [if_pos hend]
      refine ⟨_, run_eq_of_end hs hend, ?_⟩
      rw [(skipBlanks_of_ready hs).2.2]
      rfl
    · rw [if_neg hend]
      have hround := round_of_ready hs
      cases hline : readLine (s.cursor.rest.dropWhile isSpacing) with
      | none => exact run_eq_of_none hs hend hline
      | some p =>
        obtain ⟨l, r⟩ := p
        rw [hline] at hround
        obtain ⟨value, hround⟩ := hround
        have hlt : r.length < s.cursor.rest.length :=
          Nat.lt_of_lt_of_le (readLine_shortens hline)
            (List.dropWhile_suffix _).length_le
        have hrest := ih r.length (hn ▸ hlt) hround.ready
          (congrArg List.length hround.rest)
        rw [hround.rest, hround.context] at hrest
        rw [run_eq_of_round hs hend hround hline]
        dsimp only
        rw [if_pos hlt]
        cases hls : logicalLines r with
        | none =>
          rw [hls] at hrest
          exact hrest
        | some ls =>
          rw [hls] at hrest
          exact hrest

theorem run_ok_output {s fin : State Indenter src} (hs : Ready s)
    (h : run s = .ok fin) :
    ∃ out, fin.context.output = s.context.output ++ out := by
  have hrun := run_eq hs
  cases hls : logicalLines s.cursor.rest with
  | none =>
    rw [hls] at hrun
    obtain ⟨d, hd⟩ := hrun
    cases hd.symm.trans h
  | some ls =>
    rw [hls] at hrun
    obtain ⟨t, ht, hctx⟩ := hrun
    cases ht.symm.trans h
    obtain ⟨out, hout⟩ := output_writeAll ls (forget s.context)
    exact ⟨out, (congrArg Indenter.output hctx).trans hout⟩

/-- The state a document is taken apart from. -/
theorem ready_start (text : List Char) (i : Indenter) :
    Ready (State.start text i) := by
  have hnone : ∀ v, (State.start text i).memo.outcome? v = none :=
    Memo.outcome?_empty
  have hquiet := State.quiescent_startAt grammar plain (Cursor.first text) i
  exact ⟨⟨hquiet.agrees, hquiet.clear⟩, fun _ _ _ _ => hnone _⟩

/-- A document that is accepted was read to its end. -/
theorem run_of_reindent {input output : String} {config : Config}
    (himpose : config.imposeIndent = true)
    (h : reindent input config = .ok output) :
    ∃ fin, run (State.start input.toList { unit := config.indentUnit }) = .ok fin ∧
      fin.context.output = output := by
  rw [reindent, if_pos himpose] at h
  cases hrun : run (State.start input.toList { unit := config.indentUnit }) with
  | error d =>
    rw [hrun] at h
    cases h
  | ok fin =>
    rw [hrun] at h
    exact ⟨fin, rfl, Except.ok.inj h⟩

theorem eq_ok_of_toOption {ε α : Type} {e : Except ε α} {a : α}
    (h : e.toOption = some a) : e = .ok a := by
  cases e with
  | error d => cases h
  | ok b =>
    cases h
    rfl

/-! ## The rounds of a run -/

/-- The states in which the driver starts a round, from `s` on. -/
inductive StartsRound (s : State Indenter src) : State Indenter src → Prop where
  | first : StartsRound s s
  | next {t : State Indenter src} {value : Value (Cursor src)} :
    StartsRound s t → (skipBlanks t).atEnd = false →
    (matchLine (skipBlanks t)).value = some value →
    t.cursor.index < (matchLine (skipBlanks t)).state.cursor.index →
    StartsRound s (afterRound t value)

/-- A round in which the line rule matched read a logical line. -/
theorem round_of_matched {t : State Indenter src} (ht : Ready t)
    {value : Value (Cursor src)}
    (hvalue : (matchLine (skipBlanks t)).value = some value) : ∃ l r,
      readLine (t.cursor.rest.dropWhile isSpacing) = some (l, r) ∧
      Round t l r value := by
  have hround := round_of_ready ht
  cases hline : readLine (t.cursor.rest.dropWhile isSpacing) with
  | none =>
    rw [hline] at hround
    cases hround.symm.trans hvalue
  | some p =>
    obtain ⟨l, r⟩ := p
    rw [hline] at hround
    obtain ⟨value', hround⟩ := hround
    cases hround.matched.symm.trans hvalue
    exact ⟨l, r, rfl, hround⟩

theorem ne_nil_of_more {t : State Indenter src} (ht : Ready t)
    (hmore : (skipBlanks t).atEnd = false) :
    t.cursor.rest.dropWhile isSpacing ≠ [] := by
  intro hend
  rw [State.atEnd, Cursor.atEnd, (skipBlanks_of_ready ht).2.1, hend] at hmore
  cases hmore

/-- Every round starts in a ready state, and what the run comes to is decided
there. -/
theorem StartsRound.ready {s t : State Indenter src} (h : StartsRound s t)
    (hs : Ready s) : Ready t ∧ run s = run t := by
  induction h with
  | first => exact ⟨hs, rfl⟩
  | next _ hmore hvalue _ ih =>
    obtain ⟨ht, hrun⟩ := ih
    obtain ⟨l, r, hline, hround⟩ := round_of_matched ht hvalue
    exact ⟨hround.ready,
      hrun.trans (run_eq_of_round ht (ne_nil_of_more ht hmore) hround hline)⟩

/-- A round of the run from `s` on that applies the line rule. -/
structure LineAt (s t : State Indenter src) : Prop where
  starts : StartsRound s t
  more : (skipBlanks t).atEnd = false

/-- In a run that succeeds, every application of the line rule reads a line. -/
theorem LineAt.round {s t fin : State Indenter src} (h : LineAt s t)
    (hs : Ready s) (hrun : run s = .ok fin) : ∃ l r value,
      readLine (t.cursor.rest.dropWhile isSpacing) = some (l, r) ∧
      Round t l r value ∧ Ready t ∧ run (afterRound t value) = .ok fin := by
  obtain ⟨ht, hsame⟩ := h.starts.ready hs
  have hend := ne_nil_of_more ht h.more
  cases hvalue : (matchLine (skipBlanks t)).value with
  | none =>
    have hnone := round_of_ready ht
    cases hline : readLine (t.cursor.rest.dropWhile isSpacing) with
    | none =>
      obtain ⟨d, hd⟩ := run_eq_of_none ht hend hline
      cases (hd.symm.trans hsame.symm).trans hrun
    | some p =>
      rw [hline] at hnone
      obtain ⟨value, hround⟩ := hnone
      cases hvalue.symm.trans hround.matched
  | some value =>
    obtain ⟨l, r, hline, hround⟩ := round_of_matched ht hvalue
    refine ⟨l, r, value, hline, hround, ht, ?_⟩
    rw [← run_eq_of_round ht hend hround hline, ← hsame, hrun]

end RubyIndent.Document
