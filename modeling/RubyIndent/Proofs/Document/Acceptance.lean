import RubyIndent.Proofs.Document.Progress
import RubyIndent.Proofs.Ruby.Tails
import RubyIndent.Proofs.Text.Positions

/-!
# Which documents are accepted

Every line that no other shape fits is a plain one, and the plain shape takes all
tokens of the line. Tokens give out only at the end of the line, at the end of the
text and at a quote that starts no string (`lineToken_eq_none`). So a document is
refused for one of two reasons: its last line has no newline, or a string has no end
(`noToken_of_not_readLine`). Without quotes in it the last line decides alone, for
then a line is read wherever there is a newline (`not_newline_of_not_readLine`).
-/

namespace RubyIndent.Ruby

open RubyIndent.Peg RubyIndent.Text RubyIndent.Pattern

/-! ## Where tokens give out -/

theorem lineToken_eq_none {s : List Char} (h : lineToken s = none) :
    AtLineEnd s ∨ s.head? = some '\"' ∧ dqString s = none ∨
      s.head? = some '\'' ∧ sqString s = none := by
  obtain ⟨_, h⟩ := Option.or_eq_none_iff.1 h
  obtain ⟨_, h⟩ := Option.or_eq_none_iff.1 h
  obtain ⟨hdq, h⟩ := Option.or_eq_none_iff.1 h
  obtain ⟨hsq, h⟩ := Option.or_eq_none_iff.1 h
  cases s with
  | nil => exact .inl (.inl rfl)
  | cons c s =>
    rw [pattern_wordOrChar] at h
    split at h
    · cases h
    · split at h
      · rename_i hc
        rcases hc with rfl | rfl | rfl
        · exact .inl (.inr ⟨s, rfl⟩)
        · exact .inr (.inl ⟨rfl, hdq⟩)
        · exact .inr (.inr ⟨rfl, hsq⟩)
      · cases h

theorem lineToken_stops (s : List Char) :
    lineToken (Reader.skipAll lineToken s) = none :=
  skipAll_stops (shortens_token (Shortens.pattern rfl)) s

/-- Characters that neither end a line nor start a string. -/
def Unquoted (s : List Char) : Prop :=
  ∀ c ∈ s, c ≠ '\n' ∧ c ≠ '\"' ∧ c ≠ '\''

/-- Away from quotes a token is within the line. -/
theorem lineToken_unquoted {c : Char} {s : List Char}
    (hc : c ≠ '\n' ∧ c ≠ '\"' ∧ c ≠ '\'') :
    ∃ m t, lineToken (c :: s) = some t ∧ c :: s = m ++ t ∧ '\n' ∉ m ∧ m ≠ [] := by
  obtain ⟨hn, hdq, hsq⟩ := hc
  have hshort : Shortens lineToken := shortens_token (Shortens.pattern rfl)
  have honline : StaysOnLine (Reader.orElse (.pattern Token.escape)
      (.orElse comment (.pattern Token.wordOrChar))) :=
    (StaysOnLine.pattern rfl).orElse
      ((StaysOnLine.pattern rfl).orElse (StaysOnLine.pattern rfl))
  have hstrings : lineToken (c :: s) = Reader.orElse (.pattern Token.escape)
      (.orElse comment (.pattern Token.wordOrChar)) (c :: s) := by
    simp [lineToken, token, Reader.orElse, dqString, sqString, Reader.next,
      Reader.literal, hdq.symm, hsq.symm]
  cases h : lineToken (c :: s) with
  | none =>
    rcases lineToken_eq_none h with (h | ⟨t, h⟩) | ⟨h, _⟩ | ⟨h, _⟩
    · cases h
    · exact absurd (List.cons.inj h).1 hn
    · exact absurd (Option.some.inj h) hdq
    · exact absurd (Option.some.inj h) hsq
  | some t =>
    obtain ⟨m, hm, hne⟩ := honline _ t (hstrings.symm.trans h)
    refine ⟨m, t, rfl, hm, fun hmem => hne _ hmem rfl, ?_⟩
    rintro rfl
    have hlt := hshort _ t h
    rw [hm] at hlt
    exact Nat.lt_irrefl _ hlt

/-- What is taken within a line leaves the rest of the line. -/
theorem exists_of_append_eq {m t s r : List Char} (h : s ++ r = m ++ t)
    (hm : '\n' ∉ m) (hr : AtLineEnd r) : ∃ s', s = m ++ s' ∧ t = s' ++ r := by
  rcases List.append_eq_append_iff.1 h with ⟨a, rfl, rfl⟩ | ⟨a, rfl, rfl⟩
  · rcases hr with hr | ⟨u, hr⟩
    · obtain ⟨rfl, rfl⟩ := List.append_eq_nil_iff.1 hr
      exact ⟨[], by simp, rfl⟩
    · cases a with
      | nil => exact ⟨[], by simp, rfl⟩
      | cons c a =>
        obtain ⟨rfl, _⟩ := List.cons.inj hr
        exact absurd (List.mem_append_right s List.mem_cons_self) hm
  · exact ⟨a, rfl, rfl⟩

/-- A line without quotes is passed up to its end. -/
theorem skipAll_unquoted {s r : List Char} (hs : Unquoted s) (hr : AtLineEnd r) :
    Reader.skipAll lineToken (s ++ r) = r := by
  generalize hn : s.length = n
  induction n using Nat.strongRecOn generalizing s with
  | _ n ih =>
    cases s with
    | nil =>
      refine skipAll_none ?_
      rcases hr with rfl | ⟨t, rfl⟩ <;> rfl
    | cons c s =>
      obtain ⟨m, t, htoken, hcut, hm, hne⟩ :=
        lineToken_unquoted (s := s ++ r) (hs c List.mem_cons_self)
      obtain ⟨s', hs', rfl⟩ :=
        exists_of_append_eq (s := c :: s) hcut hm hr
      have hpos : 0 < m.length := List.length_pos_iff.2 hne
      have hlength := congrArg List.length hs'
      rw [List.length_append] at hlength
      rw [List.cons_append, skipAll_some htoken]
      · refine ih s'.length (by omega) ?_ rfl
        intro d hd
        exact hs d (hs' ▸ List.mem_append_right m hd)
      · have hlonger : (m ++ (s' ++ r)).length = m.length + (s' ++ r).length :=
          List.length_append
        rw [hcut]
        omega

/-! ## Where no line is read -/

/-- Where no line is read, the plain reading ends at the end of the text or at a
quote. -/
theorem stop_of_not_readLine {s : List Char} (h : readLine s = none) :
    let stop := Reader.skipAll lineToken s
    stop = [] ∨ stop.head? = some '\"' ∧ dqString stop = none ∨
      stop.head? = some '\'' ∧ sqString stop = none := by
  intro stop
  have hplain : newline stop = none :=
    Option.map_eq_none_iff.1 (List.findSome?_eq_none_iff.1 h .plain (by decide))
  rcases lineToken_eq_none (lineToken_stops s) with (h | ⟨t, h⟩) | h | h
  · exact .inl h
  · rw [show stop = '\n' :: t from h] at hplain
    cases hplain
  · exact .inr (.inl h)
  · exact .inr (.inr h)

/-- Without quotes, a line is read wherever there is a newline. -/
theorem not_newline_of_not_readLine {s : List Char} (h : readLine s = none)
    (hdq : '\"' ∉ s) (hsq : '\'' ∉ s) : '\n' ∉ s := by
  intro hn
  obtain ⟨line, r, rfl, hline⟩ := List.eq_append_cons_of_mem hn
  have hunquoted : Unquoted line := by
    intro c hc
    have hmem : c ∈ line ++ '\n' :: r := List.mem_append_left _ hc
    refine ⟨?_, ?_, ?_⟩
    · rintro rfl
      exact hline hc
    · rintro rfl
      exact hdq hmem
    · rintro rfl
      exact hsq hmem
  have hstop := stop_of_not_readLine h
  rw [skipAll_unquoted hunquoted (.inr ⟨r, rfl⟩)] at hstop
  simp at hstop

end RubyIndent.Ruby

namespace RubyIndent.Document

open RubyIndent.Peg RubyIndent.Ruby RubyIndent.Text

variable {src : List Char}

/-! ## How a run ends -/

/-- The last round of the run from `s` on starts in `t`. -/
inductive LastRound (s t : State Indenter src) : Prop where
  | accepts (starts : StartsRound s t) (ends : (skipBlanks t).atEnd = true)
      (hrun : run s = .ok (skipBlanks t))
  | refuses (line : LineAt s t) (unmatched : (matchLine (skipBlanks t)).value = none)
      (hrun : ∃ d, run s = .error d)

theorem not_readLine_of_unmatched {t : State Indenter src} (ht : Ready t)
    (h : (matchLine (skipBlanks t)).value = none) :
    readLine (t.cursor.rest.dropWhile isSpacing) = none := by
  have hround := round_of_ready ht
  cases hline : readLine (t.cursor.rest.dropWhile isSpacing) with
  | none => rfl
  | some p =>
    rw [hline] at hround
    obtain ⟨value, hround⟩ := hround
    cases h.symm.trans hround.matched

/-- Every run comes to a last round: what is left gets shorter. -/
theorem StartsRound.exists_last {s t : State Indenter src} (hs : Ready s)
    (ht : StartsRound s t) : ∃ u, LastRound s u := by
  generalize hn : t.cursor.rest.length = n
  induction n using Nat.strongRecOn generalizing t with
  | _ n ih =>
    obtain ⟨hready, hrun⟩ := ht.ready hs
    by_cases hend : t.cursor.rest.dropWhile isSpacing = []
    · refine ⟨t, .accepts ht ?_ (hrun.trans (run_eq_of_end hready hend))⟩
      rw [State.atEnd, Cursor.atEnd, (skipBlanks_of_ready hready).2.1, hend]
      rfl
    · have hmore := not_atEnd_skipBlanks hready hend
      cases hvalue : (matchLine (skipBlanks t)).value with
      | none =>
        obtain ⟨d, hd⟩ := run_eq_of_none hready hend
          (not_readLine_of_unmatched hready hvalue)
        exact ⟨t, .refuses ⟨ht, hmore⟩ hvalue ⟨d, hrun.trans hd⟩⟩
      | some value =>
        obtain ⟨l, r, hline, hround⟩ := round_of_matched hready hvalue
        have hprogress := hround.progress hline
        refine ih _ ?_ (.next ht hmore hvalue hprogress) rfl
        rw [← hn]
        exact Cursor.length_rest_lt hprogress

/-- Lines end with newlines, so what is left has the last line of the text. -/
theorem StartsRound.lastLine_eq {s t : State Indenter src} (h : StartsRound s t)
    (hs : Ready s) : lastLine t.cursor.rest = lastLine s.cursor.rest := by
  induction h with
  | first => rfl
  | @next t value ht _ hvalue _ ih =>
    have hready := (ht.ready hs).1
    obtain ⟨l, r, hline, hround⟩ := round_of_matched hready hvalue
    obtain ⟨⟨line, hlast⟩, hrest⟩ := hround.lineText_eq hready hline
    have hsplit : t.cursor.rest
        = t.cursor.rest.takeWhile isSpacing ++ line ++ '\n' :: r := by
      rw [hlast] at hrest
      simpa using hrest
    rw [← ih, hround.rest, hsplit, lastLine_newline]

/-! ## Acceptance -/

/-- At the cursor the text ends, or there is a quote that starts no string. -/
def NoToken (s : State Indenter src) : Prop :=
  s.cursor.rest = [] ∨
    s.cursor.rest.head? = some '\"' ∧
      (s.apply grammar Sym.dqString.id).value = none ∨
    s.cursor.rest.head? = some '\'' ∧
      (s.apply grammar Sym.sqString.id).value = none

theorem noToken_of_not_readLine {s : State Indenter src}
    (hs : Sound grammar plain s) (h : readLine s.cursor.rest = none) :
    NoToken (s.apply grammar Sym.text.id).state := by
  have hstop := stop_of_not_readLine h
  obtain ⟨d, hd, _, hview⟩ := Sym.took rfl reads_text hs
  have hrest : (s.apply grammar Sym.text.id).state.cursor.rest
      = Reader.skipAll lineToken s.cursor.rest :=
    (congrArg (fun p : View src => p.cursor.rest) hview).trans hd
  have hsound : Sound grammar plain (s.apply grammar Sym.text.id).state :=
    hs.of_evaluates (State.apply_evaluates grammar Sym.text.id s) trivial
  rw [← hrest] at hstop
  rcases hstop with hstop | ⟨hquote, hstring⟩ | ⟨hquote, hstring⟩
  · exact .inl hstop
  · have htook := Sym.took rfl reads_dqString hsound
    rw [hstring] at htook
    exact .inr (.inl ⟨hquote, htook⟩)
  · have htook := Sym.took rfl reads_sqString hsound
    rw [hstring] at htook
    exact .inr (.inr ⟨hquote, htook⟩)

/-- In a text without quotes, the line that is not matched is the last one, and it
is not blank. -/
theorem LineAt.not_blank {s t : State Indenter src} (h : LineAt s t) (hs : Ready s)
    (hunmatched : (matchLine (skipBlanks t)).value = none) (hdq : '\"' ∉ src)
    (hsq : '\'' ∉ src) : ¬ Blanks (lastLine s.cursor.rest) := by
  have ht := (h.starts.ready hs).1
  have hsub : ∀ c ∈ t.cursor.rest.dropWhile isSpacing, c ∈ src := by
    intro c hc
    have hmem := (List.dropWhile_suffix isSpacing).subset hc
    rw [t.cursor.rest_eq] at hmem
    exact List.mem_of_mem_drop hmem
  have hline : '\n' ∉ t.cursor.rest.dropWhile isSpacing :=
    not_newline_of_not_readLine (not_readLine_of_unmatched ht hunmatched)
      (fun hc => hdq (hsub _ hc)) fun hc => hsq (hsub _ hc)
  have hrest : '\n' ∉ t.cursor.rest := by
    rw [← List.takeWhile_append_dropWhile (p := isSpacing) (l := t.cursor.rest),
      List.mem_append]
    rintro (hc | hc)
    · exact (blanks_takeWhile _).not_newline hc
    · exact hline hc
  rw [← h.starts.lastLine_eq hs, lastLine_of_not_mem hrest]
  intro hblank
  exact ne_nil_of_more ht h.more hblank.dropWhile

theorem formatBytes_of_error {input : String} {config : Config} {d : Diagnostic}
    (h : reindent input config = .error d) (name : String) :
    formatBytes input.toUTF8 config name = .error (.noParse name d) := by
  rw [formatBytes, fromUTF8?_toUTF8]
  dsimp only
  rw [h]

/-- Which documents are accepted. Behind the last newline of a document that is
accepted there are only blanks. In a document that is refused there is a line that
is not matched; at every such line the tokens give out at the end of the text or at a
quote that starts no string, and nothing is written. So a document without quotes is
accepted exactly if its last line is blank. -/
theorem reindent_accepts (input : String) {config : Config}
    (himpose : config.imposeIndent = true) :
    let start := State.start input.toList { unit := config.indentUnit : Indenter }
    (∀ output, reindent input config = .ok output →
      Blanks (lastLine input.toList)) ∧
    (∀ d, reindent input config = .error d →
      (∃ t, LineAt start t ∧ (matchLine (skipBlanks t)).value = none) ∧
      (∀ t, LineAt start t → (matchLine (skipBlanks t)).value = none →
        NoToken ((skipBlanks t).apply grammar Sym.text.id).state) ∧
      ∀ name, formatBytes input.toUTF8 config name = .error (.noParse name d)) ∧
    ('\"' ∉ input.toList → '\'' ∉ input.toList →
      ((∃ output, reindent input config = .ok output) ↔
        Blanks (lastLine input.toList))) := by
  intro start
  have hready : Ready start := ready_start _ _
  have hreindent : reindent input config
      = (run start).map fun s => s.context.output := by
    rw [reindent, if_pos himpose]
  obtain ⟨t, hlast⟩ := StartsRound.exists_last hready .first
  cases hlast with
  | accepts hstarts hend hrun =>
    have ht := (hstarts.ready hready).1
    have hblank : Blanks t.cursor.rest := by
      rw [State.atEnd, Cursor.atEnd, (skipBlanks_of_ready ht).2.1,
        List.isEmpty_iff] at hend
      exact List.dropWhile_eq_nil_iff.1 hend
    have hlast : Blanks (lastLine input.toList) := by
      have hsame := hstarts.lastLine_eq hready
      rw [lastLine_of_not_mem hblank.not_newline] at hsame
      exact hsame ▸ hblank
    rw [hreindent, hrun]
    refine ⟨fun _ _ => hlast, ?_, ?_⟩
    · intro d h
      cases h
    · intro _ _
      exact ⟨fun _ => hlast, fun _ => ⟨_, rfl⟩⟩
  | refuses hline hunmatched hrun =>
    obtain ⟨d, hrun⟩ := hrun
    have herror : reindent input config = .error d := by
      rw [hreindent, hrun]
      rfl
    refine ⟨?_, ?_, ?_⟩
    · intro output h
      cases herror.symm.trans h
    · intro d' h
      refine ⟨⟨t, hline, hunmatched⟩, ?_, formatBytes_of_error h⟩
      intro u hu hvalue
      have hu' := (hu.starts.ready hready).1
      obtain ⟨hspaced, hrest, _⟩ := skipBlanks_of_ready hu'
      refine noToken_of_not_readLine hspaced.toSound ?_
      rw [hrest]
      exact not_readLine_of_unmatched hu' hvalue
    · intro hdq hsq
      constructor
      · rintro ⟨output, h⟩
        cases herror.symm.trans h
      · intro hblank
        exact absurd hblank (hline.not_blank hready hunmatched hdq hsq)

/-- A backslash at the end of a line and brackets in a comment are accepted with
blanks behind the last newline; a word there is refused. -/
theorem reindent_accepts_unquoted :
    (∃ output, reindent "x \\\n# [\n\t " {} = .ok output) ∧
      ¬ ∃ output, reindent "x \\\n# [\ny" {} = .ok output :=
  ⟨((reindent_accepts "x \\\n# [\n\t " rfl).2.2 (by decide) (by decide)).2 (by decide),
    fun h => absurd
      (((reindent_accepts "x \\\n# [\ny" rfl).2.2 (by decide) (by decide)).1 h)
      (by decide)⟩

end RubyIndent.Document
