import Mathlib.Data.List.Infix
import RubyIndent.Proofs.Document.Acceptance
import RubyIndent.Proofs.Document.Brackets
import RubyIndent.Proofs.Document.Classification
import RubyIndent.Proofs.Document.Depth
import RubyIndent.Proofs.Document.Forgetting

/-!
# Lines that are read by themselves

Only strings and heredocs let a line look at the lines below it. On a line without
quotes and without the start of a heredoc every reader stays within the line, so it
does the same whatever stands below (`LocalRest.lineOf`), and the line is read alone
(`readLine_local`). The driver then writes such lines one by one, in the same way in
every document that starts with them, and what it makes of the rest depends on them
by way of the depth only (`reindent_append`).
-/

namespace RubyIndent.Ruby

open RubyIndent.Peg RubyIndent.Text RubyIndent.Pattern

/-! ## Lines without literals -/

def startsHeredoc : List Char → Bool
  | '<' :: '<' :: c :: s =>
    c.isUpper || (c = '-' || c = '~') && s.head?.any Char.isUpper
  | _ => false

/-- A line in which no string and no heredoc can start. -/
structure Local (line : List Char) : Prop where
  unquoted : Unquoted line
  unmarked : ∀ t, t <:+ line → startsHeredoc t = false

theorem Local.of_append {m n : List Char} (h : Local (m ++ n)) : Local n where
  unquoted c hc := h.unquoted c (List.mem_append_right m hc)
  unmarked t ht := h.unmarked t (ht.trans (List.suffix_append m n))

theorem Local.not_newline {line : List Char} (h : Local line) : '\n' ∉ line :=
  fun hn => (h.unquoted _ hn).1 rfl

/-- No heredoc starts across the end of a line. -/
theorem startsHeredoc_newline (m below : List Char) :
    startsHeredoc (m ++ '\n' :: below) = startsHeredoc m := by
  rcases m with _ | ⟨a, _ | ⟨b, _ | ⟨c, m⟩⟩⟩
  · rfl
  · by_cases ha : a = '<' <;> simp [startsHeredoc, ha]
  · by_cases ha : a = '<'
    · by_cases hb : b = '<' <;> simp [startsHeredoc, ha, hb]
    · simp [startsHeredoc, ha]
  · by_cases ha : a = '<'
    · by_cases hb : b = '<'
      · subst ha hb
        cases m <;> rfl
      · simp [startsHeredoc, hb]
    · simp [startsHeredoc, ha]

/-! ## Readers stay within the line -/

/-- What is left of such a line, with some lines below it and with others. -/
def LocalRest (x y s t : List Char) : Prop :=
  ∃ m, Local m ∧ s = m ++ '\n' :: x ∧ t = m ++ '\n' :: y

/-- A reader takes the same of a line, whatever stands below. -/
def Tracks (x y : List Char) (f : Reader) : Prop :=
  ∀ s t, LocalRest x y s t → Option.Rel (LocalRest x y) (f s) (f t)

namespace Tracks

variable {x y : List Char} {f g : Reader}

theorem next (hf : Tracks x y f) (hg : Tracks x y g) : Tracks x y (.next f g) :=
  fun s t h => rel_bind (hf s t h) hg

theorem orElse (hf : Tracks x y f) (hg : Tracks x y g) : Tracks x y (.orElse f g) :=
  fun s t h => rel_or (hf s t h) (hg s t h)

theorem absent (hf : ∀ s t, LocalRest x y s t → (f s).isSome = (f t).isSome) :
    Tracks x y (.absent f) :=
  fun s t h => rel_absent (hf s t h) h

theorem present (hf : ∀ s t, LocalRest x y s t → (f s).isSome = (f t).isSome) :
    Tracks x y (.present f) :=
  absent fun s t h => rel_isSome (absent hf s t h)

theorem not (hf : Tracks x y f) : Tracks x y (.absent f) :=
  absent fun s t h => rel_isSome (hf s t h)

theorem optional (hf : Tracks x y f) : Tracks x y (.optional f) :=
  fun s t h => .some (rel_getD (hf s t h) h)

theorem many (hf : Tracks x y f) (hshort : Shortens f) : Tracks x y (.many f) :=
  fun _ _ h => .some (rel_skipAll hf hshort h)

theorem pattern {p : Pattern} (hp : avoids '\n' p.regex = true) :
    Tracks x y (.pattern p) := by
  rintro _ _ ⟨m, hm, rfl, rfl⟩
  have hend : ∀ z : List Char, ∀ c ∈ ('\n' :: z).head?, avoids c p.regex = true := by
    intro z c hc
    rwa [← Option.mem_some_iff.1 hc]
  refine rel_imp (rel_pattern_line (hend x) (hend y) hm.not_newline) ?_
  rintro _ _ ⟨n, m', rfl, _, rfl, rfl⟩
  exact ⟨m', hm.of_append, rfl, rfl⟩

theorem literal {w : String} (hw : '\n' ∉ w.toList) : Tracks x y (.literal w) := by
  rintro _ _ ⟨m, hm, rfl, rfl⟩
  cases hx : Reader.literal w (m ++ '\n' :: x) with
  | some u =>
    obtain ⟨m', rfl, rfl⟩ := literal_bare hw hx
    have hy : Reader.literal w (w.toList ++ m' ++ '\n' :: y)
        = some (m' ++ '\n' :: y) := by
      rw [Reader.literal, isPrefixOf?_eq, List.append_assoc, if_pos (by simp),
        List.drop_left]
    rw [hy]
    exact .some ⟨m', hm.of_append, rfl, rfl⟩
  | none =>
    cases hy : Reader.literal w (m ++ '\n' :: y) with
    | none => exact .none
    | some v =>
      obtain ⟨m', rfl, rfl⟩ := literal_bare hw hy
      rw [Reader.literal, isPrefixOf?_eq, List.append_assoc, if_pos (by simp)] at hx
      cases hx

theorem spacing : Tracks x y spacing := by
  rintro _ _ ⟨m, hm, rfl, rfl⟩
  have hstop : ∀ z : List Char, ∀ c ∈ ('\n' :: z).head?, isSpacing c = false := by
    rintro z c hc
    rw [← Option.mem_some_iff.1 hc]
    rfl
  refine .some ⟨m.dropWhile isSpacing, ?_, dropWhile_append_stop (hstop x) m,
    dropWhile_append_stop (hstop y) m⟩
  rw [← List.takeWhile_append_dropWhile (p := isSpacing) (l := m)] at hm
  exact hm.of_append

/-- A line is left by its newline only. -/
theorem newline {s t : List Char} (h : LocalRest x y s t) :
    Option.Rel (fun u v => u = x ∧ v = y) (newline s) (newline t) := by
  obtain ⟨m, hm, rfl, rfl⟩ := h
  cases m with
  | nil => exact .some ⟨rfl, rfl⟩
  | cons c m =>
    have hc := (hm.unquoted c List.mem_cons_self).1
    simp only [Ruby.newline, Reader.literal, List.cons_append]
    simp [hc.symm]

/-- No string starts on the line. -/
theorem quote {w : String} {c : Char} (hw : w.toList = [c])
    (hc : c = '\"' ∨ c = '\'') : Tracks x y (.next (.literal w) f) := by
  have hnone : ∀ m z, Local m → Reader.literal w (m ++ '\n' :: z) = none := by
    intro m z hm
    rw [Reader.literal, hw]
    cases m with
    | nil => rcases hc with rfl | rfl <;> rfl
    | cons d m =>
      obtain ⟨_, hdq, hsq⟩ := hm.unquoted d List.mem_cons_self
      have hne : c ≠ d := by rcases hc with rfl | rfl <;> exact Ne.symm ‹_›
      simp [hne]
  rintro _ _ ⟨m, hm, rfl, rfl⟩
  rw [Reader.next, hnone m x hm, Reader.next, hnone m y hm]
  exact .none

theorem tail (hf : Tracks x y f) : Tracks x y (tail f) :=
  hf.next (spacing.next ((pattern rfl).optional.next
    (present fun _ _ h => rel_isSome (newline h))))

theorem blockTail : Tracks x y blockTail :=
  tail ((pattern rfl).orElse (pattern rfl))

theorem bracketTail : Tracks x y bracketTail :=
  tail (pattern rfl)

theorem anyTail : Tracks x y anyTail :=
  blockTail.orElse bracketTail

theorem token (hf : Tracks x y f) : Tracks x y (token f) :=
  (pattern rfl).orElse ((pattern rfl).orElse
    ((quote rfl (.inl rfl)).orElse ((quote rfl (.inr rfl)).orElse hf)))

theorem wordBefore (hf : Tracks x y f) : Tracks x y (wordBefore f) :=
  hf.not.next (pattern rfl)

theorem scan (hf : Tracks x y f) :
    Tracks x y (.many (Ruby.token (Ruby.wordBefore f))) :=
  many (token (wordBefore hf))
    (shortens_token (shortens_wordBefore _))

theorem keyword {word : String} (h : '\n' ∉ word.toList) :
    Tracks x y (keyword word) :=
  (literal h).next ((pattern rfl).not.next
    ((literal (by decide)).next (literal (by decide)).not).not)

theorem keywords {words : List String} (h : ∀ word ∈ words, '\n' ∉ word.toList) :
    Tracks x y (keywords words) := by
  induction words with
  | nil => exact fun _ _ _ => .none
  | cons word words ih =>
    exact (keyword (h word List.mem_cons_self)).orElse
      (ih fun w hw => h w (List.mem_cons_of_mem _ hw))

theorem opening (shape : LineShape) : Tracks x y (opening shape) := by
  cases shape
  case indentOpen | dual => exact keywords (by decide)
  case outdent => exact keyword (by decide)
  case bracketSameLine =>
    exact ((literal (by decide)).next (pattern rfl)).orElse
      ((literal (by decide)).next (pattern rfl))
  case bracketOpen | bracketClose =>
    exact (literal (by decide)).orElse (literal (by decide))
  all_goals exact fun _ _ _ => .none

end Tracks

/-! ## A line alone -/

section
variable {x y s t : List Char}

theorem LocalRest.lineOf (shape : LineShape) (h : LocalRest x y s t) :
    Option.Rel (fun u v => u = x ∧ v = y) (Ruby.lineOf shape s)
      (Ruby.lineOf shape t) := by
  have ends : ∀ {f g : Reader}, Tracks x y f → Tracks x y g →
      Option.Rel (fun u v => u = x ∧ v = y) (Reader.next f (.next g newline) s)
        (Reader.next f (.next g newline) t) :=
    fun hf hg => rel_bind (hf s t h) fun u v huv =>
      rel_bind (hg u v huv) fun _ _ => Tracks.newline
  have stop : Tracks x y upToStop := .scan (Tracks.anyTail.orElse (.pattern rfl))
  have opened := fun shape => ends (.opening shape) (.scan .anyTail)
  have plain : Tracks x y upToEnd :=
    .many (.token (.pattern rfl)) (shortens_token (Shortens.pattern rfl))
  cases shape
  case blockOpener => exact ends stop .blockTail
  case bracketTail => exact ends stop .bracketTail
  case heredocIntro => exact .none
  case plain => exact rel_bind (plain s t h) fun _ _ => Tracks.newline
  all_goals exact opened _

end

/-- Where the tokens of a line do not lead to the start of a heredoc, none is read. -/
theorem readHeredoc_of_unmarked {s : List Char}
    (h : startsHeredoc (Reader.skipAll (token (wordBefore leadStop)) s) = false) :
    readHeredoc s = none := by
  have hhead : readHead s = none := by
    rw [readHead, Option.bind_eq_none_iff]
    intro r hr
    change Reader.pattern Token.heredocStart (Reader.skipAll _ s) = some r at hr
    rw [readLabel, Option.bind_eq_none_iff]
    intro v hv
    cases r with
    | nil => cases hv
    | cons c r =>
      rw [pattern_heredocLabel] at hv
      split at hv
      · rename_i hc
        have hletter : 'A' ≤ c ∧ c ≤ 'Z' := by simpa using hc
        have hupper : c.isUpper = true := decide_eq_true hletter
        rcases pattern_heredocStart hr with heq | heq | heq <;>
          simp [heq, startsHeredoc, hupper] at h
      · cases hv
  rw [readHeredoc, hhead]
  rfl

theorem readHeredoc_local {line : List Char} (h : Local line) (below : List Char) :
    readHeredoc (line ++ '\n' :: below) = none := by
  have hstop : Tracks below below upToStop :=
    .scan (Tracks.anyTail.orElse (.pattern rfl))
  have hlead := hstop _ _ ⟨line, h, rfl, rfl⟩
  refine readHeredoc_of_unmarked ?_
  obtain ⟨m, hm, heq, _⟩ : LocalRest below below _ _ := by
    cases hlead with
    | some h => exact h
  rw [heq, startsHeredoc_newline]
  exact hm.unmarked m (List.suffix_refl m)

/-- A line is read alone: its shape and its text do not depend on what stands
below. -/
theorem readLine_local {line : List Char} (h : Local line) :
    ∃ shape, shape ≠ .heredocIntro ∧ ∀ below, readLine (line ++ '\n' :: below)
      = some (.whole shape (line ++ ['\n']), below) := by
  have hrel : ∀ below, Option.Rel (fun p q : LogicalLine × List Char =>
      ∃ shape, shape ≠ .heredocIntro ∧ p = (.whole shape (line ++ ['\n']), []) ∧
        q = (.whole shape (line ++ ['\n']), below))
      (readLine (line ++ ['\n'])) (readLine (line ++ '\n' :: below)) := by
    intro below
    refine rel_findSome? (fun shape => ?_) LineShape.all
    by_cases hshape : shape = .heredocIntro
    · subst hshape
      rw [readAs, readAs, readHeredoc_local h [], readHeredoc_local h below]
      exact .none
    · rw [readAs_of_ne hshape, readAs_of_ne hshape]
      refine rel_map (LocalRest.lineOf shape ⟨line, h, rfl, rfl⟩) ?_
      rintro _ _ _ _ ⟨rfl, rfl⟩
      refine ⟨shape, hshape, ?_, ?_⟩
      · rw [← List.append_nil (line ++ ['\n']), taken_append_self, List.append_nil]
      · rw [← List.singleton_append, ← List.append_assoc, taken_append_self]
  cases hline : readLine (line ++ ['\n']) with
  | none =>
    refine absurd ?_ (not_newline_of_not_readLine hline ?_ ?_)
    · simp
    · simpa using fun hq => (h.unquoted _ hq).2.1 rfl
    · simpa using fun hq => (h.unquoted _ hq).2.2 rfl
  | some p =>
    have hfirst := hrel []
    rw [hline] at hfirst
    obtain ⟨shape, hshape, rfl⟩ : ∃ shape, shape ≠ .heredocIntro ∧
        p = (.whole shape (line ++ ['\n']), []) := by
      cases hfirst with
      | some h =>
        obtain ⟨shape, hshape, hp, _⟩ := h
        exact ⟨shape, hshape, hp⟩
    refine ⟨shape, hshape, fun below => ?_⟩
    have hboth := hrel below
    rw [hline] at hboth
    generalize readLine (line ++ '\n' :: below) = q at hboth ⊢
    cases hboth with
    | some h =>
      obtain ⟨shape', _, hp, rfl⟩ := h
      cases hp
      rfl

end RubyIndent.Ruby

namespace RubyIndent.Document

open RubyIndent.Peg RubyIndent.Ruby RubyIndent.Text

def reindentFrom (depth : Int) (input : String) (config : Config) :
    Except Diagnostic String :=
  if config.imposeIndent then
    (run (State.start input.toList { unit := config.indentUnit, depth })).map
      fun s => s.context.output
  else .ok input

theorem reindentFrom_zero (input : String) (config : Config) :
    reindentFrom 0 input config = reindent input config :=
  rfl

/-! ## Writing from a depth on -/

/-- What is written for a line depends on the unit and the depth. -/
theorem fst_emit (l : LogicalLine) (i : Indenter) :
    (l.emit i).1 = (l.emit { unit := i.unit, depth := i.depth }).1 := by
  cases l with
  | whole shape text => cases shape <;> rfl
  | heredoc head body label opens => rfl

theorem output_writeAll_eq (ls : List LogicalLine) (i : Indenter) :
    (writeAll ls i).output
      = i.output ++ (writeAll ls { unit := i.unit, depth := i.depth }).output := by
  induction ls generalizing i with
  | nil => exact String.append_empty.symm
  | cons l ls ih =>
    rw [writeAll, writeAll, ih, ih (Indenter.push _ _)]
    simp only [Indenter.push, output_emit, unit_emit, depth_emit, ← fst_emit l i,
      String.empty_append, String.append_assoc]

/-- What a run adds to the output depends on the text that is left, the unit and the
depth. -/
theorem output_run_eq {src src' : List Char} {u : State Indenter src}
    {v : State Indenter src'} (hu : Ready u) (hv : Ready v)
    (hrest : u.cursor.rest = v.cursor.rest)
    (hcontext : v.context = { unit := u.context.unit, depth := u.context.depth }) :
    ((run u).map fun s => s.context.output).toOption
      = ((run v).map fun s => s.context.output).toOption.map
        (u.context.output ++ ·) := by
  have hrun := run_eq hu
  have hrun' := run_eq hv
  rw [hrest] at hrun
  cases hls : logicalLines v.cursor.rest with
  | none =>
    rw [hls] at hrun hrun'
    obtain ⟨d, hd⟩ := hrun
    obtain ⟨d', hd'⟩ := hrun'
    rw [hd, hd']
    rfl
  | some ls =>
    rw [hls] at hrun hrun'
    obtain ⟨t, ht, hwritten⟩ := hrun
    obtain ⟨t', ht', hwritten'⟩ := hrun'
    have hout := congrArg Indenter.output hwritten
    have hout' := congrArg Indenter.output hwritten'
    rw [output_writeAll_eq] at hout
    rw [hcontext] at hout'
    rw [ht, ht']
    exact congrArg some (hout.trans (congrArg _ hout'.symm))

/-! ## Local lines one by one -/

/-- One local line is written, alone and at the head of any text. -/
theorem exists_writesLine {line : List Char} (h : Local line) : ∃ l : LogicalLine,
    classify (String.ofList (line ++ ['\n'])) = some l.shape ∧
    ∀ {src : List Char} {u : State Indenter src} (below : List Char), Ready u →
      u.cursor.rest = line ++ '\n' :: below → ∃ w t, WritesLine u w t ∧
        w.shape = l.shape ∧ w.written = (l.emit (forget u.context)).1 ∧
        t.cursor.rest = below ∧ t.context.unit = u.context.unit ∧
        t.context.depth = u.context.depth + l.rise := by
  have hblanks : ∀ below : List Char, (line ++ '\n' :: below).dropWhile isSpacing
      = line.dropWhile isSpacing ++ '\n' :: below := by
    refine fun below => dropWhile_append_stop ?_ line
    rintro c hc
    rw [← Option.mem_some_iff.1 hc]
    rfl
  rw [← List.takeWhile_append_dropWhile (p := isSpacing) (l := line)] at h
  obtain ⟨shape, _, hread⟩ := readLine_local h.of_append
  refine ⟨.whole shape (line.dropWhile isSpacing ++ ['\n']), ?_,
    fun {src u} below hu hrest => ?_⟩
  · rw [classify_eq, String.toList_ofList, hblanks, hread]
    rfl
  · have hline := hread below
    rw [← hblanks, ← hrest] at hline
    have hround := round_of_ready hu
    rw [hline] at hround
    obtain ⟨value, hround⟩ := hround
    have hmore : (skipBlanks u).atEnd = false := by
      refine not_atEnd_skipBlanks hu ?_
      rw [hrest, hblanks]
      simp
    obtain ⟨log, hlog⟩ := exists_lineSteps (skipBlanks u)
    obtain ⟨labels, hwritten⟩ := hround.writes hu hlog
    have hwrites : WritesLine u _ _ :=
      .intro hmore hround.matched (hround.progress hline) hlog hwritten
    refine ⟨_, _, hwrites, rfl, ?_, hround.rest, ?_, ?_⟩
    · have hout := congrArg Indenter.output (hwrites.context hu)
      have hout' := congrArg Indenter.output hround.context
      rw [Indenter.push, output_emit] at hout'
      exact String.append_right_inj _ |>.1 (hout.symm.trans hout')
    · exact (congrArg Indenter.unit hround.context).trans (unit_emit _ _)
    · exact (congrArg Indenter.depth hround.context).trans (depth_emit _ _)

/-- Local lines are written in the same way wherever they stand: each has the shape
that it has alone, and where the depth and the unit are the same, what is written for
them is. -/
theorem exists_writes {text : List Char}
    (hend : text = [] ∨ text.getLast? = some '\n') (hdq : '\"' ∉ text)
    (hsq : '\'' ∉ text) (hheredoc : ∀ t, t <:+ text → startsHeredoc t = false)
    (unit : String) (depth : Int) :
    ∃ (lines : List (LineShape × String)) (final : Int),
      lines.map (fun l => some l.1)
        = (splitLines '\n' text).map (fun l => classify (String.ofList l)) ∧
      ∀ {src : List Char} {s u : State Indenter src} (before : List WrittenLine)
        (more : List Char), Ready s → Writes s before u →
        u.cursor.rest = text ++ more → u.context.unit = unit →
        u.context.depth = depth → ∃ ws t, Writes s (before ++ ws) t ∧
          ws.map (fun w => (w.shape, w.written)) = lines ∧
          t.cursor.rest = more ∧ t.context.unit = unit ∧
          t.context.depth = final := by
  induction text using lines_induction '\n' generalizing depth with
  | last line hline =>
    obtain rfl : line = [] :=
      hend.resolve_right fun hlast => hline (List.mem_of_getLast? hlast)
    refine ⟨[], depth, by rw [splitLines]; rfl,
      fun {src s u} before more hs h hrest hunit hdepth => ?_⟩
    exact ⟨[], u, by rwa [List.append_nil], rfl, hrest, hunit, hdepth⟩
  | cons line rest hline ih =>
    have hlocal : Local line := by
      refine ⟨fun c hc => ?_, fun t ht => ?_⟩
      · have hmem : c ∈ line ++ '\n' :: rest := List.mem_append_left _ hc
        exact ⟨fun h => hline (h ▸ hc), fun h => hdq (h ▸ hmem),
          fun h => hsq (h ▸ hmem)⟩
      · obtain ⟨m, rfl⟩ := ht
        rw [← startsHeredoc_newline t rest]
        exact hheredoc _ ⟨m, by simp⟩
    have hsuffix : rest <:+ line ++ '\n' :: rest := ⟨line ++ ['\n'], by simp⟩
    have hend' : rest = [] ∨ rest.getLast? = some '\n' := by
      rcases List.eq_nil_or_concat rest with hnil | ⟨init, c, rfl⟩
      · exact .inl hnil
      · have hsplit : line ++ '\n' :: init.concat c = (line ++ '\n' :: init) ++ [c] := by
          simp
        rw [hsplit, List.getLast?_concat] at hend
        exact .inr (by simpa using hend)
    obtain ⟨l, hclass, hfirst⟩ := exists_writesLine hlocal
    obtain ⟨lines, final, hshapes, hlines⟩ := ih hend'
      (fun h => hdq (hsuffix.subset h)) (fun h => hsq (hsuffix.subset h))
      (fun t ht => hheredoc t (ht.trans hsuffix)) (depth + l.rise)
    refine ⟨(l.shape, (l.emit { unit, depth }).1) :: lines, final, ?_, ?_⟩
    · rw [splitLines_cons_line hline, List.map_cons, List.map_cons, hclass, hshapes]
    · intro src s u before more hs h hrest hunit hdepth
      have hu := (h.starts.ready hs).1
      obtain ⟨w, v, hw, hshape, hwritten, hrest', hunit', hdepth'⟩ :=
        hfirst (rest ++ more) hu (by simpa using hrest)
      obtain ⟨ws, t, hws, hmap, ht⟩ := hlines _ more hs (h.snoc hw) hrest'
        (hunit'.trans hunit) (by rw [hdepth', hdepth])
      refine ⟨w :: ws, t, by simpa using hws, ?_, ht⟩
      have htext : w.written = (l.emit { unit, depth }).1 := by
        rw [hwritten, fst_emit, ← hunit, ← hdepth]
        rfl
      rw [List.map_cons, hmap, hshape, htext]

/-- Lines are local. Where a document starts with lines without quotes and without
starts of heredocs, and the last of them has its newline, these lines are accepted,
each has the shape that it has alone, and they are written in the same way whatever
stands below. What is below is reindented as a document of its own from the depth
behind these lines on, and it alone decides whether the whole is accepted. -/
theorem reindent_append (input : String)
    (hend : input = "" ∨ input.toList.getLast? = some '\n')
    (hdq : '\"' ∉ input.toList) (hsq : '\'' ∉ input.toList)
    (hheredoc : ∀ t ∈ input.toList.tails, startsHeredoc t = false)
    (config : Config) :
    let start (text : String) :=
      State.start text.toList { unit := config.indentUnit : Indenter }
    ∃ (output : String) (fin : State Indenter input.toList)
      (lines : List (LineShape × String)),
      reindent input config = .ok output ∧ run (start input) = .ok fin ∧
      lines.map (fun l => some l.1)
        = (splitLines '\n' input.toList).map (fun l => classify (String.ofList l)) ∧
      ∀ more : String,
        (∃ ws t, Writes (start (input ++ more)) ws t ∧
          ws.map (fun w => (w.shape, w.written)) = lines ∧
          t.cursor.rest = more.toList ∧ t.context.depth = fin.context.depth) ∧
        (reindent (input ++ more) config).toOption
          = (reindentFrom fin.context.depth more config).toOption.map (output ++ ·) ∧
        (fin.context.depth = 0 → (reindent (input ++ more) config).toOption
          = (reindent more config).toOption.map (output ++ ·)) := by
  intro start
  have hend' : input.toList = [] ∨ input.toList.getLast? = some '\n' :=
    hend.imp_left fun h => by rw [h]; rfl
  obtain ⟨lines, final, hshapes, hlines⟩ := exists_writes hend' hdq hsq
    (fun t ht => hheredoc t ((List.mem_tails t _).2 ht)) config.indentUnit 0
  have hready : ∀ text, Ready (start text) := fun text => ready_start _ _
  have houtput : ∀ {text : String} {ws t}, Writes (start text) ws t →
      ws.map (fun w => (w.shape, w.written)) = lines →
      t.context.output = String.join (lines.map (·.2)) := by
    intro text ws t hws hmap
    rw [hws.context.2.2, ← hmap, List.map_map]
    rfl
  obtain ⟨ws, t, hws, hmap, hrest, hunit, hdepth⟩ := hlines [] []
    (hready input) .nil (List.append_nil _).symm rfl rfl
  obtain ⟨ht, hsame⟩ := hws.starts.ready (hready input)
  have hrun : run (start input) = .ok (skipBlanks t) :=
    hsame.trans (run_eq_of_end ht (by rw [hrest]; rfl))
  have hfinal : (skipBlanks t).context.depth = final := by
    rw [(skipBlanks_of_ready ht).2.2, hdepth]
  let output := if config.imposeIndent then String.join (lines.map (·.2)) else input
  refine ⟨output, skipBlanks t, lines, ?_, hrun, hshapes, fun more => ?_⟩
  · rw [reindent, show run _ = _ from hrun]
    dsimp only [output]
    split
    · have hsame : (skipBlanks t).context = t.context := (skipBlanks_of_ready ht).2.2
      exact congrArg Except.ok ((congrArg Indenter.output hsame).trans (houtput hws hmap))
    · rfl
  · obtain ⟨ws', t', hws', hmap', hrest', hunit', hdepth'⟩ := hlines [] more.toList
      (hready (input ++ more)) .nil (String.toList_append ..) rfl rfl
    obtain ⟨ht', hsame'⟩ := hws'.starts.ready (hready (input ++ more))
    have hmore : (reindent (input ++ more) config).toOption
        = (reindentFrom final more config).toOption.map (output ++ ·) := by
      rw [reindent, reindentFrom]
      dsimp only [output]
      split
      · have hfrom := output_run_eq (v := .start more.toList
          { unit := config.indentUnit, depth := final }) ht' (ready_start _ _) hrest'
          (by rw [hunit', hdepth']; rfl)
        rw [houtput hws' hmap', ← hsame'] at hfrom
        exact hfrom
      · rfl
    refine ⟨⟨ws', t', hws', hmap', hrest', hdepth'.trans hfinal.symm⟩, ?_, ?_⟩
    · rw [hfinal]
      exact hmore
    · intro hzero
      rw [hmore, ← hfinal, hzero, reindentFrom_zero]

/-- Behind a closing line too many, a block is written as from depth minus one on. -/
theorem reindent_append_negative :
    (reindent "end\nif a\nb\nend\n" {}).toOption
      = (reindentFrom (-1) "if a\nb\nend\n" {}).toOption.map ("end\n" ++ ·) := by
  obtain ⟨output, fin, lines, houtput, hrun, _, happend⟩ :=
    reindent_append "end\n" (.inr (by decide)) (by decide) (by decide)
      (by decide) {}
  have hend : reindent "end\n" {} = .ok "end\n" :=
    reindent_of_writeAll rfl (by decide +kernel)
  have hdepth : (run (.start "end\n".toList { unit := "  " })).toOption.map
      (fun t => t.context.depth) = some (-1) := by decide +kernel
  have happend := (happend "if a\nb\nend\n").2.1
  cases hend.symm.trans houtput
  rw [hrun] at hdepth
  have hdepth : fin.context.depth = -1 := Option.some.inj hdepth
  rwa [hdepth] at happend

end RubyIndent.Document
