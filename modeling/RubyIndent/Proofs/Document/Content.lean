import RubyIndent.Proofs.Document.Run
import RubyIndent.Proofs.Ruby.Layout

/-!
# Reindenting keeps the content

The input and the output of a run have the same physical lines but for blanks,
and blanks change in few places only: in front of a line where the driver
starts a round, around the label of a terminator, and behind the last newline.
`Edit` names these changes, `Edit.Allowed` says where each may be made, and
`run_edited` that a run makes no others.
-/

namespace RubyIndent.Document

open RubyIndent.Peg RubyIndent.Ruby RubyIndent.Text

variable {src : List Char}

/-- What stands between the newlines of a text. -/
def physicalLines (s : List Char) : List (List Char) :=
  s.splitOn '\n'

/-! ## Changes to a line -/

/-- What becomes of a physical line. -/
inductive Edit where
  | copy
  /-- Other blanks in front. -/
  | indent (k : Nat)
  /-- Other blanks in front, and none behind. -/
  | align (k : Nat)
  | clear
  deriving DecidableEq, Repr

def Edit.apply (unit : String) : Edit → List Char → List Char
  | copy, line => line
  | indent k, line => levels unit k ++ line.dropWhile isSpacing
  | align k, line =>
    levels unit k ++ (Literal.trimBlanks (String.ofList line)).toList
  | clear, _ => []

/-- The place behind the line that a round reads. -/
def lineEnd (t : State Indenter src) : Cursor src :=
  (matchLine (skipBlanks t)).state.cursor

def lineText (t : State Indenter src) : List Char :=
  (skipBlanks t).cursor.upTo (lineEnd t)

/-- The line that a round reads is a heredoc. -/
def ReadsHeredoc (t : State Indenter src) : Prop :=
  MatchedAs .heredocIntro (skipBlanks t).cursor (matchLine (skipBlanks t)).state

/-- Where in the run from `s` on a change may be made to the physical line at a
given place of the text. -/
inductive Edit.Allowed (s : State Indenter src) (place : Nat)
    (line : List Char) : Edit → Prop where
  /-- Within a logical line, but not at the end of a heredoc. -/
  | copy {t} : LineAt s t → t.cursor.index < place →
    place + line.length < (lineEnd t).index →
    (ReadsHeredoc t → place + line.length + 1 < (lineEnd t).index) →
    Allowed s place line .copy
  /-- At the start of a logical line. -/
  | indent {t k} : LineAt s t → t.cursor.index = place →
    ((∀ c ∈ lineText t, c = '\n' ∨ c = '\r') → k = 0) →
    Allowed s place line (.indent k)
  /-- At the end of a heredoc. -/
  | align {t k} : LineAt s t → ReadsHeredoc t →
    place + line.length + 1 = (lineEnd t).index →
    Allowed s place line (.align k)
  /-- At the end of the text. -/
  | clear : place + line.length = src.length → Blanks line →
    Allowed s place line .clear

/-- The second lines are the first ones, which start at a given place, after
changes that are allowed in the run from `s` on. -/
inductive Edited (s : State Indenter src) (unit : String) :
    Nat → List (List Char) → List (List Char) → Prop where
  | nil {place} : Edited s unit place [] []
  | cons {place line lines lines'} {edit : Edit} :
    edit.Allowed s place line →
    Edited s unit (place + line.length + 1) lines lines' →
    Edited s unit place (line :: lines) (edit.apply unit line :: lines')

def extent : List (List Char) → Nat
  | [] => 0
  | line :: lines => line.length + 1 + extent lines

theorem Edited.append {s : State Indenter src} {unit : String} {place : Nat}
    {lines lines' more more' : List (List Char)}
    (h : Edited s unit place lines lines')
    (h' : Edited s unit (place + extent lines) more more') :
    Edited s unit place (lines ++ more) (lines' ++ more') := by
  induction h with
  | nil => exact h'
  | cons hallowed _ ih =>
    refine .cons hallowed (ih ?_)
    rw [extent, ← Nat.add_assoc, ← Nat.add_assoc] at h'
    exact h'

theorem Edited.length_eq {s : State Indenter src} {unit : String} {place : Nat}
    {lines lines' : List (List Char)} (h : Edited s unit place lines lines') :
    lines'.length = lines.length := by
  induction h with
  | nil => rfl
  | cons _ _ ih => exact congrArg Nat.succ ih

/-! ## Physical lines -/

theorem extent_physicalLines (s : List Char) :
    extent (physicalLines s) = s.length + 1 := by
  unfold physicalLines
  induction s with
  | nil => rfl
  | cons c s ih =>
    rw [List.splitOn_cons_eq_if_modifyHead]
    split
    · rw [extent, ih, List.length_nil, List.length_cons]
      omega
    · obtain ⟨l, ls, hls⟩ := List.exists_cons_of_ne_nil
        (List.splitOn_ne_nil '\n' s)
      rw [hls] at ih ⊢
      simp only [List.modifyHead_cons, extent, List.length_cons] at ih ⊢
      omega

theorem physicalLines_newline (s t : List Char) :
    physicalLines (s ++ '\n' :: t) = physicalLines s ++ physicalLines t :=
  List.splitOn_append_cons_self s t

theorem physicalLines_append {s : List Char} (h : '\n' ∉ s) (t : List Char) :
    physicalLines (s ++ t) = (physicalLines t).modifyHead (s ++ ·) := by
  induction s with
  | nil =>
    obtain ⟨l, ls, hls⟩ := List.exists_cons_of_ne_nil
      (List.splitOn_ne_nil '\n' t)
    rw [List.nil_append, physicalLines, hls]
    rfl
  | cons c s ih =>
    have hc : c ≠ '\n' := fun heq => h (heq ▸ List.mem_cons_self)
    rw [List.cons_append, physicalLines, List.splitOn_cons_eq_if_modifyHead,
      if_neg (by simpa using hc)]
    have := ih fun hmem => h (List.mem_cons_of_mem c hmem)
    rw [physicalLines] at this
    rw [this, List.modifyHead_modifyHead]
    rfl

/-- A first physical line starts as the text does. -/
theorem flush_of_physicalLines {s line : List Char} {lines : List (List Char)}
    (h : physicalLines s = line :: lines) (hs : Flush s) : Flush line := by
  cases s with
  | nil =>
    cases h
    exact hs
  | cons c s =>
    rw [physicalLines, List.splitOn_cons_eq_if_modifyHead] at h
    split at h
    · cases h
      exact fun _ h => nomatch h
    · obtain ⟨l, ls, hls⟩ := List.exists_cons_of_ne_nil
        (List.splitOn_ne_nil '\n' s)
      rw [hls] at h
      cases h
      rintro _ ⟨⟩
      exact hs c rfl

/-! ## One round -/

theorem Round.readsHeredoc_iff {t : State Indenter src} {l : LogicalLine}
    {r : List Char} {value : Value (Cursor src)} (h : Round t l r value) :
    ReadsHeredoc t ↔ l.shape = .heredocIntro := by
  constructor
  · rintro ⟨w, hw⟩
    exact h.other.resolve_right fun hunmatched => hunmatched _ w hw
  · intro hshape
    have hmatched := h.shape
    rwa [hshape] at hmatched

/-- Lines that are followed by `n` more characters of the logical line. -/
theorem Edited.copies {s t : State Indenter src} {unit : String}
    {place n : Nat} {lines : List (List Char)} (ht : LineAt s t)
    (hstart : t.cursor.index < place)
    (hend : place + extent lines + n = (lineEnd t).index)
    (hheredoc : ReadsHeredoc t → 0 < n) : Edited s unit place lines lines := by
  induction lines generalizing place with
  | nil => exact .nil
  | cons line lines ih =>
    rw [extent] at hend
    refine .cons (.copy ht hstart (by omega) fun h => ?_) (ih (by omega) ?_)
    · have hn := hheredoc h
      omega
    · omega

/-- The physical lines of what is kept of a logical line: the first one starts
behind the blanks, and the others are whole. -/
theorem lines_of_proper {l : LogicalLine} (hl : l.Proper) : ∃ first others,
    Flush first ∧ l.kept.length = first.length + 1 + extent others ∧
    ∀ {b : List Char} (z : List Char), Blanks b →
      physicalLines (b ++ (l.kept ++ z))
        = (b ++ first) :: (others ++ physicalLines z) := by
  obtain ⟨m, hm⟩ := hl.ended
  obtain ⟨first, others, hlines⟩ := List.exists_cons_of_ne_nil
    (List.splitOn_ne_nil '\n' m)
  refine ⟨first, others, ?_, ?_, ?_⟩
  · refine flush_of_physicalLines hlines fun c hc => hl.flush c ?_
    rw [hm]
    cases m with
    | nil => cases hc
    | cons d m => exact hc
  · have hextent := extent_physicalLines m
    rw [physicalLines, hlines, extent] at hextent
    rw [hm, List.length_append, List.length_singleton, hextent]
  · intro b z hb
    have happ : b ++ (l.kept ++ z) = b ++ m ++ '\n' :: z := by simp [hm]
    rw [happ, physicalLines_newline, physicalLines_append hb.not_newline]
    rw [physicalLines, hlines]
    rfl

theorem physicalLines_label {label b b' : List Char} (hlabel : IsLabel label)
    (hb : Blanks b) (hb' : Blanks b') (z : List Char) :
    physicalLines (b ++ (label ++ (b' ++ ['\n'])) ++ z)
      = (b ++ (label ++ b')) :: physicalLines z := by
  have hnot : '\n' ∉ b ++ (label ++ b') := by
    simp [hb.not_newline, hlabel.not_newline, hb'.not_newline]
  have happ : b ++ (label ++ (b' ++ ['\n'])) ++ z
      = b ++ (label ++ b') ++ '\n' :: z := by simp
  rw [happ, physicalLines]
  exact List.splitOn_append_cons_self_of_not_mem hnot z

/-- What follows the part that is kept: the terminator of a heredoc, and then
the rest of the text. -/
theorem edited_closingLine {s t : State Indenter src} {unit : String}
    {l : LogicalLine} {b b' r r' : List Char} {k place : Nat}
    (hunit : Blanks unit.toList) (ht : LineAt s t) (hl : l.Proper)
    (hheredoc : ReadsHeredoc t ↔ l.shape = .heredocIntro)
    (hb : Blanks b) (hb' : Blanks b')
    (hplace : place + (l.closingLine b b').length = (lineEnd t).index)
    (hrest : Edited s unit (lineEnd t).index (physicalLines r)
      (physicalLines r')) :
    Edited s unit place (physicalLines (l.closingLine b b' ++ r))
      (physicalLines (l.closingLine (levels unit k) [] ++ r')) := by
  cases l with
  | whole shape text =>
    simp only [LogicalLine.closingLine, List.length_nil, Nat.add_zero,
      List.nil_append] at hplace ⊢
    rw [hplace]
    exact hrest
  | heredoc head body label opens =>
    have hlabel := hl.labelled head body label opens rfl
    have halign : (Edit.align k).apply unit (b ++ (label.toList ++ b'))
        = levels unit k ++ (label.toList ++ []) := by
      rw [Edit.apply, trimBlanks_blanks hb hb' hlabel.flush.1 hlabel.flush.2,
        String.toList_ofList, List.append_nil]
    simp only [LogicalLine.closingLine, List.length_append,
      List.length_singleton] at hplace
    have hnext : place + (b ++ (label.toList ++ b')).length + 1
        = (lineEnd t).index := by
      simp only [List.length_append]
      omega
    rw [LogicalLine.closingLine, LogicalLine.closingLine,
      physicalLines_label hlabel hb hb',
      physicalLines_label hlabel (blanks_levels hunit k) blanks_nil, ← halign]
    refine .cons (.align ht (hheredoc.2 rfl) hnext) ?_
    rw [hnext]
    exact hrest

/-- The lines of a logical line and of what is written for it. -/
theorem edited_of_line {s t : State Indenter src} {unit : String}
    {l : LogicalLine} {b₀ b b' r r' : List Char} {k k' : Nat}
    (hunit : Blanks unit.toList) (ht : LineAt s t) (hl : l.Proper)
    (hheredoc : ReadsHeredoc t ↔ l.shape = .heredocIntro)
    (hb₀ : Blanks b₀) (hb : Blanks b) (hb' : Blanks b')
    (htext : lineText t = l.kept ++ l.closingLine b b')
    (hend : (lineEnd t).index = t.cursor.index + b₀.length
      + (l.kept ++ l.closingLine b b').length)
    (hblank : (∀ c ∈ l.kept, c = '\n' ∨ c = '\r') → k = 0)
    (hrest : Edited s unit (lineEnd t).index (physicalLines r)
      (physicalLines r')) :
    Edited s unit t.cursor.index
      (physicalLines (b₀ ++ (l.kept ++ (l.closingLine b b' ++ r))))
      (physicalLines (levels unit k ++
        (l.kept ++ (l.closingLine (levels unit k') [] ++ r')))) := by
  obtain ⟨first, others, hflush, hlength, hlines⟩ := lines_of_proper hl
  have hindent : (Edit.indent k).apply unit (b₀ ++ first)
      = levels unit k ++ first := by
    rw [Edit.apply, dropWhile_blanks hb₀ hflush]
  rw [hlines _ hb₀, hlines _ (blanks_levels hunit k), ← hindent]
  rw [List.length_append, hlength] at hend
  have hplace : t.cursor.index + (b₀ ++ first).length + 1 + extent others
      + (l.closingLine b b').length = (lineEnd t).index := by
    rw [List.length_append]
    omega
  -- The first line gets other blanks, the others are copied.
  refine .cons (.indent ht rfl fun h => hblank fun c hc => h c ?_)
    (Edited.append (.copies ht ?_ hplace fun h => ?_)
      (edited_closingLine hunit ht hl hheredoc hb hb' hplace hrest))
  · rw [htext]
    exact List.mem_append_left _ hc
  · rw [List.length_append]
    omega
  · cases l with
    | whole shape text => exact absurd (hheredoc.1 h) (hl.shape_ne _ _ rfl)
    | heredoc head body label opens =>
      simp only [LogicalLine.closingLine, List.length_append,
        List.length_singleton]
      omega

/-! ## The whole run -/

/-- What a round does, seen from the texts before and after it. -/
theorem round_layout {t : State Indenter src} {l : LogicalLine} {r : List Char}
    {value : Value (Cursor src)} (ht : Ready t) (hround : Round t l r value)
    (hline : readLine (t.cursor.rest.dropWhile isSpacing) = some (l, r)) :
    l.Proper ∧ ∃ b b' k k', Blanks b ∧ Blanks b' ∧
      lineText t = l.kept ++ l.closingLine b b' ∧
      t.cursor.rest = t.cursor.rest.takeWhile isSpacing
        ++ (l.kept ++ (l.closingLine b b' ++ r)) ∧
      (afterRound t value).context.output.toList = t.context.output.toList
        ++ (levels t.context.unit k ++
          (l.kept ++ l.closingLine (levels t.context.unit k') [])) ∧
      ((∀ c ∈ l.kept, c = '\n' ∨ c = '\r') → k = 0) := by
  obtain ⟨hl, b, b', hb, hb', htext⟩ :=
    readLine_eq_some hline (flush_dropWhile t.cursor.rest)
  obtain ⟨k, k', hemit, hblank⟩ := emit_eq l (forget t.context)
  refine ⟨hl, b, b', k, k', hb, hb', ?_, ?_, ?_, hblank⟩
  · have hend : (lineEnd t).rest = r := hround.rest
    rw [lineText, upTo_eq_taken, (skipBlanks_of_ready ht).2.1, hend, htext,
      ← List.append_assoc, taken_append_self]
  · rw [← htext, List.takeWhile_append_dropWhile]
  · have hout : (afterRound t value).context.output
        = (l.emit (forget t.context)).2.output
          ++ (l.emit (forget t.context)).1 :=
      congrArg Indenter.output hround.context
    rw [hout, String.toList_append, hemit, output_emit]
    rfl

theorem unit_afterRound {t : State Indenter src} {l : LogicalLine}
    {r : List Char} {value : Value (Cursor src)} (hround : Round t l r value) :
    (afterRound t value).context.unit = t.context.unit :=
  (congrArg Indenter.unit hround.context).trans (unit_emit l _)

/-- A run adds to the output what is left of the text, with allowed
changes. -/
theorem run_edited {s t fin : State Indenter src}
    (hunit : Blanks t.context.unit.toList) (hs : StartsRound s t)
    (ht : Ready t) (hrun : run t = .ok fin) : ∃ out,
      fin.context.output.toList = t.context.output.toList ++ out ∧
      Edited s t.context.unit t.cursor.index (physicalLines t.cursor.rest)
        (physicalLines out) := by
  generalize hn : t.cursor.rest.length = n
  induction n using Nat.strongRecOn generalizing t with
  | _ n ih =>
    -- Each round takes something, so what is left of the text gets shorter.
    have hindex := t.cursor.index_add_length_rest
    by_cases hend : t.cursor.rest.dropWhile isSpacing = []
    · have hblank : Blanks t.cursor.rest := List.dropWhile_eq_nil_iff.1 hend
      cases (run_eq_of_end ht hend).symm.trans hrun
      refine ⟨[], ?_, ?_⟩
      · rw [(skipBlanks_of_ready ht).2.2, List.append_nil]
      · have hone : physicalLines t.cursor.rest = [t.cursor.rest] :=
          List.splitOn_eq_singleton hblank.not_newline
        rw [hone]
        have hclear : Edit.clear.Allowed s t.cursor.index t.cursor.rest :=
          .clear hindex hblank
        exact .cons hclear .nil
    · have hround := round_of_ready ht
      cases hline : readLine (t.cursor.rest.dropWhile isSpacing) with
      | none =>
        obtain ⟨d, hd⟩ := run_eq_of_none ht hend hline
        cases hd.symm.trans hrun
      | some p =>
        obtain ⟨l, r⟩ := p
        rw [hline] at hround
        obtain ⟨value, hround⟩ := hround
        obtain ⟨hl, b, b', k, k', hb, hb', htext, hrest, hout, hblank⟩ :=
          round_layout ht hround hline
        have hmore := not_atEnd_skipBlanks ht hend
        have hprogress := hround.progress hline
        have hnext := hs.next hmore hround.matched hprogress
        rw [run_eq_of_round ht hend hround hline] at hrun
        have hlt : (afterRound t value).cursor.rest.length
            < t.cursor.rest.length := Cursor.length_rest_lt hprogress
        have hunit' := unit_afterRound hround
        obtain ⟨out, hfin, hedited⟩ := ih _ (hn ▸ hlt) (hunit' ▸ hunit) hnext
          hround.ready hrun rfl
        rw [hunit', hround.rest] at hedited
        refine ⟨levels t.context.unit k ++ (l.kept
          ++ (l.closingLine (levels t.context.unit k') [] ++ out)), ?_, ?_⟩
        · rw [hfin, hout]
          simp only [List.append_assoc]
        · rw [hrest]
          refine edited_of_line hunit ⟨hs, hmore⟩ hl hround.readsHeredoc_iff
            (blanks_takeWhile _) hb hb' htext ?_ hblank hedited
          have hlen := congrArg List.length hrest
          have hafter := (lineEnd t).index_add_length_rest
          have hr : (lineEnd t).rest = r := hround.rest
          rw [hr] at hafter
          simp only [List.length_append] at hlen ⊢
          omega

/-- Reindenting keeps the content. Of the physical lines of a document, those
that start a logical line get other blanks in front, those that end a heredoc
get other blanks around the label, what follows the last newline must be blank
and is dropped, and all others are copied. In particular a logical line is
written as it stands, the terminator of a heredoc excepted. -/
theorem reindent_keeps_content {input output : String} {config : Config}
    (himpose : config.imposeIndent = true)
    (hunit : Blanks config.indentUnit.toList)
    (h : reindent input config = .ok output) :
    let start := State.start input.toList { unit := config.indentUnit }
    Edited start config.indentUnit 0 (physicalLines input.toList)
      (physicalLines output.toList) ∧
    (physicalLines output.toList).length
      = (physicalLines input.toList).length ∧
    ∀ t, LineAt start t → ∃ kept last, lineText t = kept ++ last ∧
      kept <:+: output.toList ∧
      (last = [] ∨ ReadsHeredoc t ∧ ∃ line, '\n' ∉ line ∧
        last = line ++ ['\n']) := by
  intro start
  have hready : Ready start := ready_start _ _
  obtain ⟨fin, hrun, rfl⟩ := run_of_reindent himpose h
  obtain ⟨out, hout, hedited⟩ := run_edited hunit .first hready hrun
  have hall : fin.context.output.toList = out := hout
  rw [hall]
  refine ⟨hedited, hedited.length_eq, fun t ht => ?_⟩
  obtain ⟨l, r, value, hline, hround, hready', hrun'⟩ := ht.round hready hrun
  obtain ⟨hl, b, b', k, k', hb, hb', htext, _, hwritten, _⟩ :=
    round_layout hready' hround hline
  refine ⟨l.kept, l.closingLine b b', htext, ?_, ?_⟩
  · obtain ⟨more, hmore⟩ := run_ok_output hround.ready hrun'
    rw [← hall, hmore, String.toList_append, hwritten]
    exact ⟨t.context.output.toList ++ levels t.context.unit k,
      l.closingLine (levels t.context.unit k') [] ++ more.toList, by simp⟩
  · cases l with
    | whole shape text => exact .inl rfl
    | heredoc head body label opens =>
      have hlabel := hl.labelled head body label opens rfl
      refine .inr ⟨hround.shape, b ++ (label.toList ++ b'), ?_, ?_⟩
      · simp [hb.not_newline, hlabel.not_newline, hb'.not_newline]
      · simp [LogicalLine.closingLine]

/-- A heredoc: its introducing line stays, its body is copied, and its terminator
is aligned with the introducing line. -/
theorem reindent_keeps_content_heredoc :
    Edited (State.start "<<A\n b\n A\n".toList { unit := "  " : Indenter }) "  "
      0 (physicalLines "<<A\n b\n A\n".toList)
      (physicalLines "<<A\n b\nA\n".toList) := by
  have h : reindent "<<A\n b\n A\n" {} = .ok "<<A\n b\nA\n" :=
    eq_ok_of_toOption (by decide +kernel)
  exact (reindent_keeps_content rfl (by decide) h).1

end RubyIndent.Document
