import RubyIndent.Proofs.Document.Acceptance
import RubyIndent.Proofs.Run.Rechecking
import RubyIndent.Proofs.Text.Changes

/-!
# Showing the changes

The changes of a document are shown line by line, without line ends, and lines are
paired by number. Neither hides anything: a document and its reindented form have the
same lines but for blanks in front of and behind what stands in them (`Shifted`), so
no carriage return moves to the end of a line or away from it, and no line is lost,
except that blanks behind the last newline are dropped. Hence the changes are empty
only if the document does not change, and showing them and checking the document come
to the same (`changes_are_shown`).
-/

namespace RubyIndent

open RubyIndent.CommandLine RubyIndent.Ruby RubyIndent.Text

/-! ## Lines without their line ends -/

namespace Text

/-- A line without the carriage return at its end. -/
def stripReturn (line : List Char) : List Char :=
  if line.getLast? = some '\r' then line.dropLast else line

theorem stripLineEnd_newline (line : List Char) :
    stripLineEnd (line ++ ['\n']) = stripReturn line := by
  unfold stripLineEnd stripReturn
  rcases List.eq_nil_or_concat' line with rfl | ⟨m, c, rfl⟩
  · rfl
  · simp only [List.reverse_append, List.reverse_singleton, List.singleton_append,
      List.getLast?_append, List.getLast?_singleton, List.dropLast_concat]
    by_cases hc : c = '\r'
    · subst hc
      simp
    · simp [hc]

theorem stripLineEnd_of_not_mem {line : List Char} (h : '\n' ∉ line) :
    stripLineEnd line = line := by
  unfold stripLineEnd
  split
  · rename_i r hr
    exact absurd (List.mem_reverse.1 (hr ▸ List.mem_cons_self)) h
  · rename_i r _ hr
    exact absurd (List.mem_reverse.1 (hr ▸ List.mem_cons_self)) h
  · rfl

def bareLines (s : List Char) : List (List Char) :=
  (splitLines '\n' s).map stripLineEnd

theorem bareLines_nil : bareLines [] = [] := by
  rw [bareLines, splitLines]
  rfl

theorem bareLines_cons {line : List Char} (h : '\n' ∉ line) (rest : List Char) :
    bareLines (line ++ '\n' :: rest) = stripReturn line :: bareLines rest := by
  rw [bareLines, splitLines_cons_line h, List.map_cons, stripLineEnd_newline]
  rfl

theorem bareLines_last {line : List Char} (h : '\n' ∉ line) (hne : line ≠ []) :
    bareLines line = [line] := by
  rw [bareLines, splitLines_of_not_mem h hne, List.map_singleton,
    stripLineEnd_of_not_mem h]

theorem getD_lineTexts (s : String) (i : Nat) :
    (lineTexts s).getD i "" = String.ofList ((bareLines s.toList).getD i []) := by
  have hmap : lineTexts s = (bareLines s.toList).map String.ofList := by
    simp [lineTexts, bareLines]
  have hempty : "" = String.ofList [] := rfl
  rw [hmap, hempty, List.getD_map]

theorem length_lineTexts (s : String) :
    (lineTexts s).length = (bareLines s.toList).length := by
  simp [lineTexts, bareLines]

end Text

namespace Document

/-! ## Lines that differ in blanks -/

/-- Both lines end with a carriage return, or neither does. -/
def EndAlike (d o : List Char) : Prop :=
  d.getLast? = some '\r' ↔ o.getLast? = some '\r'

/-- Lines that end alike differ in what stands before the line end. -/
theorem EndAlike.eq {d o : List Char} (h : EndAlike d o)
    (hstrip : stripReturn d = stripReturn o) : d = o := by
  unfold stripReturn at hstrip
  by_cases hd : d.getLast? = some '\r'
  · have ho := h.1 hd
    rw [if_pos hd, if_pos ho] at hstrip
    rw [← List.dropLast_append_getLast? _ hd, hstrip,
      List.dropLast_append_getLast? _ ho]
  · rwa [if_neg hd, if_neg (mt h.2 hd)] at hstrip

theorem getLast?_ne_return {s : List Char} (h : '\r' ∉ s) :
    s.getLast? ≠ some '\r' :=
  fun hlast => h (List.mem_of_getLast? hlast)

theorem endAlike_of_not_mem {d o : List Char} (hd : '\r' ∉ d) (ho : '\r' ∉ o) :
    EndAlike d o :=
  iff_of_false (getLast?_ne_return hd) (getLast?_ne_return ho)

theorem not_return_of_blanks {b : List Char} (h : Blanks b) : '\r' ∉ b :=
  fun hmem => Bool.false_ne_true (h _ hmem)

/-- Other blanks in front of a line do not change how it ends. -/
theorem endAlike_indent {b b' : List Char} (hb : Blanks b) (hb' : Blanks b')
    (line : List Char) : EndAlike (b ++ line) (b' ++ line) := by
  rcases List.eq_nil_or_concat' line with rfl | ⟨m, c, rfl⟩
  · rw [List.append_nil, List.append_nil]
    exact endAlike_of_not_mem (not_return_of_blanks hb) (not_return_of_blanks hb')
  · unfold EndAlike
    simp

/-- Two texts with the same number of newlines, whose lines end alike; behind the
last newline both are blank. -/
inductive Shifted : List Char → List Char → Prop where
  | last {b b' : List Char} (hb : Blanks b) (hb' : Blanks b') : Shifted b b'
  | line {d o s t : List Char} (hd : '\n' ∉ d) (ho : '\n' ∉ o) (hend : EndAlike d o)
      (h : Shifted s t) : Shifted (d ++ '\n' :: s) (o ++ '\n' :: t)

theorem Shifted.copy {s t : List Char} (h : Shifted s t) (m : List Char) :
    Shifted (m ++ '\n' :: s) (m ++ '\n' :: t) := by
  induction m using lines_induction '\n' with
  | last line hline => exact .line hline hline Iff.rfl h
  | cons line rest hline ih =>
    rw [List.append_assoc, List.append_assoc]
    exact .line hline hline Iff.rfl ih

/-- A text whose first line gets other blanks in front. -/
theorem Shifted.indent {s t b b' : List Char} (h : Shifted s t) (hb : Blanks b)
    (hb' : Blanks b') (m : List Char) :
    Shifted (b ++ (m ++ '\n' :: s)) (b' ++ (m ++ '\n' :: t)) := by
  have first : ∀ line, '\n' ∉ line → ∀ {s t}, Shifted s t →
      Shifted (b ++ (line ++ '\n' :: s)) (b' ++ (line ++ '\n' :: t)) := by
    intro line hline s t h
    rw [← List.append_assoc, ← List.append_assoc]
    refine .line ?_ ?_ (endAlike_indent hb hb' line) h
    · simp [hb.not_newline, hline]
    · simp [hb'.not_newline, hline]
  by_cases hmem : '\n' ∈ m
  · obtain ⟨line, rest, rfl, hline⟩ := List.eq_append_cons_of_mem hmem
    rw [List.append_assoc, List.append_assoc]
    exact first line hline (h.copy rest)
  · exact first m hmem h

/-- The terminator of a heredoc gets other blanks around its label. -/
theorem Shifted.closing {s t c c' d d' label : List Char} (h : Shifted s t)
    (hlabel : IsLabel label) (hc : Blanks c) (hc' : Blanks c') (hd : Blanks d)
    (hd' : Blanks d') : Shifted (c ++ (label ++ (c' ++ '\n' :: s)))
      (d ++ (label ++ (d' ++ '\n' :: t))) := by
  have hnone : ∀ {b b' : List Char}, Blanks b → Blanks b' →
      '\n' ∉ b ++ (label ++ b') ∧ '\r' ∉ b ++ (label ++ b') := by
    intro b b' hb hb'
    have hreturn : '\r' ∉ label := fun hmem =>
      Bool.false_ne_true (hlabel.all _ hmem)
    simp [hb.not_newline, hlabel.not_newline, hb'.not_newline,
      not_return_of_blanks hb, not_return_of_blanks hb', hreturn]
  have hshift := Shifted.line (hnone hc hc').1 (hnone hd hd').1
    (endAlike_of_not_mem (hnone hc hc').2 (hnone hd hd').2) h
  simpa using hshift

/-- Texts that are made of the same logical lines. -/
theorem Lays.shifted {ls : List LogicalLine} (hls : ∀ l ∈ ls, l.Proper)
    {s t : List Char} (hs : Lays ls s) (ht : Lays ls t) : Shifted s t := by
  induction hs generalizing t with
  | nil hb =>
    cases ht with
    | nil hb' => exact .last hb hb'
  | @cons l _ _ _ _ _ hb hc hc' _ ih =>
    obtain ⟨hl, hls⟩ := List.forall_mem_cons.1 hls
    cases ht with
    | cons hb' hd hd' ht =>
      have hrest := ih hls ht
      obtain ⟨m, hm⟩ := hl.ended
      rw [hm]
      cases l with
      | whole shape text =>
        simpa [LogicalLine.closingLine] using hrest.indent hb hb' m
      | heredoc head body label opens =>
        have hlabel := hl.labelled head body label opens rfl
        have hclosing := hrest.closing hlabel hc hc' hd hd'
        simpa [LogicalLine.closingLine] using hclosing.indent hb hb' m

/-! ## Nothing is hidden -/

section

variable {s t : List Char}

theorem eq_nil_of_ended {b : List Char} (h : Ended b) (hb : Blanks b) :
    b = [] := by
  rcases h with rfl | ⟨m, rfl⟩
  · rfl
  · exact absurd (List.mem_append_right m List.mem_cons_self) hb.not_newline

/-- If no line differs without its line end, none differs at all. -/
theorem Shifted.eq_of_bareLines (h : Shifted s t) (ht : Ended t)
    (hsame : ∀ i, (bareLines s).getD i [] = (bareLines t).getD i []) : s = t := by
  induction h with
  | @last b b' hb hb' =>
    obtain rfl := eq_nil_of_ended ht hb'
    refine Decidable.byContradiction fun hne => ?_
    have hfirst := hsame 0
    rw [bareLines_last hb.not_newline hne, bareLines_nil] at hfirst
    exact hne hfirst
  | line hd ho hend _ ih =>
    rw [bareLines_cons hd, bareLines_cons ho] at hsame
    have hline := hend.eq (hsame 0)
    have hrest := ih (ended_of_append_newline ht) fun i => hsame (i + 1)
    rw [hline, hrest]

/-- A text has one line more than its reindented form if there are blanks behind its
last newline. -/
theorem Shifted.length_bareLines (h : Shifted s t) (ht : Ended t) :
    (bareLines s).length = (bareLines t).length ∨
      (bareLines s).length = (bareLines t).length + 1 ∧ lastLine s ≠ [] ∧
        Blanks (lastLine s) := by
  induction h with
  | @last b b' hb hb' =>
    obtain rfl := eq_nil_of_ended ht hb'
    by_cases hne : b = []
    · exact .inl (congrArg (fun s => (bareLines s).length) hne)
    · rw [bareLines_last hb.not_newline hne, bareLines_nil,
        lastLine_of_not_mem hb.not_newline]
      exact .inr ⟨rfl, hne, hb⟩
  | line hd ho _ _ ih =>
    rw [bareLines_cons hd, bareLines_cons ho, lastLine_newline]
    simp only [List.length_cons, Nat.add_right_cancel_iff]
    exact ih (ended_of_append_newline ht)

end

/-- A document and its reindented form. -/
theorem shifted_of_reindent {input output : String} {config : Config}
    (hunit : Blanks config.indentUnit.toList) (h : reindent input config = .ok output) :
    input = output ∨ Shifted input.toList output.toList ∧ Ended output.toList := by
  by_cases himpose : config.imposeIndent = true
  · right
    have hread := reindent_eq input himpose
    cases hls : logicalLines input.toList with
    | none =>
      rw [hls] at hread
      obtain ⟨d, hd⟩ := hread
      cases hd.symm.trans h
    | some ls =>
      rw [hls] at hread
      cases hread.symm.trans h
      obtain ⟨hlays, hproper⟩ := lays_of_logicalLines hls
      obtain ⟨t, hlays', ht⟩ := lays_writeAll ls { unit := config.indentUnit } hunit
      have hout : (writeAll ls { unit := config.indentUnit }).output.toList = t := ht
      refine ⟨?_, ended_writeAll hproper (.inl rfl)⟩
      rw [hout]
      exact hlays.shifted hproper hlays'
  · left
    have hcopy : reindent input config = .ok input := if_neg himpose
    cases hcopy.symm.trans h
    rfl

/-- The changes are empty only if nothing changes. -/
theorem changedLines_eq_nil_iff_eq {input output : String} {config : Config}
    (hunit : Blanks config.indentUnit.toList) (h : reindent input config = .ok output) :
    changedLines input output = [] ↔ input = output := by
  rw [changedLines_eq_nil_iff]
  constructor
  · intro hsame
    rcases shifted_of_reindent hunit h with heq | ⟨hshifted, hended⟩
    · exact heq
    · refine String.toList_inj.1 (hshifted.eq_of_bareLines hended fun i => ?_)
      have hi := hsame i
      rw [getD_lineTexts, getD_lineTexts] at hi
      exact String.ofList_injective hi
  · rintro rfl i
    rfl

/-- With the changes made, the lines of a document are those of its reindented
form. -/
theorem patched_of_reindent {input output : String} {config : Config}
    (hunit : Blanks config.indentUnit.toList) (h : reindent input config = .ok output) :
    let made := patched (changedLines input output) (lineTexts input)
    made = lineTexts output ∨ made = lineTexts output ++ [""] ∧
      lastLine input.toList ≠ [] ∧ Blanks (lastLine input.toList) := by
  intro made
  have hlength : (lineTexts input).length = (lineTexts output).length ∨
      (lineTexts input).length = (lineTexts output).length + 1 ∧
        lastLine input.toList ≠ [] ∧ Blanks (lastLine input.toList) := by
    rw [length_lineTexts, length_lineTexts]
    rcases shifted_of_reindent hunit h with rfl | ⟨hshifted, hended⟩
    · exact .inl rfl
    · exact hshifted.length_bareLines hended
  rcases hlength with hlength | ⟨hlength, hlast⟩
  · left
    have hmade := patched_changedLines (Nat.le_of_eq hlength.symm)
    rwa [hlength, Nat.sub_self, List.replicate_zero, List.append_nil] at hmade
  · right
    have hmade := patched_changedLines (hlength ▸ Nat.le_add_right _ 1)
    rw [hlength, Nat.add_sub_cancel_left] at hmade
    exact ⟨hmade, hlast⟩

end Document

/-! ## Reports -/

def CommandLine.Options.showing (o : Options) : Options :=
  { o with check := false, stdout := false, diff := true }

def CommandLine.Options.checking (o : Options) : Options :=
  { o with check := true }

theorem renderChange_ne_empty (c : LineChange) : renderChange c ≠ "" := by
  intro h
  have hlength := congrArg String.length h
  simp [renderChange, String.length_append] at hlength

theorem renderChanges_eq_empty_iff (o : Options) (name before after : String) :
    renderChanges o name before.toUTF8 after.toUTF8 = "" ↔
      changedLines before after = [] := by
  unfold renderChanges
  rw [fromUTF8?_toUTF8, fromUTF8?_toUTF8]
  dsimp only
  split
  · rename_i hnil
    exact iff_of_true rfl hnil
  · rename_i hne
    refine iff_of_false ?_ hne
    obtain ⟨c, cs, hcons⟩ := List.exists_cons_of_ne_nil hne
    rw [hcons, List.map_cons, String.join_cons]
    intro h
    simp only [String.append_eq_empty_iff] at h
    exact renderChange_ne_empty c h.2.1

theorem toUTF8_eq_empty_iff {s : String} : s.toUTF8 = .empty ↔ s = "" := by
  constructor
  · intro h
    exact String.toByteArray_inj.1 h
  · rintro rfl
    rfl

theorem note_ne_empty {o : Options} (h : o.silent = false) (line : String) :
    o.note line ≠ "" := by
  simp [Options.note, h]

/-- The effective unit is blank if the given one is: a directive is checked. -/
theorem blanks_of_effectiveConfig {config config' : Config} {contents : ByteArray}
    {source : String} (hunit : Blanks config.indentUnit.toList)
    (h : effectiveConfig config contents source = .ok config') :
    Blanks config'.indentUnit.toList := by
  rcases effectiveConfig_cases h with rfl | hproblem
  · exact hunit
  · exact (Config.problem?_eq_none_iff.1 hproblem).blanks

/-- What is shown of contents that were reindented is empty only if they do not
change. -/
theorem renderChanges_of_reindentBytes {contents output : ByteArray} {config : Config}
    {name : String} (hunit : Blanks config.indentUnit.toList)
    (h : reindentBytes formatBytes contents config name = .ok output) (o : Options) :
    (renderChanges o name contents output).toUTF8 ≠ .empty ↔
      differ output contents = true := by
  obtain ⟨config', source, written, heffective, rfl, hreindent, rfl⟩ :=
    reindentBytes_eq_ok_iff.1 h
  have hunit' := blanks_of_effectiveConfig hunit heffective
  rw [Ne, toUTF8_eq_empty_iff, renderChanges_eq_empty_iff,
    Document.changedLines_eq_nil_iff_eq hunit' hreindent, differ_iff]
  refine not_congr ⟨fun heq => heq ▸ rfl, fun heq => ?_⟩
  exact String.toByteArray_inj.1 heq.symm

/-- The report that shows the changes of a file and the one that checks it. -/
theorem report_showing {o : Options} {p : Path} {contents : ByteArray}
    {config : Config} (hunit : Blanks config.indentUnit.toList) :
    let shown := report formatBytes o.showing p contents config
    let checked := report formatBytes o.checking p contents config
    (shown.output ≠ .empty ↔ checked.changed = some true) ∧
      (o.silent = false →
        (checked.output ≠ .empty ↔ checked.changed = some true)) := by
  intro shown checked
  cases hskip : o.skip? contents with
  | some skip =>
    have hshown : shown = _ := report_of_skip hskip
    have hchecked : checked = _ := report_of_skip hskip
    rw [hshown, hchecked]
    simp
  | none =>
    cases hbytes : reindentBytes formatBytes contents config p.text with
    | error e =>
      obtain ⟨_, hshown⟩ := report_of_error (o := o.showing) hskip hbytes
      obtain ⟨_, hchecked⟩ := report_of_error (o := o.checking) hskip hbytes
      simp only [shown, checked, hshown, hchecked]
      simp
    | ok output =>
      have hchanged : checked.changed = some (differ output contents) :=
        (report_of_ok (o := o.checking) hskip hbytes).2.1
      have hshows : shown.output
          = (renderChanges o.showing p.text contents output).toUTF8 := by
        have hskip' : o.showing.skip? contents = none := hskip
        simp only [shown, report, hskip', hbytes]
        rfl
      have hchecks : checked.output = if differ output contents then
          (o.note ("would reindent: " ++ p.text)).toUTF8 else .empty := by
        have hskip' : o.checking.skip? contents = none := hskip
        simp only [checked, report, hskip', hbytes]
        cases differ output contents <;> rfl
      rw [hchanged, hshows, hchecks, Option.some.injEq]
      refine ⟨renderChanges_of_reindentBytes hunit hbytes _, fun hsilent => ?_⟩
      cases differ output contents with
      | false => simp
      | true =>
        rw [if_pos rfl, Ne, toUTF8_eq_empty_iff]
        exact iff_of_true (note_ne_empty hsilent _) rfl

/-- The same for standard input, where there may be no report. -/
theorem reportInput_showing {o : Options} {contents : ByteArray} {config : Config}
    (hunit : Blanks config.indentUnit.toList) :
    (∃ e, reportInput formatBytes o.showing contents config = .error e ∧
      reportInput formatBytes o.checking contents config = .error e) ∨
    ∃ shown checked,
      reportInput formatBytes o.showing contents config = .ok shown ∧
      reportInput formatBytes o.checking contents config = .ok checked ∧
      (shown.output ≠ .empty ↔ checked.changed = some true) := by
  by_cases hsize : contents.size > sizeLimit
  · left
    refine ⟨.largeInput, ?_, ?_⟩
    · rw [reportInput, if_pos hsize]
      rfl
    · rw [reportInput, if_pos hsize]
      rfl
  · cases hbytes : reindentBytes formatBytes contents config "stdin" with
    | error e =>
      left
      refine ⟨e, ?_, ?_⟩
      · rw [reportInput, if_neg hsize, hbytes]
        rfl
      · rw [reportInput, if_neg hsize, hbytes]
        rfl
    | ok output =>
      right
      have hchecked : ∃ checked,
          reportInput formatBytes o.checking contents config = .ok checked ∧
          checked.changed = some (differ output contents) := by
        rw [reportInput, if_neg hsize, hbytes]
        refine ⟨_, rfl, ?_⟩
        cases differ output contents <;> rfl
      have hshown : ∃ shown,
          reportInput formatBytes o.showing contents config = .ok shown ∧
          shown.output = (renderChanges o.showing "stdin" contents output).toUTF8 := by
        rw [reportInput, if_neg hsize, hbytes]
        exact ⟨_, rfl, rfl⟩
      obtain ⟨checked, hchecked, hchanged⟩ := hchecked
      obtain ⟨shown, hshown, hshows⟩ := hshown
      refine ⟨shown, checked, hshown, hchecked, ?_⟩
      rw [hchanged, hshows, Option.some.injEq]
      exact renderChanges_of_reindentBytes hunit hbytes _

/-- The changes of two texts are exactly the lines that differ, by number and with
what stands there. Those of a document and its reindented form are empty only if the
two are the same, whatever their line ends, so a run that shows the changes prints
something exactly where a check finds a change; and with the changes made, the lines
of the document are those of the reindented form, but for an empty one where there
were blanks behind the last newline. -/
theorem changes_are_shown :
    (∀ before after : String,
      ((changedLines before after).map LineChange.line).Pairwise (· < ·) ∧
      ∀ c, c ∈ changedLines before after ↔ 1 ≤ c.line ∧
        c.before = numberedLine before c.line ∧
        c.after = numberedLine after c.line ∧ c.before ≠ c.after) ∧
    (∀ (input output : String) (config : Config),
      Blanks config.indentUnit.toList → reindent input config = .ok output →
      (changedLines input output = [] ↔ input = output) ∧
      let made := patched (changedLines input output) (lineTexts input)
      (made = lineTexts output ∨ made = lineTexts output ++ [""] ∧
        lastLine input.toList ≠ [] ∧ Blanks (lastLine input.toList))) ∧
    ∀ (o : Options) (contents : ByteArray) (config : Config),
      Blanks config.indentUnit.toList →
      (∀ p, let shown := report formatBytes o.showing p contents config
        let checked := report formatBytes o.checking p contents config
        (shown.output ≠ .empty ↔ checked.changed = some true) ∧
        (o.silent = false →
          (checked.output ≠ .empty ↔ checked.changed = some true))) ∧
      ((∃ e, reportInput formatBytes o.showing contents config = .error e ∧
        reportInput formatBytes o.checking contents config = .error e) ∨
      ∃ shown checked,
        reportInput formatBytes o.showing contents config = .ok shown ∧
        reportInput formatBytes o.checking contents config = .ok checked ∧
        (shown.output ≠ .empty ↔ checked.changed = some true)) := by
  refine ⟨?_, ?_, ?_⟩
  · intro before after
    exact ⟨pairwise_changedLines before after, fun c => mem_changedLines⟩
  · intro input output config hunit h
    exact ⟨Document.changedLines_eq_nil_iff_eq hunit h,
      Document.patched_of_reindent hunit h⟩
  · intro o contents config hunit
    exact ⟨fun p => report_showing hunit, reportInput_showing hunit⟩

/-- A blank last line without a newline is dropped, and shown as a change; a carriage
return in front of a newline is not. -/
theorem changes_are_shown_blanks :
    changedLines " x\r\n\t" "x\r\n" ≠ [] ∧
      patched (changedLines " x\r\n\t" "x\r\n") (lineTexts " x\r\n\t")
        = ["x", ""] := by
  have h : reindent " x\r\n\t" {} = .ok "x\r\n" :=
    Document.eq_ok_of_toOption (by decide +kernel)
  obtain ⟨hempty, -⟩ := changes_are_shown.2.1 _ _ {} (by decide) h
  refine ⟨fun hnil => ?_, ?_⟩
  · exact absurd (hempty.1 hnil) (by decide)
  · cbv

end RubyIndent
