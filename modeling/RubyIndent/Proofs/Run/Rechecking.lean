import RubyIndent.Proofs.Run.Effects
import RubyIndent.Proofs.Run.Units

/-!
# Nothing is left to do

A document that was reindented is in order: a second time it comes out as it is,
under the configuration that its directive and the given one make up, which is the
same as before. So a check has nothing to say about a file that was just written,
and the files that it finds are those that would be written.
-/

namespace RubyIndent

open RubyIndent.CommandLine RubyIndent.Ruby RubyIndent.Text

/-! ## Counting lines -/

namespace Text

/-- Nothing, or whole lines. -/
def Ended (s : List Char) : Prop :=
  s = [] ∨ ∃ m, s = m ++ ['\n']

theorem ended_of_append_newline {s t : List Char} (h : Ended (s ++ '\n' :: t)) :
    Ended t := by
  rcases h with h | ⟨m, h⟩
  · simp at h
  · rcases List.eq_nil_or_concat' t with rfl | ⟨u, c, rfl⟩
    · exact .inl rfl
    · have happ : s ++ '\n' :: (u ++ [c]) = (s ++ '\n' :: u) ++ [c] := by simp
      rw [happ] at h
      obtain ⟨_, hc⟩ := List.append_inj' h rfl
      exact .inr ⟨u, by rw [hc]⟩

theorem Ended.append {s t : List Char} (hs : Ended s) (ht : Ended t) :
    Ended (s ++ t) := by
  rcases ht with rfl | ⟨m, rfl⟩
  · rwa [List.append_nil]
  · exact .inr ⟨s ++ m, (List.append_assoc s m _).symm⟩

theorem count_le_length_splitLines (s : List Char) :
    s.count '\n' ≤ (splitLines '\n' s).length := by
  induction s using lines_induction '\n' with
  | last line h =>
    rw [List.count_eq_zero.2 h]
    exact Nat.zero_le _
  | cons line rest h ih =>
    rw [splitLines_cons_line h, List.count_append, List.count_eq_zero.2 h,
      List.count_cons_self, List.length_cons]
    omega

theorem length_splitLines_le_count {s : List Char} (hs : Ended s) :
    (splitLines '\n' s).length ≤ s.count '\n' := by
  induction s using lines_induction '\n' with
  | last line h =>
    rcases hs with rfl | ⟨m, rfl⟩
    · rw [splitLines]
      exact Nat.le_refl 0
    · simp at h
  | cons line rest h ih =>
    have hrest := ih (ended_of_append_newline hs)
    rw [splitLines_cons_line h, List.count_append, List.count_eq_zero.2 h,
      List.count_cons_self, List.length_cons]
    omega

end Text

theorem countLines_toUTF8 (s : String) :
    countLines s.toUTF8 = (splitLines '\n' s.toList).length := by
  rw [countLines, splitLines_toUTF8, List.length_map]

/-! ## Reindenting twice -/

namespace Document

theorem Lays.count_eq {ls : List LogicalLine} {s t : List Char} (hs : Lays ls s)
    (ht : Lays ls t) : s.count '\n' = t.count '\n' := by
  induction hs generalizing t with
  | nil hb =>
    cases ht with
    | nil hb' => rw [hb.count_newline, hb'.count_newline]
  | @cons l _ _ _ _ _ hb hc hc' _ ih =>
    cases ht with
    | cons hb' hd hd' ht =>
      have hclosing : ∀ {b b' : List Char}, Blanks b → Blanks b' →
          (l.closingLine b b').count '\n' = (l.closingLine [] []).count '\n' := by
        intro b b' hb hb'
        cases l with
        | whole shape text => rfl
        | heredoc head body label opens =>
          simp only [LogicalLine.closingLine, List.count_append, hb.count_newline,
            hb'.count_newline, List.count_nil]
      simp only [List.count_append, hb.count_newline, hb'.count_newline,
        hclosing hc hc', hclosing hd hd', ih ht]

theorem ended_emit {l : LogicalLine} (hl : l.Proper) (i : Indenter) :
    Ended (l.emit i).1.toList := by
  obtain ⟨k, k', hemit, _⟩ := emit_eq l i
  obtain ⟨m, hm⟩ := hl.ended
  rw [hemit]
  cases l with
  | whole shape text =>
    refine .inr ⟨levels i.unit k ++ m, ?_⟩
    rw [hm, LogicalLine.closingLine]
    simp
  | heredoc head body label opens =>
    refine .inr ⟨levels i.unit k ++ (LogicalLine.kept (.heredoc head body label opens)
      ++ (levels i.unit k' ++ label.toList)), ?_⟩
    simp [LogicalLine.closingLine]

/-- What is written ends with a newline, if it is not empty. -/
theorem ended_writeAll {ls : List LogicalLine} (hls : ∀ l ∈ ls, l.Proper)
    {i : Indenter} (hi : Ended i.output.toList) :
    Ended (writeAll ls i).output.toList := by
  induction ls generalizing i with
  | nil => exact hi
  | cons l ls ih =>
    obtain ⟨hl, hls⟩ := List.forall_mem_cons.1 hls
    refine ih hls ?_
    rw [Indenter.push, String.toList_append, output_emit]
    exact hi.append (ended_emit hl i)

/-- What a document and its reindented form have in common. -/
structure Settled (c : Config) (input output : String) : Prop where
  again : reindent output c = .ok output
  directive : Directive.find? output.toUTF8 = Directive.find? input.toUTF8
  lines : countLines output.toUTF8 ≤ countLines input.toUTF8

/-- Reindenting a second time changes nothing, and the directive of the document
is still found. -/
theorem settled_of_reindent {input output : String} {c : Config}
    (hunit : Blanks c.indentUnit.toList) (h : reindent input c = .ok output) :
    Settled c input output := by
  by_cases himpose : c.imposeIndent = true
  · have hread := reindent_eq input himpose
    cases hls : logicalLines input.toList with
    | none =>
      rw [hls] at hread
      obtain ⟨d, hd⟩ := hread
      cases hd.symm.trans h
    | some ls =>
      rw [hls] at hread
      cases hread.symm.trans h
      obtain ⟨hlays, hproper⟩ := lays_of_logicalLines hls
      obtain ⟨t, hlays', ht⟩ := lays_writeAll ls { unit := c.indentUnit } hunit
      have hout : (writeAll ls { unit := c.indentUnit }).output.toList = t := ht
      refine ⟨?_, ?_, ?_⟩
      · -- The second run finds the lines of the first.
        have hagain := reindent_eq (writeAll ls { unit := c.indentUnit }).output
          himpose
        rwa [hout, logicalLines_of_lays hls hlays'] at hagain
      · rw [find?_toUTF8, find?_toUTF8, hout, hlays'.arguments_eq hproper hlays]
      · rw [countLines_toUTF8, countLines_toUTF8]
        calc _ ≤ _ := length_splitLines_le_count
                (ended_writeAll hproper (i := { unit := c.indentUnit }) (.inl rfl))
          _ = _ := by rw [hout, hlays'.count_eq hlays]
          _ ≤ _ := count_le_length_splitLines _
  · have hcopy : ∀ s, reindent s c = .ok s := fun s => if_neg himpose
    cases (hcopy input).symm.trans h
    exact ⟨h, rfl, Nat.le_refl _⟩

end Document

theorem ValidUnit.blanks {unit : String} (h : ValidUnit unit) :
    Blanks unit.toList := by
  intro c hc
  rcases h.blank c hc with rfl | rfl <;> rfl

/-! ## Contents and files -/

/-- Contents are reindented if they are a text, under the effective configuration. -/
theorem reindentBytes_eq_ok_iff {contents out : ByteArray} {config : Config}
    {name : String} : reindentBytes formatBytes contents config name = .ok out ↔
      ∃ config' source output, effectiveConfig config contents name = .ok config' ∧
        contents = source.toUTF8 ∧ reindent source config' = .ok output ∧
        out = output.toUTF8 := by
  constructor
  · intro h
    rw [reindentBytes] at h
    split at h
    · cases h
    rename_i config' heffective
    rw [formatBytes] at h
    split at h
    · cases h
    rename_i output hformat
    cases h
    split at hformat
    · cases hformat
    rename_i source hsource
    split at hformat
    · rename_i output hreindent
      cases hformat
      exact ⟨config', source, output, heffective,
        (toUTF8_of_fromUTF8? hsource).symm, hreindent, rfl⟩
    · cases hformat
  · rintro ⟨config', source, output, heffective, rfl, hreindent, rfl⟩
    rw [reindentBytes, heffective]
    dsimp only
    rw [formatBytes, fromUTF8?_toUTF8]
    dsimp only
    rw [hreindent]

/-- Contents that were reindented are in order. -/
theorem reindentBytes_settled {config : Config} (hvalid : config.problem? = none)
    {contents out : ByteArray} {name : String}
    (h : reindentBytes formatBytes contents config name = .ok out) :
    Directive.find? out = Directive.find? contents ∧
    reindentBytes formatBytes out config name = .ok out ∧
    countLines out ≤ countLines contents := by
  obtain ⟨config', source, output, heffective, rfl, hreindent, rfl⟩ :=
    reindentBytes_eq_ok_iff.1 h
  have hunit := validUnit_of_effectiveConfig (Config.problem?_eq_none_iff.1 hvalid)
    heffective
  have hsettled := Document.settled_of_reindent hunit.blanks hreindent
  have hagain : effectiveConfig config output.toUTF8 name = .ok config' := by
    rw [effectiveConfig] at heffective ⊢
    rwa [hsettled.directive]
  exact ⟨hsettled.directive, reindentBytes_eq_ok_iff.2
    ⟨config', output, output, hagain, rfl, hsettled.again, rfl⟩, hsettled.lines⟩

/-- A file does not get too many lines, but it may get too many bytes. -/
theorem skip?_eq_none {o : Options} {contents out : ByteArray}
    (h : o.skip? contents = none) (hlines : countLines out ≤ countLines contents)
    (hsize : out.size ≤ sizeLimit) : o.skip? out = none := by
  unfold Options.skip? at h ⊢
  rw [if_neg (Nat.not_lt.2 hsize)]
  split at h
  · cases h
  cases hlimit : o.maxLines with
  | none => rfl
  | some limit =>
    rw [hlimit] at h
    dsimp only at h ⊢
    split at h
    · cases h
    · rw [if_neg (by omega)]

/-- A check has nothing to say about contents that are in order. -/
theorem report_check_of_settled {o : Options} {p : Path} {contents : ByteArray}
    {config : Config} (hcheck : o.check = true)
    (h : reindentBytes formatBytes contents config p.text = .ok contents) :
    let r := report formatBytes o p contents config
    r.changed ≠ some true ∧ r.error = none ∧ r.output = .empty ∧
      (o.skip? contents = none → r.changed = some false) := by
  have hsame : differ contents contents = false := by simp [differ]
  cases hskip : o.skip? contents with
  | some skip =>
    rw [report_of_skip hskip]
    exact ⟨by simp, rfl, rfl, by simp⟩
  | none =>
    obtain ⟨_, hchanged, herror⟩ := report_of_ok hskip h
    rw [hsame] at hchanged
    refine ⟨by simp [hchanged], herror, ?_, fun _ => hchanged⟩
    unfold report
    rw [hskip, h]
    dsimp only
    rw [hsame, hcheck, if_pos rfl, if_neg Bool.false_ne_true]

namespace World

/-- A visit that writes leaves the file with the output, if there is one. -/
theorem file?_visit {w : World} {o : Options} {config : Config} {p : Path}
    {contents : ByteArray} (hcontents : w.file? p = some contents) (t : Tally) :
    (w.after (visit formatBytes o (some config) t p)).file? p
      = (w.reportFor formatBytes o (some config) p).replacement.or
        (some contents) := by
  obtain ⟨place, hplace, hfile⟩ := exists_place (w := w) (p := p)
    (by rw [hcontents]; rfl)
  obtain ⟨hshape, hfiles⟩ := after_perform hplace hfile o
    (w.reportFor formatBytes o (some config) p)
  rw [after_visit, file?_of_locate? ((hshape.locate? p).trans hplace), hfiles,
    if_pos rfl, ← file?_of_locate? hplace, hcontents]

/-- Reindenting settles a document: the directive that is found in the output is
that of the input, so the configuration is the same, and reindenting again changes
nothing. Hence a check finds exactly the files that would be written, and has
nothing to say about a file that was: it comes out as it is, unless it has grown so
much that it is passed over. -/
theorem reindenting_settles {config : Config} (hvalid : config.problem? = none) :
    (∀ contents out name, reindentBytes formatBytes contents config name = .ok out →
      Directive.find? out = Directive.find? contents ∧
      (∀ source, effectiveConfig config out source
        = effectiveConfig config contents source) ∧
      reindentBytes formatBytes out config name = .ok out) ∧
    ∀ (w : World) (o : Options) (p : Path) (contents : ByteArray) (t : Tally),
      w.file? p = some contents → o.writes →
      let check := { o with check := true }
      let w' := w.after (visit formatBytes o (some config) t p)
      ((w.reportFor formatBytes check (some config) p).changed = some true ↔
        w'.file? p ≠ w.file? p) ∧
      ∀ out, w'.file? p = some out → out ≠ contents →
        let r := w'.reportFor formatBytes check (some config) p
        r.changed ≠ some true ∧ r.error = none ∧ r.output = .empty ∧
        (out.size ≤ sizeLimit → r.changed = some false) := by
  refine ⟨fun contents out name h => ?_, ?_⟩
  · obtain ⟨hdirective, hagain, _⟩ := reindentBytes_settled hvalid h
    refine ⟨hdirective, fun source => ?_, hagain⟩
    rw [effectiveConfig, effectiveConfig, hdirective]
  · intro w o p contents t hcontents hwrites check w'
    have hafter : w'.file? p
        = (w.fate o (some config) p).output?.or (w.file? p) := by
      rw [file?_visit hcontents, (reportFor_tells hcontents).replacement,
        if_pos hwrites, hcontents]
    refine ⟨?_, fun out hout hne => ?_⟩
    · -- Checking does not change the fate of a file.
      have hfate : w.fate check (some config) p = w.fate o (some config) p := rfl
      rw [(reportFor_tells hcontents).changed, hafter, hfate, changed?_fate]
    · rw [hout, hcontents] at hafter
      cases houtput : (w.fate o (some config) p).output? with
      | none =>
        rw [houtput] at hafter
        cases hafter
        exact absurd rfl hne
      | some output =>
        rw [houtput] at hafter
        cases hafter
        obtain ⟨_, hconfig, hskip, hbytes⟩ := (output?_fate hcontents).1 houtput
        cases hconfig
        obtain ⟨_, hagain, hlines⟩ := reindentBytes_settled hvalid hbytes
        have hreport : w'.reportFor formatBytes check (some config) p
            = report formatBytes check p out config := by
          rw [reportFor, answer_examine hout]
          rfl
        rw [hreport]
        obtain ⟨hchanged, herror, houtput, hsame⟩ :=
          report_check_of_settled (o := check) rfl hagain
        exact ⟨hchanged, herror, houtput, fun hsize =>
          hsame (skip?_eq_none (o := check) hskip hlines hsize)⟩

/-- A directive that is moved itself is still found, and the check that comes after
the file was written says so. -/
theorem reindenting_settles_directive :
    let w := oneFile " # rbeautify: -t\n".toUTF8
    let w' := w.after (visit formatBytes {} (some {}) {} ⟨"a.rb"⟩)
    Directive.find? "# rbeautify: -t\n".toUTF8 = some { tabs := some true } ∧
    (w.reportFor formatBytes { check := true } (some {}) ⟨"a.rb"⟩).changed
      = some true ∧
    (w'.reportFor formatBytes { check := true } (some {}) ⟨"a.rb"⟩).changed
      = some false := by
  intro w w'
  have hbytes : reindentBytes formatBytes " # rbeautify: -t\n".toUTF8 {} "a.rb"
      = .ok "# rbeautify: -t\n".toUTF8 := Document.eq_ok_of_toOption (by decide +kernel)
  have houtput : (w.fate {} (some {}) ⟨"a.rb"⟩).output?
      = some "# rbeautify: -t\n".toUTF8 :=
    (output?_fate rfl).2 ⟨{}, rfl, rfl, hbytes⟩
  have hafter : w'.file? ⟨"a.rb"⟩ = some "# rbeautify: -t\n".toUTF8 := by
    rw [file?_visit rfl, (reportFor_tells rfl).replacement, houtput]
    rfl
  obtain ⟨hsettles, hcheck⟩ := reindenting_settles
    (show Config.problem? {} = none from rfl)
  obtain ⟨hfinds, hrecheck⟩ := hcheck w {} ⟨"a.rb"⟩ _ {} rfl rfl
  refine ⟨(hsettles _ _ _ hbytes).1.trans (by decide +kernel), hfinds.2 ?_,
    (hrecheck _ hafter (by decide)).2.2.2 (by decide)⟩
  rw [hafter]
  decide +kernel

end World

end RubyIndent
