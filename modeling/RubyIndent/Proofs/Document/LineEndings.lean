import RubyIndent.Proofs.Document.Locality
import RubyIndent.Proofs.Ruby.CarriageReturns

/-!
# Windows line endings

A document with a carriage return before every newline is not reindented like the
document without them. An opener at the end of a line is not followed by the newline
then, unless there is a comment in between, and no terminator of a heredoc is. So the
output is that of the document without carriage returns, read in such a way that
openers need a comment and there are no heredocs (`reindentCommented`), and it is the
expected one exactly if that reading makes no difference (`reindent_crlf`).
-/

namespace RubyIndent.Ruby

open RubyIndent.Peg RubyIndent.Text RubyIndent.Pattern

/-! ## Where the two readings agree -/

/-- An opener with only blanks between it and the newline. -/
def bareTail (opener : Reader) : Reader :=
  .next opener (.next spacing newline)

def anyBareTail : Reader :=
  .orElse (bareTail blockOpener) (bareTail (.pattern Token.openBracket))

theorem tail_of_not_bare {opener : Reader} {s : List Char}
    (h : bareTail opener s = none) : tail opener s = commentedTail opener s := by
  rw [bareTail, Reader.next] at h
  rw [tail, commentedTail, Reader.next, Reader.next]
  cases ho : opener s with
  | none => rfl
  | some t =>
    rw [ho, Option.bind_some, Reader.next, spacing, Option.bind_some] at h
    rw [Option.bind_some, Option.bind_some, Reader.next, Reader.next, spacing,
      Option.bind_some, Option.bind_some, Reader.next, Reader.next, Reader.optional,
      Option.bind_some]
    cases comment (t.dropWhile isSpacing) with
    | some u => rfl
    | none => simp [Reader.present, Reader.absent, h]

/-- Readers that agree on all parts of a text lead to the same place. -/
theorem skipAll_congr {f g : Reader} (hf : Cuts f) {s : List Char}
    (h : ∀ t, t <:+ s → f t = g t) : Reader.skipAll f s = Reader.skipAll g s := by
  fun_induction Reader.skipAll f s with
  | case1 s hs => rw [skipAll_none ((h s (List.suffix_refl s)).symm.trans hs)]
  | case2 s t hs hlt ih =>
    rw [skipAll_some ((h s (List.suffix_refl s)).symm.trans hs) hlt]
    exact ih fun u hu => h u (hu.trans (Takes.suffix hf hs))
  | case3 s t hs hle =>
    rw [Reader.skipAll, ← h s (List.suffix_refl s), hs]
    exact (if_neg hle).symm

/-- How a line is read depends on the tails at the places in it. -/
theorem lineWith_congr {tail tail' : Reader → Reader} {s : List Char}
    (hblock : ∀ t, t <:+ s → tail blockOpener t = tail' blockOpener t)
    (hbracket : ∀ t, t <:+ s → tail (.pattern Token.openBracket) t
      = tail' (.pattern Token.openBracket) t)
    (shape : LineShape) : lineWith tail shape s = lineWith tail' shape s := by
  have hany : ∀ t, t <:+ s → anyTailWith tail t = anyTailWith tail' t := by
    intro t ht
    rw [anyTailWith, anyTailWith, Reader.orElse, Reader.orElse, hblock t ht,
      hbracket t ht]
  have hstop : ∀ t, t <:+ s → leadStopWith tail t = leadStopWith tail' t := by
    intro t ht
    rw [leadStopWith, leadStopWith, Reader.orElse, Reader.orElse, hany t ht]
  have scan : ∀ stop stop' : Reader, (∀ t, t <:+ s → stop t = stop' t) →
      ∀ t, t <:+ s → Reader.skipAll (token (wordBefore stop)) t
        = Reader.skipAll (token (wordBefore stop')) t := by
    intro stop stop' hstop t ht
    refine skipAll_congr (cuts_token (cuts_wordBefore stop)) fun u hu => ?_
    simp only [token, Reader.orElse, wordBefore, Reader.next, Reader.absent,
      hstop u (hu.trans ht)]
  have tailed : ∀ opener, (∀ t, t <:+ s → tail opener t = tail' opener t) →
      Reader.next (.many (token (wordBefore (leadStopWith tail))))
        (.next (tail opener) newline) s
      = Reader.next (.many (token (wordBefore (leadStopWith tail'))))
        (.next (tail' opener) newline) s := by
    intro opener h
    have hend : Reader.skipAll (token (wordBefore (leadStopWith tail'))) s <:+ s :=
      Takes.suffix (Takes.many (cuts_token (cuts_wordBefore _))) rfl
    have hscan := scan _ _ hstop s (List.suffix_refl s)
    change (tail opener (Reader.skipAll _ s)).bind newline
      = (tail' opener (Reader.skipAll _ s)).bind newline
    rw [hscan, h _ hend]
  have opened : Reader.next (opening shape)
      (.next (.many (token (wordBefore (anyTailWith tail)))) newline) s
        = Reader.next (opening shape)
          (.next (.many (token (wordBefore (anyTailWith tail')))) newline) s := by
    rw [Reader.next, Reader.next]
    cases hs : opening shape s with
    | none => rfl
    | some t =>
      exact congrArg newline (scan _ _ hany t (Takes.suffix (cuts_opening shape) hs))
  cases shape
  case blockOpener => exact tailed _ hblock
  case bracketTail => exact tailed _ hbracket
  case heredocIntro | plain => rfl
  all_goals exact opened

/-- Without bare openers a line is read in the same way if openers need a comment. -/
theorem lineWith_of_not_bare {s : List Char}
    (h : ∀ t, t <:+ s → anyBareTail t = none) (shape : LineShape) :
    lineWith commentedTail shape s = lineOf shape s := by
  rw [← lineWith_tail]
  exact lineWith_congr
    (fun t ht => (tail_of_not_bare (Option.or_eq_none_iff.1 (h t ht)).1).symm)
    (fun t ht => (tail_of_not_bare (Option.or_eq_none_iff.1 (h t ht)).2).symm) shape

theorem readLine_of_not_bare {s : List Char}
    (hbare : ∀ t, t <:+ s → anyBareTail t = none)
    (hheredoc : ∀ t, t <:+ s → startsHeredoc t = false) :
    readLine s
      = (readLineWith commentedTail s).map fun p => (.whole p.1.1 p.1.2, p.2) := by
  rw [readLine, readLineWith, List.map_findSome?]
  congr 1
  funext shape
  rw [Function.comp_apply, lineWith_of_not_bare hbare]
  by_cases hshape : shape = .heredocIntro
  · subst hshape
    have hstop : Reader.skipAll (token (wordBefore leadStop)) s <:+ s :=
      Takes.suffix cuts_upToStop rfl
    rw [readAs, readHeredoc_of_unmarked (hheredoc _ hstop)]
    rfl
  · rw [readAs_of_ne hshape, Option.map_map]
    rfl

end RubyIndent.Ruby

namespace RubyIndent.Document

open RubyIndent.Peg RubyIndent.Ruby RubyIndent.Text

def withCr (s : String) : String :=
  String.ofList (crlf s.toList)

theorem withCr_append (s t : String) : withCr (s ++ t) = withCr s ++ withCr t := by
  rw [withCr, String.toList_append, crlf_append, String.ofList_append]
  rfl

theorem withCr_injective : Function.Injective withCr := by
  intro s t h
  have hlist := congrArg String.toList h
  rw [withCr, withCr, String.toList_ofList, String.toList_ofList] at hlist
  exact String.toList_injective (crlf_injective hlist)

/-! ## Lines -/

/-- The lines of a text with their shapes, where `tail` says when an opener ends a line,
and where there are no heredocs. -/
def linesWith (tail : Reader → Reader) (s : List Char) :
    Option (List (LineShape × List Char)) :=
  if s.dropWhile isSpacing = [] then some []
  else
    match readLineWith tail (s.dropWhile isSpacing) with
    | none => none
    | some (l, r) =>
      if r.length < s.length then (linesWith tail r).map (l :: ·) else none
termination_by s.length

theorem suffix_of_readLineWith {s r : List Char} {l : LineShape × List Char}
    (h : readLineWith commentedTail s = some (l, r)) : r <:+ s := by
  obtain ⟨shape, _, h⟩ := List.exists_of_findSome?_eq_some h
  obtain ⟨t, ht, heq⟩ := Option.map_eq_some_iff.1 h
  cases heq
  exact Takes.suffix (cuts_lineWith shape) ht

/-- Where every line of a text is read like a line of a second text, the texts have
the same lines, up to the way in which the one is written in the other. -/
theorem logicalLines_eq {φ : List Char → List Char} (hnil : ∀ s, φ s = [] ↔ s = [])
    (hblanks : ∀ s, (φ s).dropWhile isSpacing = φ (s.dropWhile isSpacing))
    {s : List Char} (hread : ∀ t, t <:+ s → readLine (φ t)
      = (readLineWith commentedTail t).map fun p => (.whole p.1.1 (φ p.1.2), φ p.2)) :
    logicalLines (φ s)
      = (linesWith commentedTail s).map (List.map fun p => .whole p.1 (φ p.2)) := by
  generalize hn : s.length = n
  induction n using Nat.strongRecOn generalizing s with
  | _ n ih =>
    have hdrop : s.dropWhile isSpacing <:+ s := List.dropWhile_suffix _
    have hline := hread _ hdrop
    rw [logicalLines, linesWith, hblanks]
    by_cases hend : s.dropWhile isSpacing = []
    · rw [if_pos ((hnil _).2 hend), if_pos hend]
      rfl
    · rw [if_neg fun h => hend ((hnil _).1 h), if_neg hend]
      cases hp : readLineWith commentedTail (s.dropWhile isSpacing) with
      | none =>
        rw [hline, hp]
        rfl
      | some p =>
        obtain ⟨l, r⟩ := p
        rw [hp] at hline
        have hsuffix := suffix_of_readLineWith hp
        have hshort := readLine_shortens hline
        -- A line takes something of both texts.
        have hlt : r.length < (s.dropWhile isSpacing).length := by
          refine Nat.lt_of_le_of_ne hsuffix.length_le fun heq => ?_
          rw [hsuffix.eq_of_length heq] at hshort
          exact Nat.lt_irrefl _ hshort
        have hlt' : (φ r).length < (φ s).length := by
          rw [← hblanks] at hshort
          exact Nat.lt_of_lt_of_le hshort (List.dropWhile_suffix _).length_le
        have hrest := Nat.lt_of_lt_of_le hlt hdrop.length_le
        have hlines := ih r.length (hn ▸ hrest)
          (fun t ht => hread t (ht.trans (hsuffix.trans hdrop))) rfl
        rw [hline, Option.map_some]
        dsimp only
        rw [if_pos hlt', if_pos hrest, hlines, Option.map_map, Option.map_map]
        rfl

/-- The lines of a text with carriage returns. -/
theorem logicalLines_crlf (s : List Char) : logicalLines (crlf s)
    = (linesWith commentedTail s).map (List.map fun p => .whole p.1 (crlf p.2)) := by
  refine logicalLines_eq (fun s => ⟨fun h => crlf_injective h, ?_⟩)
    (dropWhile_crlf rfl rfl) fun t _ => readLine_crlf t
  rintro rfl
  rfl

/-- The lines of a text without bare openers and heredocs. -/
theorem logicalLines_of_not_bare {s : List Char}
    (h : ∀ t, t <:+ s → anyBareTail t = none ∧ startsHeredoc t = false) :
    logicalLines s
      = (linesWith commentedTail s).map (List.map fun p => .whole p.1 p.2) :=
  logicalLines_eq (φ := id) (fun _ => Iff.rfl) (fun _ => rfl) fun _ ht =>
    readLine_of_not_bare (fun u hu => (h u (hu.trans ht)).1)
      fun u hu => (h u (hu.trans ht)).2

/-! ## Writing -/

theorem withCr_of_not_newline {s : String} (h : '\n' ∉ s.toList) : withCr s = s := by
  rw [withCr, crlf_of_not_newline h, String.ofList_toList]

/-- A line that holds a carriage return and a newline is blank. -/
theorem isBlankLine_withCr (s : String) :
    Indenter.isBlankLine (withCr s) = Indenter.isBlankLine s := by
  rw [Indenter.isBlankLine, withCr, String.toList_ofList, Indenter.isBlankLine]
  induction s.toList with
  | nil => rfl
  | cons c l ih =>
    by_cases hc : c = '\n'
    · subst hc
      simpa using ih
    · rw [crlf_cons hc, List.all_cons, List.all_cons, ih]

theorem render_withCr {i : Indenter} (hunit : Blanks i.unit.toList) (depth : Int)
    (s : String) : i.render depth (withCr s) = withCr (i.render depth s) := by
  rw [Indenter.render, Indenter.render, isBlankLine_withCr]
  split
  · rfl
  · have hindent : '\n' ∉ (i.indentation depth).toList := by
      rw [toList_indentation]
      exact (blanks_levels hunit _).not_newline
    rw [withCr_append, withCr_of_not_newline hindent]

/-- A line with carriage returns is written with them. -/
theorem emit_withCr {i : Indenter} (hunit : Blanks i.unit.toList) (shape : LineShape)
    (text : List Char) : ((LogicalLine.whole shape (crlf text)).emit i).1
      = withCr ((LogicalLine.whole shape text).emit i).1 := by
  obtain ⟨depth, hrender⟩ : ∃ depth, ∀ s, (emitAs shape s i).1 = i.render depth s := by
    cases shape <;> exact ⟨_, fun _ => rfl⟩
  rw [LogicalLine.emit, LogicalLine.emit, hrender, hrender, ← render_withCr hunit,
    withCr, String.toList_ofList]

theorem output_withCr {unit : String} (hunit : Blanks unit.toList)
    (ls : List (LineShape × List Char)) (depth : Int) :
    (writeAll (ls.map fun p => .whole p.1 (crlf p.2)) { unit, depth }).output
      = withCr (writeAll (ls.map fun p => .whole p.1 p.2) { unit, depth }).output := by
  induction ls generalizing depth with
  | nil => rfl
  | cons p ls ih =>
    rw [List.map_cons, List.map_cons, writeAll, writeAll, output_writeAll_eq,
      output_writeAll_eq (ls.map fun p => .whole p.1 p.2), withCr_append]
    simp only [Indenter.push, output_emit, unit_emit, depth_emit, String.empty_append]
    rw [emit_withCr hunit]
    exact congrArg _ (ih _)

/-! ## Documents -/

/-- Reindents a document, read in such a way that openers need a comment behind them
and there are no heredocs. -/
def reindentCommented (input : String) (config : Config) : Option String :=
  if config.imposeIndent then
    (linesWith commentedTail input.toList).map fun ls =>
      (writeAll (ls.map fun p => .whole p.1 p.2) { unit := config.indentUnit }).output
  else some input

theorem toOption_reindent (input : String) {config : Config}
    (himpose : config.imposeIndent = true) : (reindent input config).toOption
      = (logicalLines input.toList).map fun ls =>
        (writeAll ls { unit := config.indentUnit }).output := by
  have heq := reindent_eq input himpose
  cases hls : logicalLines input.toList with
  | none =>
    rw [hls] at heq
    obtain ⟨d, hd⟩ := heq
    rw [hd]
    rfl
  | some ls =>
    rw [hls] at heq
    dsimp only at heq
    rw [heq]
    rfl

theorem toOption_reindent_withCr (input : String) {config : Config}
    (hunit : Blanks config.indentUnit.toList) :
    (reindent (withCr input) config).toOption
      = (reindentCommented input config).map withCr := by
  rw [reindentCommented]
  split
  · rename_i himpose
    rw [toOption_reindent _ himpose, withCr, String.toList_ofList, logicalLines_crlf,
      Option.map_map, Option.map_map]
    exact congrArg (Option.map · _) (funext fun ls => output_withCr hunit ls 0)
  · rename_i himpose
    rw [reindent, if_neg himpose]
    rfl

theorem reindentCommented_of_not_bare {input : String}
    (h : ∀ t, t <:+ input.toList → anyBareTail t = none ∧ startsHeredoc t = false)
    (config : Config) :
    reindentCommented input config = (reindent input config).toOption := by
  rw [reindentCommented]
  split
  · rename_i himpose
    rw [toOption_reindent _ himpose, logicalLines_of_not_bare h, Option.map_map]
    rfl
  · rename_i himpose
    rw [reindent, if_neg himpose]
    rfl

/-- A document with carriage returns is reindented as the document without them in
which openers need a comment behind them and there are no heredocs. So it gives what
the document without them gives, with carriage returns, exactly if that document is
written in the same way when it is read so. This is the case if no opener in it is
followed by blanks and a newline and no heredoc starts in it. -/
theorem reindent_crlf (input : String) (config : Config)
    (hunit : Blanks config.indentUnit.toList) :
    (reindent (withCr input) config).toOption
      = (reindentCommented input config).map withCr ∧
    (∀ output, reindent input config = .ok output →
      (reindent (withCr input) config = .ok (withCr output) ↔
        reindentCommented input config = some output)) ∧
    ((∀ t ∈ input.toList.tails, anyBareTail t = none ∧ startsHeredoc t = false) →
      (reindent (withCr input) config).toOption
        = (reindent input config).toOption.map withCr) := by
  have heq := toOption_reindent_withCr input hunit
  refine ⟨heq, fun output _ => ⟨fun h => ?_, fun h => ?_⟩, fun h => ?_⟩
  · rw [h] at heq
    obtain ⟨out, hout, hsame⟩ := Option.map_eq_some_iff.1 heq.symm
    rw [hout, withCr_injective hsame]
  · refine eq_ok_of_toOption ?_
    rw [heq, h]
    rfl
  · rw [heq, reindentCommented_of_not_bare fun t ht => h t ((List.mem_tails t _).2 ht)]

/-- With a comment behind it, `do` opens its block on Windows too. -/
theorem reindent_crlf_comment :
    reindent "a do # b\r\nc\r\nend\r\n" {} = .ok "a do # b\r\n  c\r\nend\r\n" := by
  have hinput : withCr "a do # b\nc\nend\n" = "a do # b\r\nc\r\nend\r\n" := by
    decide +kernel
  have houtput : withCr "a do # b\n  c\nend\n" = "a do # b\r\n  c\r\nend\r\n" := by
    decide +kernel
  have h : reindent "a do # b\nc\nend\n" {} = .ok "a do # b\n  c\nend\n" :=
    reindent_of_writeAll rfl (by decide +kernel)
  have hcr := (reindent_crlf "a do # b\nc\nend\n" {} (by decide)).2.2
    (by decide +kernel)
  rw [hinput, h] at hcr
  rw [← houtput]
  exact eq_ok_of_toOption hcr

/-- Without a comment it opens none, and the line below is not moved. -/
theorem reindent_crlf_bare_opener :
    reindent "x do\ny\n" {} = .ok "x do\n  y\n" ∧
      withCr "x do\n  y\n" = "x do\r\n  y\r\n" ∧
      reindent (withCr "x do\ny\n") {} = .ok "x do\r\ny\r\n" :=
  ⟨reindent_of_writeAll rfl (by decide +kernel), by decide +kernel,
    reindent_of_writeAll rfl (by decide +kernel)⟩

end RubyIndent.Document
