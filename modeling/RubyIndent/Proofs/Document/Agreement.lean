import RubyIndent.Proofs.Document.Classification
import RubyIndent.Proofs.Document.HeredocExtent

/-!
# Classifying a line and writing it

There are two ways to find the shape of a line. `classify` applies the rules of the
shapes one after the other, each from the state in which the one before failed; the
driver applies the line rule, which tries them within one choice and goes back
between them. A shape that fails leaves nothing behind but its entry in the table and
perhaps a label, so both take the same shape and end at the same place
(`classify_agrees`), and the entries of the shapes before it are failures
(`shapes_fail`).
-/

namespace RubyIndent.Ruby

open RubyIndent.Peg RubyIndent.Text RubyIndent.Pattern

variable {src : List Char}

/-! ## Shapes that fail -/

def FailedAs (shape : LineShape) (c : Cursor src) (t : State Indenter src) : Prop :=
  t.memo.outcome? ((Sym.shape shape).id, c) = some .failure

/-- Looking for some shapes leaves the entries of the others alone. -/
theorem outcome?_other_shapes {shapes : List LineShape} {other : LineShape}
    (hother : other ∉ shapes) {s t : State Indenter src}
    {v : Option (Value (Cursor src))}
    (he : Evaluates grammar
      (.first (shapes.map fun shape => (Sym.shape shape).ref)) s v t)
    (c : Cursor src) :
    t.memo.outcome? ((Sym.shape other).id, c)
      = s.memo.outcome? ((Sym.shape other).id, c) := by
  induction shapes generalizing s with
  | nil =>
    cases he
    rfl
  | cons shape shapes ih =>
    have hne : other ≠ shape := fun h => hother (h ▸ List.mem_cons_self)
    cases he with
    | first_some h =>
      cases h with
      | rule h => exact outcome?_other_shape hne h c
    | first_none h hrest =>
      cases h with
      | rule h =>
        have hrest := ih (fun h => hother (List.mem_cons_of_mem _ h)) hrest
        exact hrest.trans (outcome?_other_shape hne h c)

/-- Where shapes are looked for in order and one matches, those before it failed. -/
theorem shapes_fail {shapes : List LineShape} (hnodup : shapes.Nodup)
    {s t : State Indenter src} {w : Value (Cursor src)}
    (hnew : ∀ shape ∈ shapes,
      s.memo.outcome? ((Sym.shape shape).id, s.cursor) = none)
    (he : Evaluates grammar
      (.first (shapes.map fun shape => (Sym.shape shape).ref)) s (some w) t)
    {shape : LineShape} (hmem : shape ∈ shapes)
    (hmatched : MatchedAs shape s.cursor t) :
    ∀ other ∈ shapes.takeWhile (· ≠ shape), FailedAs other s.cursor t := by
  induction shapes generalizing s with
  | nil => cases he
  | cons first shapes ih =>
    obtain ⟨hfirst, hnodup⟩ := List.nodup_cons.1 hnodup
    have hfresh := hnew first List.mem_cons_self
    cases he with
    | first_some h =>
      cases h with
      | rule h =>
        obtain rfl : shape = first := by
          by_contra hne
          obtain ⟨v, hv⟩ := hmatched
          rw [outcome?_other_shape hne h, hnew shape hmem] at hv
          cases hv
        rw [List.takeWhile_cons_of_neg (by simp)]
        nofun
    | @first_none _ _ _ u _ _ h hrest =>
      cases h with
      | rule h =>
        have hfailed : FailedAs first s.cursor u := by
          rcases h.apply_new hfresh (grammar_rule? _) closed_heredocRules
              (shape_rule_within first) (Sym.shape_not_heredocRules first) with
            ⟨x, _, _, _, _, hmemo⟩ | ⟨_, _, _, hvalue, _⟩
          · rw [FailedAs, hmemo, Memo.outcome?_setOutcome_self]
          · cases hvalue
        have hkept : FailedAs first s.cursor t :=
          (outcome?_other_shapes hfirst hrest s.cursor).trans hfailed
        have hne : first ≠ shape := by
          rintro rfl
          obtain ⟨v, hv⟩ := hmatched
          cases hkept.symm.trans hv
        have hlater := ih (s := u.rewind s) hnodup (fun other hother => ?_) hrest
          ((List.mem_cons.1 hmem).resolve_left hne.symm) hmatched
        · intro other hother
          rw [List.takeWhile_cons_of_pos (by simpa using hne)] at hother
          rcases List.mem_cons.1 hother with rfl | hother
          · exact hkept
          · exact hlater other hother
        · have hne' : other ≠ first := by
            rintro rfl
            exact hfirst hother
          exact (outcome?_other_shape hne' h s.cursor).trans
            (hnew other (List.mem_cons_of_mem _ hother))

/-! ## What a line does to the depth -/

/-- The opener with which the introducing line of a heredoc ends. -/
def openerBehindLabel : Reader :=
  .next beforeLabel (.next (.pattern Token.heredocLabel) (.next upToTail anyTail))

theorem opens_of_readHead {s : List Char} {head : HeredocHead}
    (h : readHead s = some head) : head.opens = (openerBehindLabel s).isSome := by
  obtain ⟨r, t, u, hr, ht, hu, rfl⟩ := readHead_eq_some h
  rw [openerBehindLabel, Reader.next, hr, Option.bind_some, Reader.next, ht,
    Option.bind_some, Reader.next, hu]
  rfl

theorem rise_of_readLine {s r : List Char} {l : LogicalLine}
    (h : readLine s = some (l, r)) : l.rise = l.shape.depthDelta +
      if l.shape = .heredocIntro ∧ (openerBehindLabel s).isSome then 1 else 0 := by
  have hread := (readAs_of_readLine h).1
  by_cases hshape : l.shape = .heredocIntro
  · rw [hshape] at hread ⊢
    obtain ⟨hd, hread, heq⟩ := Option.map_eq_some_iff.1 hread
    obtain ⟨head, hhead, hbody⟩ := Option.bind_eq_some_iff.1 hread
    cases heq
    have hopens := opens_of_readHead hhead
    rw [← (readBody_eq_some hbody).1] at hopens
    simp [LogicalLine.rise, LineShape.depthDelta, ← hopens]
  · rw [if_neg fun h => hshape h.1, Int.add_zero]
    exact (shape_of_readAs hread).2 hshape

end RubyIndent.Ruby

namespace RubyIndent.Document

open RubyIndent.Peg RubyIndent.Ruby RubyIndent.Text

variable {src : List Char}

/-! ## The driver and the search -/

/-- The shapes before that of a line failed in the line rule. -/
theorem line_fails {s t : State Indenter src} {w : Value (Cursor src)}
    (hs : Ready s) (he : Evaluates grammar (.apply Sym.line.id) s (some w) t)
    {shape : LineShape} (hmatched : MatchedAs shape s.cursor t) :
    ∀ other ∈ LineShape.all.takeWhile (· ≠ shape), FailedAs other s.cursor t := by
  obtain ⟨v, u, h, hcursor, _, hentries⟩ := line_choice hs he
  have hmatched' : MatchedAs shape s.cursor u := by
    obtain ⟨v', hv'⟩ := hmatched
    exact ⟨v', by rw [← (hentries shape).2, ← hcursor, hv']⟩
  intro other hother
  have hfailed : FailedAs other s.cursor u :=
    shapes_fail (by decide) (fun shape _ => (hentries shape).1) h shape.mem_all
      hmatched' other hother
  exact (hentries other).2.trans hfailed

/-- The line rule matches one shape only. -/
theorem eq_of_matchedAs {s : State Indenter src} (hs : Ready s)
    (hline : (matchLine s).matched = true) {shape other : LineShape}
    (h : MatchedAs shape s.cursor (matchLine s).state)
    (h' : MatchedAs other s.cursor (matchLine s).state) : other = shape := by
  obtain ⟨log, hlog⟩ := exists_lineSteps s
  have hchosen := hlog.chosen hs
  obtain ⟨v, hv⟩ := Option.isSome_iff_exists.1 hline
  rw [hv] at hchosen
  generalize log.filterMap written? = lines at hchosen
  cases hchosen with
  | line chosen labels hshape => rw [hshape other h', hshape shape h]

/-- The rule of a shape fails where no line of that shape is read. -/
theorem shape_unmatched {shape : LineShape} {s : State Indenter src} (hs : Ready s)
    (h : readAs shape s.cursor.rest = none) :
    (s.apply grammar (Sym.shape shape).id).matched = false := by
  have hnew := hs.unmet (.shape shape) s.cursor rfl (.inr ⟨rfl, nofun⟩)
  obtain ⟨_, _, hread⟩ := apply_shape hs.toSound hnew fun _ w hw => by
    obtain ⟨sym, heq, hsym, _, hc⟩ := ahead_of_heredocVisit hw
    rw [heq]
    exact hs.unmet sym w.2 hsym hc
  rw [h] at hread
  exact congrArg Option.isSome hread.1

/-- Classifying a line and matching it agree. The first line of a text has a shape
exactly if a fresh driver, having skipped the blanks, matches a line there. Its shape
is the one shape that matched in the line rule and whose action ran, and the rules of
all shapes before it failed there, as they do when applied alone. The search for the
shape ends at the same place as the line rule, and both leave the depth at what the
shape adds to it, and one more for a heredoc whose introducing line ends with an
opener. -/
theorem classify_agrees (input : String) (i : Indenter) :
    let start := State.start input.toList i
    let line := matchLine (skipBlanks start)
    let found := searchShapes LineShape.all (skipBlanks (.start input.toList {}))
    classify input = found.1 ∧
    (classify input).isSome
      = ((start.apply grammar Sym.spacing.id).matched && line.matched) ∧
    ∀ shape, classify input = some shape →
      (Chooses start shape ∧ ∀ other,
        MatchedAs other (skipBlanks start).cursor line.state ↔ other = shape) ∧
      (∀ other ∈ LineShape.all.takeWhile (· ≠ shape),
        FailedAs other (skipBlanks start).cursor line.state ∧
        ((skipBlanks start).apply grammar (Sym.shape other).id).matched = false) ∧
      found.2.cursor = line.state.cursor ∧
      let move := shape.depthDelta + if shape = .heredocIntro ∧
        (openerBehindLabel (skipBlanks start).cursor.rest).isSome then 1 else 0
      line.state.context.depth = i.depth + move ∧ found.2.context.depth = move := by
  intro start line found
  have hstart : Ready start := ready_start _ _
  obtain ⟨hready, hrest, _⟩ := skipBlanks_of_ready hstart
  obtain ⟨hready₀, hrest₀, hcontext₀⟩ := skipBlanks_of_ready (ready_start input.toList {})
  change _ = input.toList.dropWhile isSpacing at hrest hrest₀
  have hsearch := searchShapes_of_ready hready₀
  rw [hrest₀, hcontext₀] at hsearch
  rw [spacing_matched hstart, Bool.true_and]
  refine ⟨classify_eq_search input, ?_, fun shape hshape => ?_⟩
  · rw [classify_eq]
    cases hline : readLine (input.toList.dropWhile isSpacing) with
    | none => exact (matchLine_of_not_readLine hstart hline).symm
    | some p => exact (matchLine_of_readLine hstart hline).1.symm
  · rw [classify_eq] at hshape
    obtain ⟨⟨l, r⟩, hline, rfl⟩ := Option.map_eq_some_iff.1 hshape
    obtain ⟨hmatched, hend, hmatchedAs, hdepth⟩ := matchLine_of_readLine hstart hline
    rw [hline] at hsearch
    obtain ⟨_, hend₀, hcontext⟩ := hsearch
    have hdepth₀ := congrArg Indenter.depth hcontext
    rw [depth_emit] at hdepth₀
    rw [hrest]
    refine ⟨⟨(chooses_iff hstart).2 ?_, fun other => ⟨?_, ?_⟩⟩, fun other hother => ?_,
      cursor_eq_of_rest (hend₀.trans hend.symm), ?_, ?_⟩
    · rw [hrest, hline]
      rfl
    · exact eq_of_matchedAs hready hmatched hmatchedAs
    · rintro rfl
      exact hmatchedAs
    · refine ⟨?_, shape_unmatched hready ?_⟩
      · have he := State.apply_evaluates grammar Sym.line.id (skipBlanks start)
        obtain ⟨v, hv⟩ := Option.isSome_iff_exists.1 hmatched
        change Evaluates grammar _ _ line.value _ at he
        rw [show line.value = some v from hv] at he
        exact line_fails hready he hmatchedAs other hother
      · rw [hrest]
        exact (readAs_of_readLine hline).2 other hother
    · rw [← rise_of_readLine hline]
      exact hdepth
    · rw [← rise_of_readLine hline]
      exact hdepth₀.trans (Int.zero_add _)

/-- A heredoc that opens a block, behind the eight shapes that are tried before it. -/
theorem classify_agrees_heredoc :
    let start := State.start "a(<<A) do\nx\nA\n".toList { depth := -2 : Indenter }
    Chooses start .heredocIntro ∧
      (matchLine (skipBlanks start)).state.context.depth = -1 := by
  intro start
  have hclass : classify "a(<<A) do\nx\nA\n" = some .heredocIntro :=
    (classify_eq _).trans (by decide +kernel)
  obtain ⟨_, _, hagree⟩ := classify_agrees "a(<<A) do\nx\nA\n" { depth := -2 }
  obtain ⟨⟨hchooses, _⟩, _, _, hdepth, _⟩ := hagree _ hclass
  refine ⟨hchooses, hdepth.trans ?_⟩
  rw [(skipBlanks_of_ready (ready_start _ _)).2.1]
  decide +kernel

end RubyIndent.Document
