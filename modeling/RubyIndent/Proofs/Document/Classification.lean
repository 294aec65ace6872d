import RubyIndent.Proofs.Document.Run
import RubyIndent.Proofs.Ruby.Tails

/-!
# The shape of a single line

`classify` applies the rules of the shapes one after the other, with one table. None
of them finds anything there that another one left, so the shape that is found is
the shape of the logical line that is read (`classify_eq`).
-/

namespace RubyIndent.Document

open RubyIndent.Peg RubyIndent.Ruby RubyIndent.Text

variable {src : List Char}

/-- The rule of a shape is applied, of which the table knows nothing. -/
theorem apply_shape {shape : LineShape} {s : State Indenter src}
    (hs : Sound grammar plain s)
    (hnew : s.memo.outcome? ((Sym.shape shape).id, s.cursor) = none)
    (hunread : shape = .heredocIntro → ∀ w, HeredocVisit s.cursor.rest w →
      s.memo.outcome? w = none) :
    let r := s.apply grammar (Sym.shape shape).id
    Sound grammar plain r.state ∧
      Changes plain (fun w => shape = .heredocIntro ∧ HeredocVisit s.cursor.rest w ∨
        w = ((Sym.shape shape).id, s.cursor)) s r.state ∧
      LineRead s r.value r.state (readAs shape s.cursor.rest) := by
  have he : Evaluates grammar (.expr (Sym.shape shape).ref) s _ _ :=
    .rule (State.apply_evaluates grammar (Sym.shape shape).id s)
  by_cases hshape : shape = .heredocIntro
  · subst hshape
    obtain ⟨hsound, hchanges, hread, _⟩ :=
      heredocShape_evaluates hs hnew (hunread rfl) he
    exact ⟨hsound, hchanges.mono fun w hw => hw.imp_left fun h => ⟨rfl, h⟩, hread⟩
  · obtain ⟨hsound, hchanges, hread⟩ := shape_evaluates hshape hs hnew he
    exact ⟨hsound, hchanges.mono fun w => .inr, hread⟩

/-- The search for the first shape that matches, with the state in which it ends. -/
def searchShapes :
    List LineShape → State Indenter src → Option LineShape × State Indenter src
  | [], s => (none, s)
  | shape :: shapes, s =>
    let r := s.apply grammar (Sym.shape shape).id
    if r.matched then (some shape, r.state) else searchShapes shapes r.state

theorem fst_searchShapes (shapes : List LineShape) (s : State Indenter src) :
    (searchShapes shapes s).1 = firstShape? shapes s := by
  induction shapes generalizing s with
  | nil => rfl
  | cons shape shapes ih =>
    rw [searchShapes, firstShape?]
    split
    · rfl
    · exact ih _

/-- The search finds the first shape of which a line is read, and ends behind that
line. -/
theorem searchShapes_reads {shapes : List LineShape} (hnodup : shapes.Nodup)
    {s : State Indenter src} (hs : Sound grammar plain s)
    (hnew : ∀ w, ShapeVisit shapes s.cursor w → s.memo.outcome? w = none)
    (hunread : .heredocIntro ∈ shapes → ∀ w, HeredocVisit s.cursor.rest w →
      s.memo.outcome? w = none) :
    match shapes.findSome? (readAs · s.cursor.rest) with
    | none => (searchShapes shapes s).1 = none
    | some (l, r) => (searchShapes shapes s).1 = some l.shape ∧
      (searchShapes shapes s).2.cursor.rest = r ∧
      forget (searchShapes shapes s).2.context = (l.emit (forget s.context)).2 := by
  induction shapes generalizing s with
  | nil => rfl
  | cons shape shapes ih =>
    obtain ⟨hmem, hnodup⟩ := List.nodup_cons.1 hnodup
    obtain ⟨hsound, hchanges, hread⟩ := apply_shape hs
      (hnew _ ⟨shape, List.mem_cons_self, rfl⟩)
      fun h => hunread (h ▸ List.mem_cons_self)
    rw [searchShapes, List.findSome?_cons]
    cases ho : readAs shape s.cursor.rest with
    | some p =>
      rw [ho] at hread
      obtain ⟨hvalue, hrest, hcontext, _⟩ := hread
      have hmatched : (s.apply grammar (Sym.shape shape).id).matched = true :=
        congrArg Option.isSome hvalue
      dsimp only
      rw [if_pos hmatched]
      exact ⟨congrArg some (shape_of_readAs ho).1.symm, hrest, hcontext⟩
    | none =>
      rw [ho] at hread
      obtain ⟨hvalue, hview, hcontext⟩ := hread
      have hmatched : (s.apply grammar (Sym.shape shape).id).matched = false :=
        congrArg Option.isSome hvalue
      have hcursor : (s.apply grammar (Sym.shape shape).id).state.cursor = s.cursor :=
        congrArg View.cursor hview
      -- Neither the other shapes nor, before its shape, a heredoc were looked for.
      have hlater := ih hnodup hsound ?_ ?_
      · rw [hcursor, hcontext] at hlater
        dsimp only
        rw [if_neg (by simp [hmatched])]
        exact hlater
      · rw [hcursor]
        rintro w ⟨shape', hmem', rfl⟩
        refine (hchanges _ _ (Sym.not_plain rfl) ?_).trans
          (hnew _ ⟨shape', List.mem_cons_of_mem _ hmem', rfl⟩)
        rintro (⟨_, hw⟩ | hw)
        · exact hw.not_shape shape' rfl
        · cases (eq_of_visit_eq (a := .shape shape') (b := .shape shape) hw).1
          exact hmem hmem'
      · rw [hcursor]
        intro hheredoc w hw
        refine (hchanges _ _ hw.not_plain ?_).trans
          (hunread (List.mem_cons_of_mem _ hheredoc) w hw)
        rintro (⟨rfl, _⟩ | hw')
        · exact hmem hheredoc
        · exact hw.not_shape shape (congrArg Prod.fst hw')

/-- The search where the driver looks for a line. -/
theorem searchShapes_of_ready {s : State Indenter src} (hs : Ready s) :
    match readLine s.cursor.rest with
    | none => (searchShapes LineShape.all s).1 = none
    | some (l, r) => (searchShapes LineShape.all s).1 = some l.shape ∧
      (searchShapes LineShape.all s).2.cursor.rest = r ∧
      forget (searchShapes LineShape.all s).2.context
        = (l.emit (forget s.context)).2 := by
  refine searchShapes_reads (by decide) hs.toSound ?_ fun _ w hw => ?_
  · rintro _ ⟨shape, _, rfl⟩
    exact hs.unmet (.shape shape) _ rfl (.inr ⟨rfl, nofun⟩)
  · obtain ⟨sym, heq, hsym, _, hc⟩ := ahead_of_heredocVisit hw
    rw [heq]
    exact hs.unmet sym w.2 hsym hc

/-- Blanks are skipped whether there are any or not. -/
theorem spacing_matched {s : State Indenter src} (hs : Ready s) :
    (s.apply grammar Sym.spacing.id).matched = true := by
  have he : Evaluates grammar (.expr Sym.spacing.ref) s _ (skipBlanks s) :=
    .rule (State.apply_evaluates grammar Sym.spacing.id s)
  obtain ⟨⟨d, _, hvalue, _⟩, _⟩ :=
    reads_spacing.took closed_plain (plain_id.2 rfl) he hs.toSound
  exact congrArg Option.isSome hvalue

theorem classify_eq_search (input : String) : classify input
    = (searchShapes LineShape.all (skipBlanks (.start input.toList {}))).1 := by
  rw [classify, if_pos (spacing_matched (ready_start input.toList {})),
    ← fst_searchShapes]
  rfl

/-- The shape of the first line of a text is that of the line that is read. -/
theorem classify_eq (input : String) : classify input
    = (readLine (input.toList.dropWhile isSpacing)).map fun p => p.1.shape := by
  obtain ⟨hready, hrest, _⟩ := skipBlanks_of_ready (ready_start input.toList {})
  change _ = input.toList.dropWhile isSpacing at hrest
  have hsearch := searchShapes_of_ready hready
  rw [hrest] at hsearch
  rw [classify_eq_search]
  cases hline : readLine (input.toList.dropWhile isSpacing) with
  | none =>
    rw [hline] at hsearch
    exact hsearch
  | some p =>
    rw [hline] at hsearch
    exact hsearch.1

/-- What the line rule does where a line is read. -/
theorem matchLine_of_readLine {s : State Indenter src} (hs : Ready s)
    {l : LogicalLine} {r : List Char}
    (h : readLine (s.cursor.rest.dropWhile isSpacing) = some (l, r)) :
    (matchLine (skipBlanks s)).matched = true ∧
      (matchLine (skipBlanks s)).state.cursor.rest = r ∧
      MatchedAs l.shape (skipBlanks s).cursor (matchLine (skipBlanks s)).state ∧
      (matchLine (skipBlanks s)).state.context.depth = s.context.depth + l.rise := by
  obtain ⟨hready, hrest, hcontext⟩ := skipBlanks_of_ready hs
  have hline := line_evaluates hready
    (State.apply_evaluates grammar Sym.line.id (skipBlanks s))
  rw [hrest, h] at hline
  obtain ⟨⟨hvalue, hend, hforget, hmatched⟩, _⟩ := hline
  refine ⟨congrArg Option.isSome hvalue, hend, hmatched, ?_⟩
  have hdepth := congrArg Indenter.depth hforget
  rw [depth_emit, hcontext] at hdepth
  exact hdepth

/-- The line rule fails where no line is read. -/
theorem matchLine_of_not_readLine {s : State Indenter src} (hs : Ready s)
    (h : readLine (s.cursor.rest.dropWhile isSpacing) = none) :
    (matchLine (skipBlanks s)).matched = false := by
  obtain ⟨hready, hrest, _⟩ := skipBlanks_of_ready hs
  have hline := line_evaluates hready
    (State.apply_evaluates grammar Sym.line.id (skipBlanks s))
  rw [hrest, h] at hline
  exact congrArg Option.isSome hline

end RubyIndent.Document
