import RubyIndent.Proofs.Document.Content
import RubyIndent.Proofs.Ruby.Levels
import RubyIndent.Proofs.Ruby.LineActions

/-!
# What a round writes

A round of the driver applies the line rule once, and the machine says what
happens in it: the action of one shape runs, that of the line that was read, and
it sees the whole line (`Round.writes`).
-/

namespace RubyIndent.Document

open RubyIndent.Peg RubyIndent.Ruby RubyIndent.Text

variable {src : List Char}

/-- Looking for a line runs the action of one shape, or none. -/
theorem line_performs {s t : State Indenter src}
    {v : Option (Value (Cursor src))} (hs : Ready s)
    (he : Evaluates grammar (.apply Sym.line.id) s v t) :
    ∃ log, Performs grammar (.apply Sym.line.id) s v t log ∧
      Chosen s.cursor t v (log.filterMap written?) := by
  have hnew := hs.unmet .line s.cursor rfl (.inr ⟨rfl, by decide⟩)
  obtain ⟨w, u, log, hbody, hruns, _, hsome, hcursor, ⟨o, hmemo, _⟩, hperforms⟩ :=
    he.performs_new hnew (grammar_rule? .line) closed_belowLine line_within
      line_not_belowLine
  refine ⟨_, hperforms, ?_⟩
  -- Entering the line rule makes no entry for a shape.
  have hunmet : ∀ shape, (s.entered Sym.line.id).opened.memo.outcome?
      ((Sym.shape shape).id, s.cursor) = none := by
    intro shape
    have hne : (Sym.line.id, s.cursor) ≠ ((Sym.shape shape).id, s.cursor) := by
      intro heq
      cases (eq_of_visit_eq (b := .shape shape) heq).1
    exact (Memo.outcome?_enter_ne s.memo hne).trans
      (hs.unmet (.shape shape) s.cursor rfl (.inr ⟨rfl, nofun⟩))
  cases hbody with
  | choice h =>
    obtain ⟨log', hlog', hchosen⟩ := shapes_perform (by decide)
      (fun shape _ => hunmet shape)
      (fun shape d w hw => by cases (hunmet shape).symm.trans hw) h
    have hruns' : Line.line.Runs grammar (s.entered Sym.line.id).opened w u log' :=
      fun k => .quiet rfl (hlog' k)
    cases (hruns []).unique (hruns' []) rfl
    have hacts : Sym.line.rule.acts (Sym.line.id, s.cursor) false w u = [] := by
      cases w <;> rfl
    rw [hacts, List.append_nil, List.filterMap_cons_none rfl]
    generalize log.filterMap written? = lines at hchosen ⊢
    cases hchosen with
    | none =>
      obtain rfl : v = none := by simpa using hsome
      exact .none
    | line shape labels hshape =>
      obtain ⟨v, rfl⟩ : ∃ x, v = some x := Option.isSome_iff_exists.1 hsome
      rw [← hcursor nofun]
      refine .line shape labels fun other ⟨w, hw⟩ => hshape other ⟨w, ?_⟩
      rwa [hmemo, Memo.outcome?_setOutcome_ne, hcursor nofun] at hw
      intro heq
      cases (eq_of_visit_eq (b := .shape other) heq).1

/-- The machine from the start of a line to its end. -/
def LineSteps (s : State Indenter src) (log : List (Event src)) : Prop :=
  Steps grammar ⟨.apply Sym.line.id, s, []⟩ log
    ⟨.done (matchLine s).value, (matchLine s).state, []⟩

theorem exists_lineSteps (s : State Indenter src) : ∃ log, LineSteps s log := by
  obtain ⟨log, h⟩ := s.apply_steps grammar Sym.line.id
  exact ⟨log, h []⟩

theorem LineSteps.chosen {s : State Indenter src} {log : List (Event src)}
    (h : LineSteps s log) (hs : Ready s) :
    Chosen s.cursor (matchLine s).state (matchLine s).value
      (log.filterMap written?) := by
  obtain ⟨log', hlog', hchosen⟩ :=
    line_performs hs (State.apply_evaluates grammar Sym.line.id s)
  cases Steps.unique h (hlog' []) rfl
  exact hchosen

/-- In a round that reads a line, the action of the line's shape runs, on the
whole of it, and no other action of a shape. -/
theorem Round.writes {t : State Indenter src} {l : LogicalLine} {r : List Char}
    {value : Value (Cursor src)} (hround : Round t l r value) (ht : Ready t)
    {log : List (Event src)} (hlog : LineSteps (skipBlanks t) log) :
    ∃ labels, log.filterMap written?
      = [⟨l.shape, ⟨src, (skipBlanks t).cursor, lineEnd t, labels⟩⟩] := by
  have hchosen := hlog.chosen (skipBlanks_of_ready ht).1
  rw [hround.matched] at hchosen
  generalize log.filterMap written? = lines at hchosen ⊢
  cases hchosen with
  | line shape labels hshape =>
    cases hshape l.shape hround.shape
    exact ⟨labels, rfl⟩

end RubyIndent.Document
