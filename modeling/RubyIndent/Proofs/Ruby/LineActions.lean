import RubyIndent.Proofs.Peg.Actions
import RubyIndent.Proofs.Ruby.LogicalLine

/-!
# The actions of a line

A line is written by the action of its shape. No other action changes what the
indenter holds, the label of a heredoc apart, so the depth at any moment is the
first depth and what the lines written since then add to it
(`Steps.forget_context`). Looking for a line tries the shapes in order, and the
action of the one that matches is the only one that runs (`line_performs`).
-/

namespace RubyIndent.Ruby

open RubyIndent.Peg RubyIndent.Text

variable {src : List Char}

/-! ## Lines in a log -/

def lineShape? (id : RuleId) : Option LineShape :=
  match Sym.all[id]? with
  | some (.shape shape) => some shape
  | _ => none

@[simp] theorem lineShape?_shape (shape : LineShape) :
    lineShape? (Sym.shape shape).id = some shape := by
  rw [lineShape?, Sym.all_id]

/-- The rules that a heredoc refers to write no line. -/
theorem lineShape?_heredocRules {id : RuleId} (h : heredocRules id) :
    lineShape? id = none := by
  rcases h with ⟨sym, hplain, rfl⟩ | rfl | rfl
  · rw [lineShape?, Sym.all_id]
    cases sym with
    | shape _ => cases hplain
    | _ => rfl
  · rw [lineShape?, Sym.all_id]
  · rw [lineShape?, Sym.all_id]

/-- The action of a line that runs, with what it sees. -/
structure LineAction where
  shape : LineShape
  caps : Captures

namespace LineAction

/-- The introducing line of a heredoc that opens a level as well. -/
def opens (a : LineAction) : Bool :=
  a.shape = .heredocIntro && (a.caps.get? "opener").isSome

/-- How the depth after the line differs from the depth before it. -/
def move (a : LineAction) : Int :=
  a.shape.depthDelta + if a.opens then 1 else 0

theorem move_of_ne {a : LineAction} (h : a.shape ≠ .heredocIntro) :
    a.move = a.shape.depthDelta := by
  simp [move, opens, h]

theorem move_heredocIntro (caps : Captures) :
    (LineAction.mk .heredocIntro caps).move
      = if (caps.get? "opener").isSome then 1 else 0 := by
  simp [move, opens, LineShape.depthDelta]

end LineAction

def written? : Event src → Option LineAction
  | .body _ _ => none
  | .action v _ caps => (lineShape? v.1).map fun shape => ⟨shape, caps⟩

def depthAfter (lines : List LineAction) (depth : Int) : Int :=
  lines.foldl (fun d line => d + line.move) depth

theorem depthAfter_cons (l : LineAction) (ls : List LineAction) (d : Int) :
    depthAfter (l :: ls) d = depthAfter ls (d + l.move) :=
  rfl

theorem depthAfter_append (ls ls' : List LineAction) (d : Int) :
    depthAfter (ls ++ ls') d = depthAfter ls' (depthAfter ls d) :=
  List.foldl_append ..

/-- Writing a line moves the depth. -/
theorem forget_action (shape : LineShape) (caps : Captures) (i : Indenter) :
    forget (Line.action shape caps i).2
      = { forget i with depth := i.depth + LineAction.move ⟨shape, caps⟩ } := by
  have stay : ∀ d : Int, d = 0 → forget i
      = { forget i with depth := i.depth + d } := by
    rintro _ rfl
    exact congrArg (fun d => { forget i with depth := d }) (Int.add_zero _).symm
  by_cases hshape : shape = .heredocIntro
  · subst hshape
    rw [LineAction.move_heredocIntro, Line.action, Line.emitHeredoc]
    cases (caps.get? "opener").isSome
    · exact stay _ rfl
    · rfl
  · rw [LineAction.move_of_ne hshape]
    cases shape
    case heredocIntro => exact absurd rfl hshape
    case dual | bracketSameLine | plain => exact stay _ rfl
    all_goals rfl

theorem grammar_rule?_eq (id : RuleId) :
    grammar.rule? id = (Sym.all[id]?).map Sym.rule := by
  simp only [Grammar.rule?, grammar, List.getElem?_toArray, List.getElem?_map]

/-- An event that writes no line leaves everything but the label as it is. -/
theorem forget_act (e : Event src) (i : Indenter) :
    forget (e.act grammar i) = { forget i with
      depth := depthAfter (written? e).toList i.depth } := by
  cases e with
  | body v again => rfl
  | action v again caps =>
    simp only [Event.act, written?, lineShape?, grammar_rule?_eq]
    cases Sym.all[v.1]? with
    | none => rfl
    | some sym =>
      cases sym with
      | shape shape => exact forget_action shape caps i
      | _ => rfl

/-- Of all that the indenter holds, only the label and the depth change in a
run, and the depth changes by the lines that are written. -/
theorem Steps.forget_context {a b : Peg.Config Indenter src}
    {log : List (Event src)} (h : Steps grammar a log b)
    (ha : ∀ q ∈ a.stack, q.Known grammar) :
    forget b.state.context = { forget a.state.context with
      depth := depthAfter (log.filterMap written?) a.state.context.depth } := by
  rw [h.context ha]
  generalize a.state.context = i
  clear h ha
  induction log generalizing i with
  | nil => rfl
  | cons e log ih =>
    rw [List.foldl_cons, ih]
    have hact := forget_act e i
    have hdepth : (e.act grammar i).depth
        = depthAfter (written? e).toList i.depth := congrArg Indenter.depth hact
    rw [hact, hdepth]
    cases hw : written? e with
    | none => rw [List.filterMap_cons_none hw]; rfl
    | some line => rw [List.filterMap_cons_some hw]; rfl

/-! ## Which action runs -/

/-- The lines written while a line is looked for at `c`: none where none is
found, and otherwise one, of the only shape that matched. -/
inductive Chosen (c : Cursor src) (t : State Indenter src) :
    Option (Value (Cursor src)) → List LineAction → Prop where
  | none : Chosen c t none []
  | line {v : Value (Cursor src)} (shape : LineShape) (labels : Labels src)
      (hshape : ∀ other, MatchedAs other c t → other = shape) :
    Chosen c t (some v) [⟨shape, ⟨src, c, t.cursor, labels⟩⟩]

theorem shape_rule_within (shape : LineShape) :
    (Sym.shape shape).rule.body.Within heredocRules := by
  by_cases h : shape = .heredocIntro
  · subst h
    exact heredocIntro_within
  · exact (body_within shape h).mono fun _ => .inl

theorem written_of_heredocRules {log : List (Event src)}
    (h : ∀ e ∈ log, heredocRules e.visit.1) : log.filterMap written? = [] := by
  refine List.filterMap_eq_nil_iff.2 fun e he => ?_
  cases e with
  | body _ _ => rfl
  | action v _ caps =>
    have hv : heredocRules v.1 := h _ he
    rw [written?, lineShape?_heredocRules hv]
    rfl

/-- Looking for a shape leaves the entries of the other shapes alone. -/
theorem outcome?_other_shape {shape other : LineShape} (hne : other ≠ shape)
    {s t : State Indenter src} {v : Option (Value (Cursor src))}
    (he : Evaluates grammar (.apply (Sym.shape shape).id) s v t) (c : Cursor src) :
    t.memo.outcome? ((Sym.shape other).id, c)
      = s.memo.outcome? ((Sym.shape other).id, c) := by
  have hclosed : grammar.Closed
      fun id => heredocRules id ∨ id = (Sym.shape shape).id := by
    rintro id rule (hid | rfl) hr
    · exact (closed_heredocRules id rule hid hr).mono fun _ => .inl
    · cases (grammar_rule? _).symm.trans hr
      exact (shape_rule_within shape).mono fun _ => .inl
  refine (he.apart hclosed (.inr rfl)).outside _ ?_ c
  rintro (h | h)
  · exact Sym.shape_not_heredocRules other h
  · cases Sym.id_injective (s := .shape other) (t := .shape shape) h
    exact hne rfl

/-- A shape is looked for at a place where it was not looked for before. -/
theorem shape_performs {shape : LineShape} {s t : State Indenter src}
    {v : Option (Value (Cursor src))}
    (hnew : s.memo.outcome? ((Sym.shape shape).id, s.cursor) = none)
    (he : Evaluates grammar (.apply (Sym.shape shape).id) s v t) :
    ∃ log, Performs grammar (.apply (Sym.shape shape).id) s v t log ∧
      (v = none ∧ log.filterMap written? = [] ∧ UnmatchedAs shape s.cursor t ∨
        v ≠ none ∧ ∃ labels, log.filterMap written?
          = [⟨shape, ⟨src, s.cursor, t.cursor, labels⟩⟩]) := by
  obtain ⟨w, u, log, hbody, _, hlog, hsome, hcursor,
      ⟨o, hmemo, ho⟩, hperforms⟩ :=
    he.performs_new hnew (grammar_rule? _) closed_heredocRules
      (shape_rule_within shape) (Sym.shape_not_heredocRules shape)
  refine ⟨_, hperforms, ?_⟩
  have hwritten : ∀ es, (Event.body ((Sym.shape shape).id, s.cursor) false ::
      (log ++ es)).filterMap written? = es.filterMap written? := by
    intro es
    rw [List.filterMap_cons_none rfl, List.filterMap_append,
      written_of_heredocRules hlog, List.nil_append]
  rw [hwritten]
  cases w with
  | none =>
    obtain rfl : v = none := by simpa using hsome
    refine .inl ⟨rfl, rfl, fun d w hw => ?_⟩
    rw [hmemo, ho rfl, Memo.outcome?_setOutcome_self] at hw
    cases hw
  | some w =>
    have hv : v ≠ none := by
      rintro rfl
      cases hsome
    refine .inr ⟨hv, u.frame.labels, ?_⟩
    have hstart : u.frame.start = s.cursor := hbody.frame_start
    have hcaps : u.captures = ⟨src, s.cursor, t.cursor, u.frame.labels⟩ := by
      rw [State.captures, hstart, hcursor hv]
    have hacts : (Sym.shape shape).rule.acts ((Sym.shape shape).id, s.cursor)
        false (some w) u
        = [.action ((Sym.shape shape).id, s.cursor) false u.captures] := rfl
    rw [hacts, hcaps, List.filterMap_cons_some]
    · rfl
    · rw [written?, lineShape?_shape]
      rfl

/-- Shapes are looked for in order, up to the first that matches. -/
theorem shapes_perform {shapes : List LineShape} (hnodup : shapes.Nodup)
    {s t : State Indenter src} {v : Option (Value (Cursor src))}
    (hnew : ∀ shape ∈ shapes,
      s.memo.outcome? ((Sym.shape shape).id, s.cursor) = none)
    (hun : ∀ shape, UnmatchedAs shape s.cursor s)
    (he : Evaluates grammar
      (.first (shapes.map fun shape => (Sym.shape shape).ref)) s v t) :
    ∃ log, Performs grammar
        (.first (shapes.map fun shape => (Sym.shape shape).ref)) s v t log ∧
      Chosen s.cursor t v (log.filterMap written?) := by
  induction shapes generalizing s with
  | nil =>
    cases he
    exact ⟨[], fun k => .single rfl, .none⟩
  | cons shape shapes ih =>
    have hfirst := hnew shape List.mem_cons_self
    cases he with
    | first_some h =>
      cases h with
      | rule h =>
        obtain ⟨log, hlog, ⟨hv, _⟩ | ⟨_, labels, hwritten⟩⟩ :=
          shape_performs hfirst h
        · cases hv
        refine ⟨log, fun k => .quiet rfl (.quiet rfl ((hlog _).done rfl)), ?_⟩
        rw [hwritten]
        refine .line shape labels fun other ⟨w, hw⟩ => ?_
        by_contra hne
        rw [outcome?_other_shape hne h] at hw
        exact hun other _ w hw
    | @first_none _ _ _ u _ _ h hrest =>
      cases h with
      | rule h =>
        obtain ⟨log, hlog, ⟨_, hwritten, hvain⟩ | ⟨hv, _⟩⟩ :=
          shape_performs hfirst h
        case inr => exact absurd rfl hv
        have hnew' : ∀ other ∈ shapes, (u.rewind s).memo.outcome?
            ((Sym.shape other).id, s.cursor) = none := by
          intro other hother
          have hne : other ≠ shape := by
            rintro rfl
            exact (List.nodup_cons.1 hnodup).1 hother
          exact (outcome?_other_shape hne h s.cursor).trans
            (hnew other (List.mem_cons_of_mem _ hother))
        have hun' : ∀ other, UnmatchedAs other s.cursor (u.rewind s) := by
          intro other d w hw
          by_cases hne : other = shape
          · subst hne
            exact hvain d w hw
          · exact hun other d w ((outcome?_other_shape hne h s.cursor).symm.trans hw)
        obtain ⟨log', hlog', hchosen⟩ :=
          ih (List.nodup_cons.1 hnodup).2 hnew' hun' hrest
        refine ⟨log ++ log', fun k => .quiet rfl (.quiet rfl
          ((hlog _).trans (.quiet rfl (hlog' k)))), ?_⟩
        rw [List.filterMap_append, hwritten]
        exact hchosen

end RubyIndent.Ruby
