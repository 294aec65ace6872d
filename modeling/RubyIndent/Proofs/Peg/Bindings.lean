import RubyIndent.Proofs.Peg.Actions
import RubyIndent.Proofs.Peg.Growing

/-!
# Failure is atomic, and bindings follow the branch that matched

An attempt that does not match leaves the cursor, the bindings of the rule around
it and the depth of negative lookahead as they were; only the table, the context
and the record of failures may have changed. A row of expressions does not clean
up behind itself, so the induction leaves rows out (`Task.Atomic`), and the
sequence around a row goes back.

An attempt that matches adds bindings. `Binds` follows the branch that matched and
lists what is bound on it, from first to last: the failed alternatives before it,
the last round of a repetition, an optional part that is absent and whatever
stands under a negation have no part in the list. What a rule hands to its action
is that list (`Rule.invoke_binds`).
-/

namespace RubyIndent.Peg

open RubyIndent.Text

variable {Ctx : Type} {text : List Char} {g : Grammar Ctx}

/-! ## Going back -/

structure State.BackAt (t s : State Ctx text) : Prop where
  cursor : t.cursor = s.cursor
  frame : t.frame = s.frame
  quiet : t.quiet = s.quiet

/-- A task that cleans up behind itself when it fails. -/
def Task.Atomic : Task Ctx text → Prop
  | .all _ => False
  | _ => True

@[simp] theorem State.quiet_recordFailure (s : State Ctx text) (id : RuleId)
    (c : Cursor text) : (s.recordFailure id c).quiet = s.quiet := by
  unfold State.recordFailure
  repeat' split
  all_goals rfl

/-- The depth of lookahead is the same at the end as at the start. -/
theorem Evaluates.quiet_eq {task : Task Ctx text} {s t : State Ctx text}
    {v : Option (Value (Cursor text))} (h : Evaluates g task s v t) :
    t.quiet = s.quiet := by
  induction h with
  | not_some _ ih | not_none _ ih =>
    show _ - 1 = _
    rw [ih, Nat.add_sub_cancel]
  | apply_failed _ _ => exact State.quiet_recordFailure ..
  | invoke_none _ ih => exact (State.quiet_recordFailure ..).trans ih
  | many_more _ _ _ ih ih' | all_cons _ _ ih ih' | first_none _ _ ih ih'
  | apply_grown _ _ _ _ _ ih ih' | grow_more _ _ _ ih ih' => exact ih'.trans ih
  | sequence_some _ ih | sequence_none _ ih | choice _ ih | many_idle _ _ ih
  | many_none _ ih | optional_some _ ih | optional_none _ ih | label_some _ ih
  | label_none _ ih | rule _ ih | all_none _ ih | first_some _ ih
  | apply_none _ _ _ ih | apply_some _ _ _ _ ih | invoke_value _ _ ih
  | invoke_action _ _ ih | grow_none _ ih | grow_idle _ _ ih => exact ih
  | _ => rfl

/-- What fails goes back to where it began. -/
theorem Evaluates.view_of_none {task : Task Ctx text} {s t : State Ctx text}
    (h : Evaluates g task s none t) (htask : task.Atomic) : t.view = s.view := by
  generalize hv : (none : Option (Value (Cursor text))) = v at h
  induction h with
  | sequence_none _ _ | not_some _ _ => rfl
  | choice _ ih | label_none _ ih | rule _ ih => exact ih trivial hv
  | first_none _ _ _ ih' => exact ih' trivial hv
  | apply_failed _ _ => exact State.view_recordFailure ..
  | apply_none _ _ _ ih => exact ih trivial hv
  | apply_grown _ _ _ _ hgrow _ _ => exact absurd hv.symm hgrow.grow_ne_none
  | invoke_none _ _ => exact State.view_recordFailure ..
  | grow_more _ _ hrest _ _ => exact absurd hv.symm hrest.grow_ne_none
  | all_cons _ _ _ _ | all_none _ _ => exact htask.elim
  | literal_none _ | pattern_none _ | predicate_false _ | first_nil
  | apply_open _ _ | apply_unknown _ _ => rfl
  | _ => cases hv

theorem Evaluates.backAt {task : Task Ctx text} {s t : State Ctx text}
    (h : Evaluates g task s none t) (htask : task.Atomic) : t.BackAt s where
  cursor := congrArg View.cursor (h.view_of_none htask)
  frame := congrArg View.frame (h.view_of_none htask)
  quiet := h.quiet_eq

/-- A negation goes back whether it matches or not. -/
theorem Evaluates.backAt_not {e : Expr Ctx} {s t : State Ctx text}
    {v : Option (Value (Cursor text))} (h : Evaluates g (.expr (.not e)) s v t) :
    t.BackAt s := by
  have hquiet := h.quiet_eq
  cases h with
  | not_some _ => exact ⟨rfl, rfl, hquiet⟩
  | not_none _ => exact ⟨rfl, rfl, hquiet⟩

/-- A rule leaves the bindings around it alone. -/
theorem Evaluates.frame_of_apply {id : RuleId} {s t : State Ctx text}
    {v : Option (Value (Cursor text))} (h : Evaluates g (.apply id) s v t) :
    t.frame = s.frame :=
  h.frame_eq trivial

/-! ## What is bound on the branch that matched -/

/-- The expression has no bindings of its own: nothing in it can bind, or what is
in it binds elsewhere. -/
def Expr.Bare : Expr Ctx → Prop
  | .literal _ | .pattern _ | .predicate _ | .not _ | .rule _ => True
  | _ => False

/-- A task matches, and this is what is bound on the branch that matched, from
first to last. -/
inductive Binds (g : Grammar Ctx) : Task Ctx text → State Ctx text →
    Value (Cursor text) → State Ctx text → Labels text → Prop where
  | bare {e s v t} (he : e.Bare) (h : Evaluates g (.expr e) s (some v) t) :
    Binds g (.expr e) s v t []
  | sequence {es s v t ls} (h : Binds g (.all es) s v t ls) :
    Binds g (.expr (.sequence es)) s (.span s.cursor t.cursor) t ls
  | choice {es s v t ls} (h : Binds g (.first es) s v t ls) :
    Binds g (.expr (.choice es)) s v t ls
  | many_more {e s v t u ls ls'} (h : Binds g (.expr e) s v t ls)
      (hlt : s.cursor.index < t.cursor.index)
      (hrest : Binds g (.expr (.many e)) t (.span t.cursor u.cursor) u ls') :
    Binds g (.expr (.many e)) s (.span s.cursor u.cursor) u (ls ++ ls')
  /-- A last round that takes no text counts. -/
  | many_idle {e s v t ls} (h : Binds g (.expr e) s v t ls)
      (hle : ¬ s.cursor.index < t.cursor.index) :
    Binds g (.expr (.many e)) s (.span s.cursor t.cursor) t ls
  | many_none {e s t} (h : Evaluates g (.expr e) s none t) :
    Binds g (.expr (.many e)) s (.span s.cursor s.cursor) (t.rewind s) []
  | optional_some {e s v t ls} (h : Binds g (.expr e) s v t ls) :
    Binds g (.expr (.optional e)) s (.span s.cursor t.cursor) t ls
  | optional_none {e s t} (h : Evaluates g (.expr e) s none t) :
    Binds g (.expr (.optional e)) s (.span s.cursor s.cursor) (t.rewind s) []
  /-- A name is bound after what is bound below it. -/
  | label {name e s v t ls} (h : Binds g (.expr e) s v t ls) :
    Binds g (.expr (.label name e)) s v (t.bindLabel name v) (ls ++ [(name, v)])
  | all_nil {s} : Binds g (.all []) s (.span s.cursor s.cursor) s []
  | all_cons {e es s v t w u ls ls'} (h : Binds g (.expr e) s v t ls)
      (hrest : Binds g (.all es) t w u ls') :
    Binds g (.all (e :: es)) s w u (ls ++ ls')
  | first_here {e es s v t ls} (h : Binds g (.expr e) s v t ls) :
    Binds g (.first (e :: es)) s v t ls
  | first_later {e es s t w u ls} (h : Evaluates g (.expr e) s none t)
      (hrest : Binds g (.first es) (t.rewind s) w u ls) :
    Binds g (.first (e :: es)) s w u ls

def Task.Inner : Task Ctx text → Prop
  | .expr _ | .all _ | .first _ => True
  | _ => False

/-- Whatever matches does so on a branch. -/
theorem Evaluates.binds {task : Task Ctx text} {s t : State Ctx text}
    {v : Value (Cursor text)} (h : Evaluates g task s (some v) t)
    (htask : task.Inner) : ∃ ls, Binds g task s v t ls := by
  generalize hw : some v = w at h
  induction h generalizing v with
  | literal_some h => cases hw; exact ⟨[], .bare trivial (.literal_some h)⟩
  | pattern_some h => cases hw; exact ⟨[], .bare trivial (.pattern_some h)⟩
  | predicate_true h => cases hw; exact ⟨[], .bare trivial (.predicate_true h)⟩
  | not_none h => cases hw; exact ⟨[], .bare trivial (.not_none h)⟩
  | rule h => cases hw; exact ⟨[], .bare trivial (.rule h)⟩
  | sequence_some _ ih =>
    cases hw
    exact (ih trivial rfl).imp fun _ h => .sequence h
  | choice _ ih =>
    cases hw
    exact (ih trivial rfl).imp fun _ h => .choice h
  | many_more _ hlt _ ih ih' =>
    cases hw
    obtain ⟨ls, h⟩ := ih trivial rfl
    obtain ⟨ls', h'⟩ := ih' trivial rfl
    exact ⟨ls ++ ls', .many_more h hlt h'⟩
  | many_idle _ hle ih =>
    cases hw
    exact (ih trivial rfl).imp fun _ h => .many_idle h hle
  | many_none h => cases hw; exact ⟨[], .many_none h⟩
  | optional_some _ ih =>
    cases hw
    exact (ih trivial rfl).imp fun _ h => .optional_some h
  | optional_none h => cases hw; exact ⟨[], .optional_none h⟩
  | label_some _ ih =>
    cases hw
    obtain ⟨ls, h⟩ := ih trivial rfl
    exact ⟨_, .label h⟩
  | all_nil => cases hw; exact ⟨[], .all_nil⟩
  | all_cons _ _ ih ih' =>
    cases hw
    obtain ⟨ls, h⟩ := ih trivial rfl
    obtain ⟨ls', h'⟩ := ih' trivial rfl
    exact ⟨ls ++ ls', .all_cons h h'⟩
  | first_some _ ih =>
    cases hw
    exact (ih trivial rfl).imp fun _ h => .first_here h
  | first_none h _ _ ih' =>
    cases hw
    exact (ih' trivial rfl).imp fun _ h' => .first_later h h'
  | apply_matched _ _ | apply_some _ _ _ _ _ | apply_grown _ _ _ _ _ _ _
  | invoke_value _ _ _ | invoke_action _ _ _ | grow_none _ _ | grow_idle _ _ _
  | grow_more _ _ _ _ _ => exact htask.elim
  | _ => cases hw

/-- An expression without bindings of its own adds none. -/
theorem Evaluates.frame_of_bare {e : Expr Ctx} {s t : State Ctx text}
    {v : Option (Value (Cursor text))} (h : Evaluates g (.expr e) s v t)
    (he : e.Bare) : t.frame = s.frame := by
  cases e with
  | literal _ | pattern _ | predicate _ => cases h <;> rfl
  | not _ => exact h.backAt_not.frame
  | rule id =>
    cases h with
    | rule h => exact h.frame_of_apply
  | _ => exact he.elim

/-- What is bound on the branch comes on top of what was bound before, and nothing
else does. -/
theorem Binds.labels {task : Task Ctx text} {s t : State Ctx text}
    {v : Value (Cursor text)} {ls : Labels text} (h : Binds g task s v t ls) :
    t.frame.labels = ls.reverse ++ s.frame.labels := by
  induction h with
  | bare he h => exact congrArg Frame.labels (h.frame_of_bare he)
  | many_more _ _ _ ih ih' | all_cons _ _ ih ih' =>
    rw [ih', ih, List.reverse_append, List.append_assoc]
  | label _ ih =>
    show _ :: _ = _
    rw [ih, List.reverse_append]
    rfl
  | sequence _ ih | choice _ ih | many_idle _ _ ih | optional_some _ ih
  | first_here _ ih | first_later _ _ ih => exact ih
  | many_none _ | optional_none _ | all_nil => rfl

/-! ## What an action sees -/

/-- A rule whose body matches hands to its action the match, and what is bound on
the branch that matched. -/
theorem Rule.invoke_binds {base s : State Ctx text} {rule : Rule Ctx} {id : RuleId}
    {action : Action Ctx} {v : Value (Cursor text)}
    (h : base.memo.Extends s.memo) (ha : rule.action = some action)
    (hv : (rule.invoke id (fun id t _ => t.apply g id) s h).value = some v) :
    ∃ w u ls, Binds g (.expr rule.body) s.opened w u ls ∧
      v = .text (action ⟨text, s.cursor, u.cursor, ls.reverse⟩ u.context).1 ∧
      (rule.invoke id (fun id t _ => t.apply g id) s h).state = { u with
        frame := s.frame
        context := (action ⟨text, s.cursor, u.cursor, ls.reverse⟩ u.context).2 } := by
  have hfollows := rule.invoke_follows (g := g)
    (fun id t _ => t.apply_evaluates g id) id s h
  have he := hfollows.of_some hv
  generalize (rule.invoke id (fun id t _ => t.apply g id) s h).state = t at he
  cases he with
  | invoke_value ha' _ => cases ha.symm.trans ha'
  | @invoke_action _ _ _ w u action' ha' hbody =>
    cases ha.symm.trans ha'
    obtain ⟨ls, hbinds⟩ := hbody.binds trivial
    have hlabels := hbinds.labels
    have hstart := hbody.frame_start
    have hcaps : u.captures = ⟨text, s.cursor, u.cursor, ls.reverse⟩ := by
      have hnone : s.opened.frame.labels = [] := rfl
      rw [hnone, List.append_nil] at hlabels
      simp only [State.captures, hlabels, hstart]
      rfl
    refine ⟨w, u, ls, hbinds, ?_, ?_⟩
    · rw [hcaps]
    · rw [hcaps]

/-- What an attempt leaves behind, in every grammar and in every state. If it fails,
the cursor, the bindings and the depth of lookahead are as they were, and a negation
leaves them so in either case. If it matches, exactly what is bound on the branch
that matched has been bound in addition, and an action sees that and nothing else. -/
theorem attempts_are_atomic (g : Grammar Ctx) :
    (∀ (e : Expr Ctx) (s : State Ctx text), (s.eval g e).value = none →
      (s.eval g e).state.BackAt s) ∧
    (∀ (id : RuleId) (s : State Ctx text), (s.apply g id).value = none →
      (s.apply g id).state.BackAt s) ∧
    (∀ (e : Expr Ctx) (s : State Ctx text),
      (s.eval g e.not).state.BackAt s ∧ (s.eval g e.and).state.BackAt s) ∧
    (∀ (e : Expr Ctx) (s : State Ctx text) (v : Value (Cursor text)),
      (s.eval g e).value = some v →
        ∃ ls, Binds g (.expr e) s v (s.eval g e).state ls ∧
          (s.eval g e).state.frame
            = ⟨s.frame.start, ls.reverse ++ s.frame.labels⟩ ∧
          (s.eval g e).state.quiet = s.quiet) ∧
    (∀ (id : RuleId) (s : State Ctx text),
      (s.apply g id).state.frame = s.frame ∧
        (s.apply g id).state.quiet = s.quiet) ∧
    (∀ (id : RuleId) (rule : Rule Ctx) (action : Action Ctx)
      (base s : State Ctx text) (h : base.memo.Extends s.memo)
      (v : Value (Cursor text)), rule.action = some action →
      (rule.invoke id (fun id t _ => t.apply g id) s h).value = some v →
      ∃ w u ls, Binds g (.expr rule.body) s.opened w u ls ∧
        v = .text (action ⟨text, s.cursor, u.cursor, ls.reverse⟩ u.context).1 ∧
        (rule.invoke id (fun id t _ => t.apply g id) s h).state = { u with
          frame := s.frame
          context :=
            (action ⟨text, s.cursor, u.cursor, ls.reverse⟩ u.context).2 }) := by
  refine ⟨?_, ?_, ?_, ?_, ?_, ?_⟩
  · intro e s hnone
    have he := s.eval_evaluates g e
    rw [hnone] at he
    exact he.backAt trivial
  · intro id s hnone
    have he := s.apply_evaluates g id
    rw [hnone] at he
    exact he.backAt trivial
  · intro e s
    exact ⟨(s.eval_evaluates g e.not).backAt_not,
      (s.eval_evaluates g e.and).backAt_not⟩
  · intro e s v hv
    have he := s.eval_evaluates g e
    rw [hv] at he
    obtain ⟨ls, hbinds⟩ := he.binds trivial
    refine ⟨ls, hbinds, ?_, he.quiet_eq⟩
    rw [← hbinds.labels, ← he.frame_start]
  · intro id s
    have he := s.apply_evaluates g id
    exact ⟨he.frame_of_apply, he.quiet_eq⟩
  · intro id rule action base s h v ha hv
    exact rule.invoke_binds h ha hv

/-- A rule that names what is bound. On the way it gives up an alternative with
`a`, an optional part with `c`, a look ahead with `d` and a second round with `e`;
the one round with `f` takes no text. -/
def namingRule : Rule Unit where
  name := "names"
  body := .sequence [
    .choice [.sequence [.label "a" (.literal "x"), .literal "y"],
      .label "b" (.literal "x")],
    .optional (.sequence [.label "c" (.literal "x"), .literal "y"]),
    .not (.sequence [.label "d" (.literal "x"), .literal "y"]),
    .many (.label "e" (.literal "x")),
    .many (.label "f" (.literal ""))]
  action := some fun caps =>
    pure (" ".intercalate (caps.labels.reverse.map Prod.fst))

/-- On `"xx"` the action sees `b`, `e` and `f`, in this order. -/
theorem attempts_are_atomic_naming :
    ∃ w u ls, Binds ⟨#[namingRule]⟩ (.expr namingRule.body)
        (State.start ['x', 'x'] ()).opened w u ls ∧
      " ".intercalate (ls.map Prod.fst) = "b e f" := by
  obtain ⟨-, -, -, -, -, hacts⟩ :=
    @attempts_are_atomic Unit ['x', 'x'] ⟨#[namingRule]⟩
  have htext : (namingRule.invoke 0
      (fun id t _ => t.apply ⟨#[namingRule]⟩ id) (State.start ['x', 'x'] ())
      (State.start ['x', 'x'] ()).extends_self).value.map Value.toString
      = some "b e f" := by
    decide +kernel
  obtain ⟨v, hv, htext⟩ := Option.map_eq_some_iff.1 htext
  obtain ⟨w, u, ls, hbinds, rfl, -⟩ := hacts 0 namingRule _ _ _ _ v rfl hv
  have hseen : " ".intercalate (ls.reverse.reverse.map Prod.fst) = "b e f" := htext
  rw [List.reverse_reverse] at hseen
  exact ⟨w, u, ls, hbinds, hseen⟩

end RubyIndent.Peg
