import RubyIndent.Peg.Parse

/-!
# Evaluation, step by step

What the evaluator does, as one relation. `Evaluates g task s v t` says that
`task`, begun in state `s`, ends in state `t` with value `v`; there is one rule
for each way in which a task can end. The evaluator itself is a function that
carries its termination argument along, and `State.apply_evaluates` says that
the relation holds of it. Everything else about the evaluator is proved from
the rules, by induction on how a result came about.
-/

namespace RubyIndent.Peg

open RubyIndent.Text

/-- What there is to evaluate: an expression, expressions in a row, expressions
up to the first match, a rule through the table, a rule's body with its action,
or a match that may grow. -/
inductive Task (Ctx : Type) (text : List Char) where
  | expr (e : Expr Ctx)
  | all (es : List (Expr Ctx))
  | first (es : List (Expr Ctx))
  | apply (id : RuleId)
  | invoke (id : RuleId) (rule : Rule Ctx)
  | grow (id : RuleId) (rule : Rule Ctx) (start stop : Cursor text)
      (value : Value (Cursor text))

variable {Ctx : Type} {text : List Char}

def State.entered (s : State Ctx text) (id : RuleId) : State Ctx text :=
  { s with memo := s.memo.enter (id, s.cursor) }

def State.settle (s : State Ctx text) (v : Visit (Cursor text))
    (o : Outcome (Cursor text)) : State Ctx text :=
  { s with memo := s.memo.setOutcome v o }

/-- A state with no bindings, for a rule that starts at the cursor. -/
def State.opened (s : State Ctx text) : State Ctx text :=
  { s with frame := { start := s.cursor } }

/-- The state in which a match is tried once more from its start. -/
def State.regrown (s : State Ctx text) (start : Cursor text) :
    State Ctx text :=
  { s with cursor := start, growthRounds := s.growthRounds + 1 }

inductive Evaluates (g : Grammar Ctx) : Task Ctx text → State Ctx text →
    Option (Value (Cursor text)) → State Ctx text → Prop where
  | literal_some {w s} (h : w.toList.isPrefixOf s.cursor.rest = true) :
    Evaluates g (.expr (.literal w)) s
      (some (.span s.cursor (s.cursor.skip w.length)))
      { s with cursor := s.cursor.skip w.length }
  | literal_none {w s} (h : w.toList.isPrefixOf s.cursor.rest = false) :
    Evaluates g (.expr (.literal w)) s none s
  | pattern_some {p s n} (h : p.regex.matchLength? s.cursor.rest = some n) :
    Evaluates g (.expr (.pattern p)) s
      (some (.span s.cursor (s.cursor.skip n)))
      { s with cursor := s.cursor.skip n }
  | pattern_none {p s} (h : p.regex.matchLength? s.cursor.rest = none) :
    Evaluates g (.expr (.pattern p)) s none s
  | sequence_some {es s v t} (h : Evaluates g (.all es) s (some v) t) :
    Evaluates g (.expr (.sequence es)) s (some (.span s.cursor t.cursor)) t
  | sequence_none {es s t} (h : Evaluates g (.all es) s none t) :
    Evaluates g (.expr (.sequence es)) s none (t.rewind s)
  | choice {es s v t} (h : Evaluates g (.first es) s v t) :
    Evaluates g (.expr (.choice es)) s v t
  | many_more {e s v t u} (h : Evaluates g (.expr e) s (some v) t)
      (hlt : s.cursor.index < t.cursor.index)
      (hrest : Evaluates g (.expr (.many e)) t
        (some (.span t.cursor u.cursor)) u) :
    Evaluates g (.expr (.many e)) s (some (.span s.cursor u.cursor)) u
  | many_idle {e s v t} (h : Evaluates g (.expr e) s (some v) t)
      (hle : ¬ s.cursor.index < t.cursor.index) :
    Evaluates g (.expr (.many e)) s (some (.span s.cursor t.cursor)) t
  | many_none {e s t} (h : Evaluates g (.expr e) s none t) :
    Evaluates g (.expr (.many e)) s (some (.span s.cursor s.cursor))
      (t.rewind s)
  | optional_some {e s v t} (h : Evaluates g (.expr e) s (some v) t) :
    Evaluates g (.expr (.optional e)) s (some (.span s.cursor t.cursor)) t
  | optional_none {e s t} (h : Evaluates g (.expr e) s none t) :
    Evaluates g (.expr (.optional e)) s (some (.span s.cursor s.cursor))
      (t.rewind s)
  | not_some {e s v t}
      (h : Evaluates g (.expr e) { s with quiet := s.quiet + 1 } (some v) t) :
    Evaluates g (.expr (.not e)) s none
      { t.rewind s with quiet := t.quiet - 1 }
  | not_none {e s t}
      (h : Evaluates g (.expr e) { s with quiet := s.quiet + 1 } none t) :
    Evaluates g (.expr (.not e)) s (some (.span s.cursor s.cursor))
      { t.rewind s with quiet := t.quiet - 1 }
  | predicate_true {check s} (h : check s.captures s.context = true) :
    Evaluates g (.expr (.predicate check)) s
      (some (.span s.cursor s.cursor)) s
  | predicate_false {check s} (h : check s.captures s.context = false) :
    Evaluates g (.expr (.predicate check)) s none s
  | label_some {name e s v t} (h : Evaluates g (.expr e) s (some v) t) :
    Evaluates g (.expr (.label name e)) s (some v) (t.bindLabel name v)
  | label_none {name e s t} (h : Evaluates g (.expr e) s none t) :
    Evaluates g (.expr (.label name e)) s none t
  | rule {id s v t} (h : Evaluates g (.apply id) s v t) :
    Evaluates g (.expr (.rule id)) s v t
  | all_nil {s} :
    Evaluates g (.all []) s (some (.span s.cursor s.cursor)) s
  | all_cons {e es s v t w u} (h : Evaluates g (.expr e) s (some v) t)
      (hrest : Evaluates g (.all es) t w u) :
    Evaluates g (.all (e :: es)) s w u
  | all_none {e es s t} (h : Evaluates g (.expr e) s none t) :
    Evaluates g (.all (e :: es)) s none t
  | first_nil {s} : Evaluates g (.first []) s none s
  | first_some {e es s v t} (h : Evaluates g (.expr e) s (some v) t) :
    Evaluates g (.first (e :: es)) s (some v) t
  | first_none {e es s t w u} (h : Evaluates g (.expr e) s none t)
      (hrest : Evaluates g (.first es) (t.rewind s) w u) :
    Evaluates g (.first (e :: es)) s w u
  | apply_open {id s entry memo d}
      (hl : s.memo.lookup? (id, s.cursor) = some (entry, memo))
      (ho : entry.outcome = .inProgress d) :
    Evaluates g (.apply id) s none
      { s with memo := memo.markDetected (id, s.cursor) }
  | apply_failed {id s entry memo}
      (hl : s.memo.lookup? (id, s.cursor) = some (entry, memo))
      (ho : entry.outcome = .failure) :
    Evaluates g (.apply id) s none ({ s with memo }.recordFailure id s.cursor)
  | apply_matched {id s entry memo stop v}
      (hl : s.memo.lookup? (id, s.cursor) = some (entry, memo))
      (ho : entry.outcome = .success stop v) :
    Evaluates g (.apply id) s (some v) { s with memo, cursor := stop }
  | apply_unknown {id s} (hl : s.memo.lookup? (id, s.cursor) = none)
      (hr : g.rule? id = none) :
    Evaluates g (.apply id) s none s
  | apply_none {id s rule t} (hl : s.memo.lookup? (id, s.cursor) = none)
      (hr : g.rule? id = some rule)
      (h : Evaluates g (.invoke id rule) (s.entered id) none t) :
    Evaluates g (.apply id) s none (t.settle (id, s.cursor) .failure)
  | apply_some {id s rule v t} (hl : s.memo.lookup? (id, s.cursor) = none)
      (hr : g.rule? id = some rule)
      (h : Evaluates g (.invoke id rule) (s.entered id) (some v) t)
      (hd : t.memo.detected (id, s.cursor) = false) :
    Evaluates g (.apply id) s (some v)
      (t.settle (id, s.cursor) (.success t.cursor v))
  | apply_grown {id s rule v t w u}
      (hl : s.memo.lookup? (id, s.cursor) = none)
      (hr : g.rule? id = some rule)
      (h : Evaluates g (.invoke id rule) (s.entered id) (some v) t)
      (hd : t.memo.detected (id, s.cursor) = true)
      (hgrow : Evaluates g (.grow id rule s.cursor t.cursor v)
        (t.settle (id, s.cursor) (.success t.cursor v)) w u) :
    Evaluates g (.apply id) s w u
  | invoke_none {id rule s t}
      (h : Evaluates g (.expr rule.body) s.opened none t) :
    Evaluates g (.invoke id rule) s none
      ((t.rewind s).recordFailure id s.cursor)
  | invoke_value {id rule s v t} (ha : rule.action = none)
      (h : Evaluates g (.expr rule.body) s.opened (some v) t) :
    Evaluates g (.invoke id rule) s (some v) { t with frame := s.frame }
  | invoke_action {id rule s v t action} (ha : rule.action = some action)
      (h : Evaluates g (.expr rule.body) s.opened (some v) t) :
    Evaluates g (.invoke id rule) s
      (some (.text (action t.captures t.context).1))
      { t with frame := s.frame, context := (action t.captures t.context).2 }
  | grow_none {id rule start stop value s t}
      (h : Evaluates g (.invoke id rule) (s.regrown start) none t) :
    Evaluates g (.grow id rule start stop value) s (some value)
      { t with cursor := stop }
  | grow_idle {id rule start stop value s v t}
      (h : Evaluates g (.invoke id rule) (s.regrown start) (some v) t)
      (hle : ¬ stop.index < t.cursor.index) :
    Evaluates g (.grow id rule start stop value) s (some value)
      { t with cursor := stop }
  | grow_more {id rule start stop value s v t w u}
      (h : Evaluates g (.invoke id rule) (s.regrown start) (some v) t)
      (hlt : stop.index < t.cursor.index)
      (hrest : Evaluates g (.grow id rule start t.cursor v)
        (t.settle (id, start) (.success t.cursor v)) w u) :
    Evaluates g (.grow id rule start stop value) s w u

/-! ## The evaluator follows the rules -/

def Step.Follows {s : State Ctx text} (g : Grammar Ctx) (task : Task Ctx text)
    (r : Step s) : Prop :=
  Evaluates g task s r.value r.state

theorem Step.Follows.of_some {g : Grammar Ctx} {task : Task Ctx text}
    {s : State Ctx text} {r : Step s} {v : Value (Cursor text)}
    (h : r.Follows g task) (hv : r.value = some v) :
    Evaluates g task s (some v) r.state :=
  hv ▸ h

theorem Step.Follows.of_none {g : Grammar Ctx} {task : Task Ctx text}
    {s : State Ctx text} {r : Step s} (h : r.Follows g task)
    (hv : r.value = none) : Evaluates g task s none r.state :=
  hv ▸ h

/-- A step either matched with a value or did not. -/
theorem Step.matched_cases {s : State Ctx text} (r : Step s) :
    (∃ v, r.value = some v ∧ r.matched = true) ∨
      r.value = none ∧ r.matched = false := by
  unfold Step.matched
  cases hv : r.value with
  | none => exact .inr ⟨rfl, rfl⟩
  | some v => exact .inl ⟨v, rfl, rfl⟩

section

variable {g : Grammar Ctx} {base : State Ctx text}

theorem manyFrom_evaluates {e : Expr Ctx} {round : Round base}
    (hround : ∀ s h, (round s h).Follows g (.expr e)) (s : State Ctx text)
    (h : base.memo.Extends s.memo) :
    Evaluates g (.expr (.many e)) s
      (some (.span s.cursor (manyFrom round s h).val.cursor))
      (manyFrom round s h).val := by
  fun_induction manyFrom round s h with
  | case1 s h r hm hlt _ ih =>
    obtain ⟨v, hv⟩ := Option.isSome_iff_exists.1 hm
    exact .many_more ((hround s h).of_some hv) hlt ih
  | case2 s h r hm hle =>
    obtain ⟨v, hv⟩ := Option.isSome_iff_exists.1 hm
    exact .many_idle ((hround s h).of_some hv) hle
  | case3 s h r hm =>
    have hv : r.value = none := Option.not_isSome_iff_eq_none.1 hm
    exact .many_none ((hround s h).of_none hv)

variable {app : Apply base}

mutual

/-- Evaluation follows the rules, if what it is given for rule references
does. -/
theorem Expr.eval_follows
    (happ : ∀ id s h, (app id s h).Follows g (.apply id)) :
    ∀ (e : Expr Ctx) (s : State Ctx text) (h : base.memo.Extends s.memo),
      (e.eval app s h).Follows g (.expr e)
  | .literal w, s, h => by
    unfold Expr.eval
    split
    · exact .literal_some (by assumption)
    · exact .literal_none (Bool.eq_false_iff.2 (by assumption))
  | .pattern p, s, h => by
    unfold Expr.eval
    split
    · exact .pattern_some (by assumption)
    · exact .pattern_none (by assumption)
  | .sequence es, s, h => by
    have ih := evalAll_follows happ es s h
    unfold Expr.eval
    rcases (evalAll app es s h).matched_cases with ⟨v, hv, hm⟩ | ⟨hv, hm⟩
    · simp only [hm, if_true]
      exact .sequence_some (ih.of_some hv)
    · simp only [hm]
      exact .sequence_none (ih.of_none hv)
  | .choice es, s, h => by
    unfold Expr.eval
    exact .choice (evalFirst_follows happ es s h)
  | .many e, s, h => by
    unfold Expr.eval
    exact manyFrom_evaluates (fun t ht => e.eval_follows happ t (h.trans ht)) s
      s.extends_self
  | .optional e, s, h => by
    have ih := e.eval_follows happ s h
    unfold Expr.eval
    rcases (e.eval app s h).matched_cases with ⟨v, hv, hm⟩ | ⟨hv, hm⟩
    · simp only [hm, if_true]
      exact .optional_some (ih.of_some hv)
    · simp only [hm]
      exact .optional_none (ih.of_none hv)
  | .not e, s, h => by
    have ih := e.eval_follows happ { s with quiet := s.quiet + 1 } h
    unfold Expr.eval
    rcases (e.eval app { s with quiet := s.quiet + 1 } h).matched_cases with
      ⟨v, hv, hm⟩ | ⟨hv, hm⟩
    · simp only [hm, if_true]
      exact .not_some (ih.of_some hv)
    · simp only [hm]
      exact .not_none (ih.of_none hv)
  | .predicate check, s, h => by
    unfold Expr.eval
    split
    · exact .predicate_true (by assumption)
    · exact .predicate_false (Bool.eq_false_iff.2 (by assumption))
  | .label name e, s, h => by
    have ih := e.eval_follows happ s h
    unfold Expr.eval
    dsimp only
    split
    · exact .label_some (ih.of_some (by assumption))
    · rename_i hv
      unfold Step.Follows
      exact hv ▸ .label_none (ih.of_none hv)
  | .rule id, s, h => by
    unfold Expr.eval
    exact .rule (happ id s h)

theorem evalAll_follows
    (happ : ∀ id s h, (app id s h).Follows g (.apply id)) :
    ∀ (es : List (Expr Ctx)) (s : State Ctx text)
      (h : base.memo.Extends s.memo), (evalAll app es s h).Follows g (.all es)
  | [], s, h => by
    unfold evalAll
    exact .all_nil
  | e :: es, s, h => by
    have ih := e.eval_follows happ s h
    unfold evalAll
    rcases (e.eval app s h).matched_cases with ⟨v, hv, hm⟩ | ⟨hv, hm⟩
    · simp only [hm, if_true]
      exact .all_cons (ih.of_some hv) (evalAll_follows happ es _ _)
    · simp only [hm, Step.Follows]
      exact hv ▸ .all_none (ih.of_none hv)

theorem evalFirst_follows
    (happ : ∀ id s h, (app id s h).Follows g (.apply id)) :
    ∀ (es : List (Expr Ctx)) (s : State Ctx text)
      (h : base.memo.Extends s.memo),
      (evalFirst app es s h).Follows g (.first es)
  | [], s, h => by
    unfold evalFirst
    exact .first_nil
  | e :: es, s, h => by
    have ih := e.eval_follows happ s h
    unfold evalFirst
    rcases (e.eval app s h).matched_cases with ⟨v, hv, hm⟩ | ⟨hv, hm⟩
    · simp only [hm, if_true, Step.Follows]
      exact hv ▸ .first_some (ih.of_some hv)
    · simp only [hm]
      exact .first_none (ih.of_none hv) (evalFirst_follows happ es _ _)

end

theorem Rule.invoke_follows
    (happ : ∀ id s h, (app id s h).Follows g (.apply id)) (rule : Rule Ctx)
    (id : RuleId) (s : State Ctx text) (h : base.memo.Extends s.memo) :
    (rule.invoke id app s h).Follows g (.invoke id rule) := by
  have ih := rule.body.eval_follows happ s.opened h
  unfold Rule.invoke
  dsimp only
  split
  · exact .invoke_none (ih.of_none (by assumption))
  · split
    · exact .invoke_value (by assumption) (ih.of_some (by assumption))
    · exact .invoke_action (by assumption) (ih.of_some (by assumption))

theorem growFrom_evaluates {round : Round base} {id : RuleId} {rule : Rule Ctx}
    (hround : ∀ s h, (round s h).Follows g (.invoke id rule))
    (start stop : Cursor text) (value : Value (Cursor text))
    (s : State Ctx text) (h : base.memo.Extends s.memo) :
    Evaluates g (.grow id rule start stop value) s
      (growFrom round (id, start) stop value s h).value
      (growFrom round (id, start) stop value s h).state := by
  fun_induction growFrom round (id, start) stop value s h with
  | case1 stop value s h r best hv =>
    exact .grow_none ((hround (s.regrown start) h).of_none hv)
  | case2 stop value s h r v hv hlt _ reached memo ih =>
    exact .grow_more ((hround (s.regrown start) h).of_some hv) hlt ih
  | case3 stop value s h r best v hv hle =>
    exact .grow_idle ((hround (s.regrown start) h).of_some hv) hle

end

/-- A rule that is applied for the first time follows the rules, if the
applications inside it do. -/
theorem Rule.visit_evaluates {g : Grammar Ctx} {id : RuleId} {rule : Rule Ctx}
    {s : State Ctx text} {app : Apply (s.entered id)}
    (happ : ∀ id s h, (app id s h).Follows g (.apply id))
    (hl : s.memo.lookup? (id, s.cursor) = none) (hr : g.rule? id = some rule) :
    Evaluates g (.apply id) s (rule.visit id (s.entered id) app).value
      (rule.visit id (s.entered id) app).state := by
  have ih := rule.invoke_follows happ id (s.entered id)
    (s.entered id).extends_self
  unfold Rule.visit
  dsimp only
  split
  · exact .apply_none hl hr (ih.of_none (by assumption))
  · split
    · refine .apply_grown hl hr (ih.of_some (by assumption)) (by assumption) ?_
      exact growFrom_evaluates (fun t h => rule.invoke_follows happ id t h) ..
    · exact .apply_some hl hr (ih.of_some (by assumption))
        (Bool.eq_false_iff.2 (by assumption))

/-- Applying a rule follows the rules of evaluation. -/
theorem State.apply_evaluates (g : Grammar Ctx) (id : RuleId)
    (s : State Ctx text) :
    Evaluates g (.apply id) s (s.apply g id).value (s.apply g id).state := by
  fun_induction State.apply g id s with
  | case1 id s key entry memo hl _ d ho => exact .apply_open hl ho
  | case2 id s key entry memo hl _ ho => exact .apply_failed hl ho
  | case3 id s key entry memo hl _ stop value ho => exact .apply_matched hl ho
  | case4 id s key hl hr => exact .apply_unknown hl hr
  | case5 id s key hl rule hr entered r ih _ =>
    exact Rule.visit_evaluates ih hl hr

end RubyIndent.Peg
