import RubyIndent.Proofs.Peg.Transparency

/-!
# Applying a rule is plain recursion

`Recurses` is the evaluator without its table: a reference to a rule evaluates
the rule's body, every time, and nothing is remembered but the context. It has
no rule for recursion that does not end. On grammars that do not ask for the
context, applying a rule through the table gives whatever plain recursion
gives, in every state that calls can lead to.
-/

namespace RubyIndent.Peg

open RubyIndent.Text

variable {Ctx : Type} {text : List Char}

/-- Evaluation by plain recursion, from a view and a context. -/
inductive Recurses (g : Grammar Ctx) : Task Ctx text → View text → Ctx →
    Result text → Ctx → Prop where
  | literal_some {w p c} (h : w.toList.isPrefixOf p.cursor.rest = true) :
    Recurses g (.expr (.literal w)) p c
      (some (.span p.cursor (p.cursor.skip w.length),
        p.moveTo (p.cursor.skip w.length))) c
  | literal_none {w p c} (h : w.toList.isPrefixOf p.cursor.rest = false) :
    Recurses g (.expr (.literal w)) p c none c
  | pattern_some {r p c n} (h : r.regex.matchLength? p.cursor.rest = some n) :
    Recurses g (.expr (.pattern r)) p c
      (some (.span p.cursor (p.cursor.skip n), p.moveTo (p.cursor.skip n))) c
  | pattern_none {r p c} (h : r.regex.matchLength? p.cursor.rest = none) :
    Recurses g (.expr (.pattern r)) p c none c
  | sequence_some {es p c v q c'}
      (h : Recurses g (.all es) p c (some (v, q)) c') :
    Recurses g (.expr (.sequence es)) p c
      (some (.span p.cursor q.cursor, q)) c'
  | sequence_none {es p c c'} (h : Recurses g (.all es) p c none c') :
    Recurses g (.expr (.sequence es)) p c none c'
  | choice {es p c o c'} (h : Recurses g (.first es) p c o c') :
    Recurses g (.expr (.choice es)) p c o c'
  | many_more {e p c v q c' w u c''}
      (h : Recurses g (.expr e) p c (some (v, q)) c')
      (hlt : p.cursor.index < q.cursor.index)
      (hrest : Recurses g (.expr (.many e)) q c' (some (w, u)) c'') :
    Recurses g (.expr (.many e)) p c (some (.span p.cursor u.cursor, u)) c''
  | many_idle {e p c v q c'} (h : Recurses g (.expr e) p c (some (v, q)) c')
      (hle : ¬ p.cursor.index < q.cursor.index) :
    Recurses g (.expr (.many e)) p c (some (.span p.cursor q.cursor, q)) c'
  | many_none {e p c c'} (h : Recurses g (.expr e) p c none c') :
    Recurses g (.expr (.many e)) p c (some (.span p.cursor p.cursor, p)) c'
  | optional_some {e p c v q c'}
      (h : Recurses g (.expr e) p c (some (v, q)) c') :
    Recurses g (.expr (.optional e)) p c
      (some (.span p.cursor q.cursor, q)) c'
  | optional_none {e p c c'} (h : Recurses g (.expr e) p c none c') :
    Recurses g (.expr (.optional e)) p c (some (.span p.cursor p.cursor, p)) c'
  | not_some {e p c v q c'} (h : Recurses g (.expr e) p c (some (v, q)) c') :
    Recurses g (.expr (.not e)) p c none c'
  | not_none {e p c c'} (h : Recurses g (.expr e) p c none c') :
    Recurses g (.expr (.not e)) p c (some (.span p.cursor p.cursor, p)) c'
  | predicate_true {check p c} (h : check p.captures c = true) :
    Recurses g (.expr (.predicate check)) p c
      (some (.span p.cursor p.cursor, p)) c
  | predicate_false {check p c} (h : check p.captures c = false) :
    Recurses g (.expr (.predicate check)) p c none c
  | label_some {name e p c v q c'}
      (h : Recurses g (.expr e) p c (some (v, q)) c') :
    Recurses g (.expr (.label name e)) p c (some (v, q.bindLabel name v)) c'
  | label_none {name e p c c'} (h : Recurses g (.expr e) p c none c') :
    Recurses g (.expr (.label name e)) p c none c'
  | rule_none {id p c rule c'} (hr : g.rule? id = some rule)
      (h : Recurses g (.expr rule.body) (.fresh p.cursor) c none c') :
    Recurses g (.expr (.rule id)) p c none c'
  | rule_value {id p c rule v q c'} (hr : g.rule? id = some rule)
      (ha : rule.action = none)
      (h : Recurses g (.expr rule.body) (.fresh p.cursor) c (some (v, q)) c') :
    Recurses g (.expr (.rule id)) p c (some (v, p.moveTo q.cursor)) c'
  | rule_action {id p c rule action v q c'} (hr : g.rule? id = some rule)
      (ha : rule.action = some action)
      (h : Recurses g (.expr rule.body) (.fresh p.cursor) c (some (v, q)) c') :
    Recurses g (.expr (.rule id)) p c
      (some (.text (action q.captures c').1, p.moveTo q.cursor))
      (action q.captures c').2
  | all_nil {p c} :
    Recurses g (.all []) p c (some (.span p.cursor p.cursor, p)) c
  | all_cons {e es p c v q c' o c''}
      (h : Recurses g (.expr e) p c (some (v, q)) c')
      (hrest : Recurses g (.all es) q c' o c'') :
    Recurses g (.all (e :: es)) p c o c''
  | all_none {e es p c c'} (h : Recurses g (.expr e) p c none c') :
    Recurses g (.all (e :: es)) p c none c'
  | first_nil {p c} : Recurses g (.first []) p c none c
  | first_some {e es p c r c'} (h : Recurses g (.expr e) p c (some r) c') :
    Recurses g (.first (e :: es)) p c (some r) c'
  | first_none {e es p c c' o c''} (h : Recurses g (.expr e) p c none c')
      (hrest : Recurses g (.first es) p c' o c'') :
    Recurses g (.first (e :: es)) p c o c''

/-! ## Grammars that do not ask for the context -/

mutual

def Expr.ContextFree : Expr Ctx → Prop
  | .literal _ | .pattern _ | .rule _ => True
  | .sequence es | .choice es => AllContextFree es
  | .many e | .optional e | .not e | .label _ e => e.ContextFree
  | .predicate check => ∀ caps c c', check caps c = check caps c'

def AllContextFree : List (Expr Ctx) → Prop
  | [] => True
  | e :: es => e.ContextFree ∧ AllContextFree es

end

/-- No predicate depends on the context, nor the text of an action. Actions may
still change the context. -/
def Grammar.ContextFree (g : Grammar Ctx) : Prop :=
  ∀ id rule, g.rule? id = some rule → rule.body.ContextFree ∧
    ∀ action, rule.action = some action →
      ∀ caps c c', (action caps c).1 = (action caps c').1

def Task.ContextFree : Task Ctx text → Prop
  | .expr e => e.ContextFree
  | .all es | .first es => AllContextFree es
  | _ => True

/-- On such grammars plain recursion gives expressions their meaning. -/
theorem Recurses.denotes {g : Grammar Ctx} (hg : g.ContextFree)
    {task : Task Ctx text} {p : View text} {c c' : Ctx} {o : Result text}
    (h : Recurses g task p c o c') (htask : task.ContextFree) :
    Denotes (Settled g fun _ => True) task p o := by
  induction h with
  | literal_some h => exact .literal_some h
  | literal_none h => exact .literal_none h
  | pattern_some h => exact .pattern_some h
  | pattern_none h => exact .pattern_none h
  | sequence_some _ ih => exact .sequence_some (ih htask)
  | sequence_none _ ih => exact .sequence_none (ih htask)
  | choice _ ih => exact .choice (ih htask)
  | many_more _ hlt _ ih ih' => exact .many_more (ih htask) hlt (ih' htask)
  | many_idle _ hle ih => exact .many_idle (ih htask) hle
  | many_none _ ih => exact .many_none (ih htask)
  | optional_some _ ih => exact .optional_some (ih htask)
  | optional_none _ ih => exact .optional_none (ih htask)
  | not_some _ ih => exact .not_some (ih htask)
  | not_none _ ih => exact .not_none (ih htask)
  | predicate_true h => exact .predicate_true fun _ => (htask ..).trans h
  | predicate_false h => exact .predicate_false fun _ => (htask ..).trans h
  | label_some _ ih => exact .label_some (ih htask)
  | label_none _ ih => exact .label_none (ih htask)
  | rule_none hr _ ih =>
    exact .rule_none (.intro trivial hr ⟨none, ih (hg _ _ hr).1, .none⟩)
  | rule_value hr ha _ ih =>
    exact .rule_some (.intro trivial hr ⟨_, ih (hg _ _ hr).1, .value ha⟩)
  | rule_action hr ha _ ih =>
    exact .rule_some (.intro trivial hr
      ⟨_, ih (hg _ _ hr).1, .action ha fun _ => (hg _ _ hr).2 _ ha ..⟩)
  | all_nil => exact .all_nil
  | all_cons _ _ ih ih' => exact .all_cons (ih htask.1) (ih' htask.2)
  | all_none _ ih => exact .all_none (ih htask.1)
  | first_nil => exact .first_nil
  | first_some _ ih => exact .first_some (ih htask.1)
  | first_none _ _ ih ih' => exact .first_none (ih htask.1) (ih' htask.2)

/-! ## The states that calls lead to -/

/-- The states that a parse passes through between its calls. The context may
be changed from outside. -/
inductive State.Reachable (g : Grammar Ctx) : State Ctx text → Prop where
  | start (context : Ctx) : Reachable g (.start text context)
  | apply {s} (id : RuleId) (h : Reachable g s) :
    Reachable g (s.apply g id).state
  | parse {s} (root : RuleId) (h : Reachable g s) :
    Reachable g (s.parse g root).2
  | context {s} (context : Ctx) (h : Reachable g s) :
    Reachable g { s with context }

theorem State.parse_state (g : Grammar Ctx) (root : RuleId)
    (s : State Ctx text) : (s.parse g root).2 = (s.apply g root).state := by
  unfold State.parse
  dsimp only
  repeat' split
  all_goals rfl

/-- Between calls, no visit is under way and every entry that has a meaning is
right. -/
structure State.Quiescent (g : Grammar Ctx) (P : RuleId → Prop)
    (s : State Ctx text) : Prop where
  agrees : Agrees g P s.memo
  idle : ∀ v, ¬ s.memo.Open v

theorem State.Quiescent.clear {g : Grammar Ctx} {P : RuleId → Prop}
    {s : State Ctx text} (h : s.Quiescent g P) : Clear g P s.memo :=
  fun v hv => absurd hv (h.idle v)

/-- A call keeps the table settled. -/
theorem State.Quiescent.of_evaluates {g : Grammar Ctx} {P : RuleId → Prop}
    {s t : State Ctx text} (h : s.Quiescent g P) {id : RuleId}
    {v : Option (Value (Cursor text))} (he : Evaluates g (.apply id) s v t) :
    t.Quiescent g P := by
  have hk := he.keepsAgreement (P := P) trivial h.agrees h.clear
  exact ⟨hk.agrees, fun v hv => h.idle v (hk.closes v hv)⟩

theorem State.quiescent_startAt (g : Grammar Ctx) (P : RuleId → Prop)
    (c : Cursor text) (context : Ctx) : (startAt c context).Quiescent g P :=
  ⟨Memo.Every.empty, Memo.not_open_empty⟩

theorem State.Reachable.quiescent {g : Grammar Ctx} (P : RuleId → Prop)
    {s : State Ctx text} (h : s.Reachable g) : s.Quiescent g P := by
  induction h with
  | start context => exact quiescent_startAt g P _ context
  | apply id _ ih => exact ih.of_evaluates (State.apply_evaluates g id _)
  | parse root _ ih =>
    rw [State.parse_state]
    exact ih.of_evaluates (State.apply_evaluates g root _)
  | context c _ ih => exact ⟨ih.agrees, ih.idle⟩

/-! ## Failure leaves the cursor in place -/

/-- Growing a match never loses it. -/
theorem Evaluates.grow_ne_none {g : Grammar Ctx} {id : RuleId}
    {rule : Rule Ctx} {start stop : Cursor text} {value : Value (Cursor text)}
    {s t : State Ctx text} {v : Option (Value (Cursor text))}
    (h : Evaluates g (.grow id rule start stop value) s v t) : v ≠ none := by
  generalize htask : Task.grow id rule start stop value = task at h
  induction h generalizing stop value with
  | grow_none _ | grow_idle _ _ => simp
  | grow_more _ _ _ _ ih =>
    cases htask
    exact ih rfl
  | _ => cases htask

/-- A rule that fails leaves the cursor and the bindings as they were. -/
theorem Evaluates.view_of_apply_none {g : Grammar Ctx} {id : RuleId}
    {s t : State Ctx text} (h : Evaluates g (.apply id) s none t) :
    t.view = s.view := by
  cases h with
  | apply_open _ _ => rfl
  | apply_failed _ _ => exact State.view_recordFailure _ _ _
  | apply_unknown _ _ => rfl
  | apply_none _ _ h =>
    cases h with
    | invoke_none _ => exact State.view_recordFailure _ _ _
  | apply_grown _ _ _ _ h => exact absurd rfl h.grow_ne_none

/-! ## Memoization is transparent -/

/-- In every state that calls lead to, applying a rule gives what plain
recursion gives: it matches or fails alike, with the same value, and ends at
the same place. -/
theorem apply_eq_recursion {g : Grammar Ctx} (hg : g.ContextFree)
    {s : State Ctx text} (hs : s.Reachable g) {id : RuleId} {c c' : Ctx}
    {o : Result text} (h : Recurses g (.expr (.rule id)) s.view c o c') :
    (s.apply g id).value = o.map Prod.fst ∧
      (s.apply g id).state.cursor
        = (o.map fun r => r.2.cursor).getD s.cursor := by
  have hset := hs.quiescent fun _ => True
  have he := State.apply_evaluates g id s
  -- The recursion is finite, so it nests to some depth.
  obtain ⟨n, hn⟩ := (h.denotes hg trivial).bounded
  have hr := hn.refines (Settles.refines n) (.rule he) rfl hset.agrees
    (hset.clear.to n)
  refine ⟨hr.holds.1, ?_⟩
  cases o with
  | none =>
    rw [hr.none] at he
    exact congrArg View.cursor he.view_of_apply_none
  | some r => exact congrArg View.cursor hr.some.2

/-- `pair = one:l "-" one | one`, where `one` counts how often it runs. -/
def pairGrammar : Grammar Nat where
  rules := #[
    { name := "one", body := .literal "1",
      action := some fun caps => do modify (· + 1); return caps.text },
    { name := "pair", body := .choice [
        .sequence [.label "l" (.rule 0), .literal "-", .rule 0], .rule 0] }]

theorem contextFree_pairGrammar : pairGrammar.ContextFree := by
  intro id rule hr
  rcases id with _ | _ | id
  · cases hr
    exact ⟨trivial, by rintro action ⟨⟩ caps c c'; rfl⟩
  · cases hr
    exact ⟨⟨⟨trivial, trivial, trivial, trivial⟩, trivial, trivial⟩,
      by rintro action ⟨⟩⟩
  · simp [Grammar.rule?, pairGrammar] at hr

/-- Plain recursion runs `one` twice on `"1"`; the table answers the second
time, and the result is the same. -/
theorem apply_pairGrammar_eq :
    ((State.start ['1'] 0).apply pairGrammar 1).value = some (.text "1") ∧
      ((State.start ['1'] 0).apply pairGrammar 1).state.cursor.index = 1 := by
  have h : Recurses pairGrammar (.expr (.rule 1))
      (State.start ['1'] 0).view 0 _ _ :=
    .rule_value rfl rfl (.choice (.first_none
      (.sequence_none (.all_cons
        (.label_some (.rule_action rfl rfl (.literal_some rfl)))
        (.all_none (.literal_none rfl))))
      (.first_some (.rule_action rfl rfl (.literal_some rfl)))))
  obtain ⟨hv, hc⟩ := apply_eq_recursion contextFree_pairGrammar (.start 0) h
  exact ⟨hv, congrArg Cursor.index hc⟩

end RubyIndent.Peg
