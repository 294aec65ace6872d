import RubyIndent.Proofs.Peg.Machine

/-!
# Actions along a run

Nothing but actions changes the context of a parse, so at every moment of a run
the context is what the actions so far have made of the first one
(`Steps.context`). Which actions run is known for a rule that is applied for the
first time and does not lead back to itself: those of the rules below it, and
its own if it matches (`Evaluates.performs_new`).
-/

namespace RubyIndent.Peg

open RubyIndent.Text

variable {Ctx : Type} {text : List Char} {g : Grammar Ctx}

/-! ## The context is made by actions -/

def Event.act (g : Grammar Ctx) (c : Ctx) : Event text → Ctx
  | .body _ _ => c
  | .action v _ caps =>
    match (g.rule? v.1).bind (·.action) with
    | some run => (run caps c).2
    | none => c

/-- A rule that waits on the stack is the rule of its number. -/
def Pending.Known (g : Grammar Ctx) : Pending Ctx text → Prop
  | .seed id rule _ | .grow id rule _ _ _ => g.rule? id = some rule
  | _ => True

/-- What a step does with the stack and the context that it finds. -/
structure Carries (g : Grammar Ctx) (k : List (Pending Ctx text)) (c : Ctx)
    (r : List (Event text) × Config Ctx text) : Prop where
  known : (∀ q ∈ k, q.Known g) → ∀ q ∈ r.2.stack, q.Known g
  context : (∀ q ∈ k, q.Known g) →
    r.2.state.context = r.1.foldl (Event.act g) c

section

variable {k : List (Pending Ctx text)} {q q' : Pending Ctx text} {c : Ctx}
  {s : State Ctx text} {f : Focus Ctx text} {es : List (Event text)}

theorem Carries.keep (h : s.context = c) : Carries g k c ([], ⟨f, s, k⟩) :=
  ⟨fun hk => hk, fun _ => h⟩

theorem Carries.push (hq : q.Known g) (h : s.context = c) :
    Carries g k c ([], ⟨f, s, q :: k⟩) :=
  ⟨fun hk => List.forall_mem_cons.2 ⟨hq, hk⟩, fun _ => h⟩

theorem Carries.pop (h : q.Known g → s.context = es.foldl (Event.act g) c) :
    Carries g (q :: k) c (es, ⟨f, s, k⟩) :=
  ⟨fun hk => (List.forall_mem_cons.1 hk).2,
    fun hk => h (List.forall_mem_cons.1 hk).1⟩

/-- What was waiting goes on waiting, in another form. -/
theorem Carries.again (hq : q.Known g → q'.Known g)
    (h : q.Known g → s.context = es.foldl (Event.act g) c) :
    Carries g (q :: k) c (es, ⟨f, s, q' :: k⟩) :=
  ⟨fun hk => List.forall_mem_cons.2 ((List.forall_mem_cons.1 hk).imp_left hq),
    fun hk => h (List.forall_mem_cons.1 hk).1⟩

end

theorem Expr.carries_enter (e : Expr Ctx) (s : State Ctx text)
    (k : List (Pending Ctx text)) : Carries g k s.context ([], e.enter s k) := by
  cases e with
  | literal _ | pattern _ | predicate _ =>
    simp only [Expr.enter]
    split <;> exact .keep rfl
  | choice _ | rule _ => exact .keep rfl
  | sequence _ | many _ | optional _ | not _ | label _ _ =>
    exact .push (by trivial) rfl

theorem State.carries_call (id : RuleId) (s : State Ctx text)
    (k : List (Pending Ctx text)) : Carries g k s.context (s.call g id k) := by
  unfold State.call
  dsimp only
  split
  · split
    · exact .keep rfl
    · exact .keep (State.context_recordFailure ..)
    · exact .keep rfl
  · split
    · exact .keep rfl
    · rename_i rule hr
      exact ⟨fun hk => List.forall_mem_cons.2 ⟨hr, hk⟩, fun _ => rfl⟩

/-- At the end of a rule its action changes the context, if it runs. -/
theorem Rule.context_of_close {rule : Rule Ctx} {id : RuleId} {p : View text}
    {w x : Option (Value (Cursor text))} {u t : State Ctx text}
    (hr : g.rule? id = some rule) (again : Bool)
    (h : rule.close id p w u = (x, t)) :
    t.context = (rule.acts (id, p.cursor) again w u).foldl (Event.act g)
      u.context := by
  cases w with
  | none =>
    cases h
    exact State.context_recordFailure ..
  | some w =>
    cases h
    simp only [Rule.acts, Rule.conclude]
    cases ha : rule.action with
    | none => rfl
    | some action => simp [Event.act, hr, ha]

theorem Rule.carries_endSeed {rule : Rule Ctx} {id : RuleId} {p : View text}
    (w : Option (Value (Cursor text))) (u : State Ctx text)
    (k : List (Pending Ctx text)) :
    Carries g (.seed id rule p :: k) u.context (rule.endSeed id p w u k) := by
  cases hclose : rule.close id p w u with
  | mk x t =>
    have hctx (hr : g.rule? id = some rule) :=
      Rule.context_of_close hr false hclose
    cases x with
    | none =>
      rw [Rule.endSeed_none hclose]
      exact .pop hctx
    | some v =>
      cases hd : t.memo.detected (id, p.cursor) with
      | false =>
        rw [Rule.endSeed_some hclose hd]
        exact .pop hctx
      | true =>
        rw [Rule.endSeed_grown hclose hd]
        refine .again (fun hr => hr) fun hr => ?_
        rw [List.foldl_append]
        exact hctx hr

theorem Rule.carries_endGrow {rule : Rule Ctx} {id : RuleId} {p : View text}
    (stop : Cursor text) (best : Value (Cursor text))
    (w : Option (Value (Cursor text))) (u : State Ctx text)
    (k : List (Pending Ctx text)) :
    Carries g (.grow id rule p stop best :: k) u.context
      (rule.endGrow id p stop best w u k) := by
  cases hclose : rule.close id p w u with
  | mk x t =>
    have hctx (hr : g.rule? id = some rule) :=
      Rule.context_of_close hr true hclose
    cases x with
    | none =>
      rw [Rule.endGrow_none hclose]
      exact .pop hctx
    | some v =>
      by_cases hlt : stop.index < t.cursor.index
      · rw [Rule.endGrow_more hclose hlt]
        refine .again (fun hr => hr) fun hr => ?_
        rw [List.foldl_append]
        exact hctx hr
      · rw [Rule.endGrow_idle hclose hlt]
        exact .pop hctx

theorem Pending.carries_resume (q : Pending Ctx text)
    (w : Option (Value (Cursor text))) (s : State Ctx text)
    (k : List (Pending Ctx text)) :
    Carries g (q :: k) s.context (q.resume w s k) := by
  cases q with
  | seed id rule p => exact Rule.carries_endSeed w s k
  | grow id rule p stop best => exact Rule.carries_endGrow stop best w s k
  | many start p e =>
    cases w with
    | none => exact .pop fun _ => rfl
    | some v =>
      simp only [Pending.resume]
      split
      · exact .again (fun h => h) fun _ => rfl
      · exact .pop fun _ => rfl
  | _ => cases w <;> exact .pop fun _ => rfl

theorem step_carries {c d : Config Ctx text} {es : List (Event text)}
    (h : step g c = some (es, d)) :
    Carries g c.stack c.state.context (es, d) := by
  obtain ⟨focus, s, k⟩ := c
  cases focus with
  | expr e =>
    cases h
    exact e.carries_enter s k
  | all es =>
    cases es <;> cases h
    · exact .keep rfl
    · exact .push (by trivial) rfl
  | first es =>
    cases es <;> cases h
    · exact .keep rfl
    · exact .push (by trivial) rfl
  | apply id =>
    have hcall := s.carries_call (g := g) id k
    rwa [Option.some.inj h] at hcall
  | done v =>
    cases k with
    | nil => cases h
    | cons q k =>
      have hresume := q.carries_resume (g := g) v s k
      rwa [Option.some.inj h] at hresume

/-- The context is what the actions so far have made of the first one. -/
theorem Steps.context {a b : Config Ctx text} {log : List (Event text)}
    (h : Steps g a log b) (ha : ∀ q ∈ a.stack, q.Known g) :
    b.state.context = log.foldl (Event.act g) a.state.context := by
  induction h with
  | refl c => rfl
  | head h _ ih =>
    have hstep := step_carries h
    rw [List.foldl_append, ← hstep.context ha]
    exact ih (hstep.known ha)

/-- The machine has one way to the end only. -/
theorem Steps.unique {a c : Config Ctx text} {log log' : List (Event text)}
    (h : Steps g a log c) (h' : Steps g a log' c) (hc : step g c = none) :
    log = log' := by
  obtain ⟨rest, rfl, hrest⟩ := h.before_end h' hc
  cases hrest with
  | refl _ => rw [List.append_nil]
  | head hstep _ => cases hc.symm.trans hstep

/-! ## A rule that is applied for the first time -/

/-- The bindings of a rule start where they started. -/
theorem Evaluates.frame_start {task : Task Ctx text} {s t : State Ctx text}
    {v : Option (Value (Cursor text))} (h : Evaluates g task s v t) :
    t.frame.start = s.frame.start := by
  induction h with
  | apply_failed _ _ | invoke_none _ _ =>
    exact congrArg (fun p : View text => p.frame.start)
      (State.view_recordFailure _ _ _)
  | many_more _ _ _ ih ih' | all_cons _ _ ih ih' => exact ih'.trans ih
  | apply_grown _ _ _ _ _ ih ih' | grow_more _ _ _ ih ih' => exact ih'.trans ih
  | sequence_some _ ih | choice _ ih | many_idle _ _ ih | optional_some _ ih
  | label_some _ ih | label_none _ ih | rule _ ih | all_none _ ih | first_some _ ih
  | apply_none _ _ _ ih | apply_some _ _ _ _ ih | grow_none _ ih
  | grow_idle _ _ ih => exact ih
  | first_none _ _ _ ih' => exact ih'
  | _ => rfl

/-- A rule that has no entry yet is evaluated through its body, and then its
action runs if the body matches. The body must not lead back to the rule. -/
theorem Evaluates.performs_new {P : RuleId → Prop} {id : RuleId}
    {rule : Rule Ctx} {s t : State Ctx text} {v : Option (Value (Cursor text))}
    (h : Evaluates g (.apply id) s v t)
    (hnew : s.memo.outcome? (id, s.cursor) = none)
    (hr : g.rule? id = some rule) (hg : g.Closed P) (hw : rule.body.Within P)
    (hid : ¬ P id) :
    ∃ w u log, Evaluates g (.expr rule.body) (s.entered id).opened w u ∧
      rule.body.Runs g (s.entered id).opened w u log ∧
      (∀ e ∈ log, P e.visit.1) ∧
      v.isSome = w.isSome ∧ (v ≠ none → t.cursor = u.cursor) ∧
      (∃ o, t.memo = u.memo.setOutcome (id, s.cursor) o ∧
        (v = none → o = .failure)) ∧
      Performs g (.apply id) s v t
        (.body (id, s.cursor) false ::
          (log ++ rule.acts (id, s.cursor) false w u)) := by
  have hl := Memo.lookup?_eq_none_iff.2 hnew
  rcases h.of_apply_new hnew hr with ⟨u, hrun, rfl, rfl⟩ | ⟨x, u, hrun, hend⟩
  · cases hrun with
    | invoke_none hbody =>
      obtain ⟨log, hlog, hP⟩ := hbody.performs hg hw
      refine ⟨none, _, log, hbody, hlog.runs, hP, rfl, absurd rfl,
        ⟨.failure, ?_, fun _ => rfl⟩,
        fun k => .seed hl hr hlog.runs (Rule.endSeed_none rfl)⟩
      exact congrArg (Memo.setOutcome · _ _) (State.memo_recordFailure _ _ _)
  · cases hrun with
    | invoke_value ha hbody | invoke_action ha hbody =>
      rcases hend with ⟨hd, rfl, rfl⟩ | ⟨hd, -⟩
      · obtain ⟨log, hlog, hP⟩ := hbody.performs hg hw
        refine ⟨some _, _, log, hbody, hlog.runs, hP, rfl, fun _ => rfl,
          ⟨_, rfl, fun hnone => ?_⟩,
          fun k => .seed hl hr hlog.runs (Rule.endSeed_some ?_ hd)⟩
        · cases hnone
        · simp only [Rule.close, Rule.conclude, ha]
          rfl
      · cases (hbody.not_detected hg hw hid).symm.trans hd

end RubyIndent.Peg
