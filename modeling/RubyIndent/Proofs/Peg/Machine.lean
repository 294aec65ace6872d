import Mathlib.Logic.Function.Iterate
import RubyIndent.Proofs.Peg.Reading

/-!
# The evaluator as a machine

The evaluator with its recursion spelled out. A configuration holds what is at
hand, the state, and a stack of what waits for it; `step` makes one move and has
no termination argument of its own, so a machine could go on for ever. It does
not: whatever the rules of evaluation derive, the machine does in finitely many
steps on top of any stack (`Evaluates.performs`), and the rules derive a result
for every application of a rule (`State.apply_evaluates`).

The machine also says what happens on the way. Each step tells which rule body
it starts to evaluate and which action it runs, and the configurations between
the first and the last are the moments during a call.
-/

namespace RubyIndent.Peg

open RubyIndent.Text

/-- What is at hand: something to evaluate, or a result to hand back. -/
inductive Focus (Ctx : Type) (text : List Char) where
  | expr (e : Expr Ctx)
  | all (es : List (Expr Ctx))
  | first (es : List (Expr Ctx))
  | apply (id : RuleId)
  | done (v : Option (Value (Cursor text)))

/-- What waits for a result. A view is the place and the bindings to go back
to. -/
inductive Pending (Ctx : Type) (text : List Char) where
  | sequence (earlier : View text)
  /-- The rest of a row. -/
  | all (es : List (Expr Ctx))
  /-- The other alternatives. -/
  | first (earlier : View text) (es : List (Expr Ctx))
  /-- A round of a repetition that began at `start`. -/
  | many (start : Cursor text) (earlier : View text) (e : Expr Ctx)
  | optional (earlier : View text)
  | not (earlier : View text)
  | label (name : String)
  /-- A rule that is evaluated for the first time at a place. -/
  | seed (id : RuleId) (rule : Rule Ctx) (earlier : View text)
  /-- A rule whose match is being grown beyond `stop`. -/
  | grow (id : RuleId) (rule : Rule Ctx) (earlier : View text)
      (stop : Cursor text) (best : Value (Cursor text))

structure Config (Ctx : Type) (text : List Char) where
  focus : Focus Ctx text
  state : State Ctx text
  stack : List (Pending Ctx text)

/-- What a step does besides moving on: it starts to evaluate the body of a
rule, or it runs the action of one. The flag tells whether that is done once
more to grow a match. -/
inductive Event (text : List Char) where
  | body (v : Visit (Cursor text)) (again : Bool)
  | action (v : Visit (Cursor text)) (again : Bool) (caps : Captures)

variable {Ctx : Type} {text : List Char}

def State.backTo (s : State Ctx text) (p : View text) : State Ctx text :=
  { s with cursor := p.cursor, frame := p.frame }

/-! ## One step -/

/-- The end of something that is over at once. -/
def Step.config {s : State Ctx text} (r : Step s)
    (k : List (Pending Ctx text)) : Config Ctx text :=
  ⟨.done r.value, r.state, k⟩

def Expr.enter : Expr Ctx → State Ctx text → List (Pending Ctx text) →
    Config Ctx text
  | .literal w, s, k =>
    if w.toList.isPrefixOf s.cursor.rest then
      (s.accept (s.cursor.skip w.length)).config k
    else s.refuse.config k
  | .pattern p, s, k =>
    match p.regex.matchLength? s.cursor.rest with
    | some n => (s.accept (s.cursor.skip n)).config k
    | none => s.refuse.config k
  | .sequence es, s, k => ⟨.all es, s, .sequence s.view :: k⟩
  | .choice es, s, k => ⟨.first es, s, k⟩
  | .many e, s, k => ⟨.expr e, s, .many s.cursor s.view e :: k⟩
  | .optional e, s, k => ⟨.expr e, s, .optional s.view :: k⟩
  | .not e, s, k =>
    ⟨.expr e, { s with quiet := s.quiet + 1 }, .not s.view :: k⟩
  | .predicate check, s, k =>
    if check s.captures s.context then (s.accept s.cursor).config k
    else s.refuse.config k
  | .label name e, s, k => ⟨.expr e, s, .label name :: k⟩
  | .rule id, s, k => ⟨.apply id, s, k⟩

/-- Asks the table about a rule, or starts to evaluate its body. -/
def State.call (g : Grammar Ctx) (id : RuleId) (s : State Ctx text)
    (k : List (Pending Ctx text)) : List (Event text) × Config Ctx text :=
  let key := (id, s.cursor)
  match s.memo.lookup? key with
  | some (entry, memo) =>
    match entry.outcome with
    | .inProgress _ =>
      ([], ⟨.done none, { s with memo := memo.markDetected key }, k⟩)
    | .failure => ([], ⟨.done none, { s with memo }.recordFailure id s.cursor, k⟩)
    | .success stop v => ([], ⟨.done (some v), { s with memo, cursor := stop }, k⟩)
  | none =>
    match g.rule? id with
    | none => ([], s.refuse.config k)
    | some rule =>
      ([.body key false],
        ⟨.expr rule.body, (s.entered id).opened, .seed id rule s.view :: k⟩)

def Rule.close (rule : Rule Ctx) (id : RuleId) (earlier : View text)
    (v : Option (Value (Cursor text))) (s : State Ctx text) :
    Option (Value (Cursor text)) × State Ctx text :=
  match v with
  | none => (none, (s.backTo earlier).recordFailure id earlier.cursor)
  | some v => (some (rule.conclude v s).1,
      { s with frame := earlier.frame, context := (rule.conclude v s).2 })

/-- The action that runs when the body of a rule has ended, if any. -/
def Rule.acts (rule : Rule Ctx) (v : Visit (Cursor text)) (again : Bool)
    (value : Option (Value (Cursor text))) (s : State Ctx text) :
    List (Event text) :=
  if value.isSome && rule.action.isSome then [.action v again s.captures]
  else []

def Rule.regrow (rule : Rule Ctx) (id : RuleId) (earlier : View text)
    (best : Value (Cursor text)) (s : State Ctx text)
    (k : List (Pending Ctx text)) : Config Ctx text :=
  let settled := s.settle (id, earlier.cursor) (.success s.cursor best)
  ⟨.expr rule.body, (settled.regrown earlier.cursor).opened,
    .grow id rule earlier s.cursor best :: k⟩

def Rule.endSeed (rule : Rule Ctx) (id : RuleId) (earlier : View text)
    (v : Option (Value (Cursor text))) (s : State Ctx text)
    (k : List (Pending Ctx text)) : List (Event text) × Config Ctx text :=
  let key := (id, earlier.cursor)
  let acted := rule.acts key false v s
  match rule.close id earlier v s with
  | (none, t) => (acted, ⟨.done none, t.settle key .failure, k⟩)
  | (some w, t) =>
    if t.memo.detected key then
      (acted ++ [.body key true], rule.regrow id earlier w t k)
    else (acted, ⟨.done (some w), t.settle key (.success t.cursor w), k⟩)

def Rule.endGrow (rule : Rule Ctx) (id : RuleId) (earlier : View text)
    (stop : Cursor text) (best : Value (Cursor text))
    (v : Option (Value (Cursor text))) (s : State Ctx text)
    (k : List (Pending Ctx text)) : List (Event text) × Config Ctx text :=
  let key := (id, earlier.cursor)
  let acted := rule.acts key true v s
  match rule.close id earlier v s with
  | (none, t) => (acted, ⟨.done (some best), { t with cursor := stop }, k⟩)
  | (some w, t) =>
    if stop.index < t.cursor.index then
      (acted ++ [.body key true], rule.regrow id earlier w t k)
    else (acted, ⟨.done (some best), { t with cursor := stop }, k⟩)

def Pending.resume : Pending Ctx text → Option (Value (Cursor text)) →
    State Ctx text → List (Pending Ctx text) →
    List (Event text) × Config Ctx text
  | .sequence p, some _, s, k =>
    ([], ⟨.done (some (.span p.cursor s.cursor)), s, k⟩)
  | .sequence p, none, s, k => ([], ⟨.done none, s.backTo p, k⟩)
  | .all es, some _, s, k => ([], ⟨.all es, s, k⟩)
  | .all _, none, s, k => ([], ⟨.done none, s, k⟩)
  | .first _ _, some v, s, k => ([], ⟨.done (some v), s, k⟩)
  | .first p es, none, s, k => ([], ⟨.first es, s.backTo p, k⟩)
  | .many start p e, some _, s, k =>
    if p.cursor.index < s.cursor.index then
      ([], ⟨.expr e, s, .many start s.view e :: k⟩)
    else ([], ⟨.done (some (.span start s.cursor)), s, k⟩)
  | .many start p _, none, s, k =>
    ([], ⟨.done (some (.span start p.cursor)), s.backTo p, k⟩)
  | .optional p, some _, s, k =>
    ([], ⟨.done (some (.span p.cursor s.cursor)), s, k⟩)
  | .optional p, none, s, k =>
    ([], ⟨.done (some (.span p.cursor p.cursor)), s.backTo p, k⟩)
  | .not p, v, s, k =>
    ([], ⟨.done (if v.isSome then none else some (.span p.cursor p.cursor)),
      { s.backTo p with quiet := s.quiet - 1 }, k⟩)
  | .label name, some v, s, k => ([], ⟨.done (some v), s.bindLabel name v, k⟩)
  | .label _, none, s, k => ([], ⟨.done none, s, k⟩)
  | .seed id rule p, v, s, k => rule.endSeed id p v s k
  | .grow id rule p stop best, v, s, k => rule.endGrow id p stop best v s k

/-- One step of the machine, and what it does. A result that nothing waits for
is the end. -/
def step (g : Grammar Ctx) :
    Config Ctx text → Option (List (Event text) × Config Ctx text)
  | ⟨.expr e, s, k⟩ => some ([], e.enter s k)
  | ⟨.all [], s, k⟩ => some ([], (s.accept s.cursor).config k)
  | ⟨.all (e :: es), s, k⟩ => some ([], ⟨.expr e, s, .all es :: k⟩)
  | ⟨.first [], s, k⟩ => some ([], s.refuse.config k)
  | ⟨.first (e :: es), s, k⟩ => some ([], ⟨.expr e, s, .first s.view es :: k⟩)
  | ⟨.apply id, s, k⟩ => some (s.call g id k)
  | ⟨.done _, _, []⟩ => none
  | ⟨.done v, s, p :: k⟩ => some (p.resume v s k)

/-! ## Runs -/

inductive Steps (g : Grammar Ctx) : Config Ctx text → List (Event text) →
    Config Ctx text → Prop where
  | refl (c : Config Ctx text) : Steps g c [] c
  | head {a b c : Config Ctx text} {es log : List (Event text)}
      (h : step g a = some (es, b)) (hrest : Steps g b log c) :
    Steps g a (es ++ log) c

variable {g : Grammar Ctx}

theorem Steps.trans {a b c : Config Ctx text} {log log' : List (Event text)}
    (h : Steps g a log b) (h' : Steps g b log' c) : Steps g a (log ++ log') c := by
  induction h with
  | refl _ => exact h'
  | head h _ ih =>
    rw [List.append_assoc]
    exact .head h (ih h')

theorem Steps.single {a b : Config Ctx text} {es : List (Event text)}
    (h : step g a = some (es, b)) : Steps g a es b := by
  have := Steps.head h (.refl b)
  rwa [List.append_nil] at this

/-- A step that does nothing else. -/
theorem Steps.quiet {a b c : Config Ctx text} {log : List (Event text)}
    (h : step g a = some ([], b)) (hrest : Steps g b log c) : Steps g a log c :=
  .head h hrest

/-- The machine has only one way to go, so whatever it passes through lies on
its way to the end. -/
theorem Steps.before_end {a b c : Config Ctx text} {log log' : List (Event text)}
    (h : Steps g a log b) (hend : Steps g a log' c) (hc : step g c = none) :
    ∃ rest, log' = log ++ rest ∧ Steps g b rest c := by
  induction h generalizing log' with
  | refl _ => exact ⟨log', rfl, hend⟩
  | head h _ ih =>
    cases hend with
    | refl _ => cases hc.symm.trans h
    | head h' hrest =>
      cases h.symm.trans h'
      obtain ⟨rest, rfl, hsteps⟩ := ih hrest
      exact ⟨rest, (List.append_assoc ..).symm, hsteps⟩

/-- The next configuration; the last one stays as it is. -/
def Config.next (g : Grammar Ctx) (c : Config Ctx text) : Config Ctx text :=
  match step g c with
  | some (_, d) => d
  | none => c

theorem Steps.iterate {a b : Config Ctx text} {log : List (Event text)}
    (h : Steps g a log b) : ∃ n, (Config.next g)^[n] a = b := by
  induction h with
  | refl c => exact ⟨0, rfl⟩
  | @head a b c es log h _ ih =>
    obtain ⟨n, hn⟩ := ih
    refine ⟨n + 1, ?_⟩
    have hnext : Config.next g a = b := by
      rw [Config.next, h]
    rw [Function.iterate_succ_apply, hnext, hn]

theorem Config.iterate_end {c : Config Ctx text} (h : step g c = none)
    (n : Nat) : (Config.next g)^[n] c = c := by
  have hnext : Config.next g c = c := by
    rw [Config.next, h]
  exact Function.iterate_fixed hnext n

/-! ## The machine does what the rules derive -/

def Event.visit : Event text → Visit (Cursor text)
  | .body v _ | .action v _ _ => v

/-- A last step that does nothing else. -/
theorem Steps.done {a b c : Config Ctx text} {log : List (Event text)}
    (h : Steps g a log b) (hstep : step g b = some ([], c)) : Steps g a log c := by
  have := h.trans (.single hstep)
  rwa [List.append_nil] at this

/-- On top of any stack the machine comes from an expression to its result. -/
def Expr.Runs (g : Grammar Ctx) (e : Expr Ctx) (s : State Ctx text)
    (v : Option (Value (Cursor text))) (t : State Ctx text)
    (log : List (Event text)) : Prop :=
  ∀ k, Steps g ⟨.expr e, s, k⟩ log ⟨.done v, t, k⟩

/-- The same for all tasks. A repetition is met at the start of a round, and a
match that may grow at the start of an attempt; the body of a rule is over
before its action runs. -/
def Performs (g : Grammar Ctx) (task : Task Ctx text) (s : State Ctx text)
    (v : Option (Value (Cursor text))) (t : State Ctx text)
    (log : List (Event text)) : Prop :=
  match task with
  | .expr (.many e) => v = some (.span s.cursor t.cursor) ∧
    ∀ start k, Steps g ⟨.expr e, s, .many start s.view e :: k⟩ log
      ⟨.done (some (.span start t.cursor)), t, k⟩
  | .expr e => e.Runs g s v t log
  | .all es => ∀ k, Steps g ⟨.all es, s, k⟩ log ⟨.done v, t, k⟩
  | .first es => ∀ k, Steps g ⟨.first es, s, k⟩ log ⟨.done v, t, k⟩
  | .apply id => ∀ k, Steps g ⟨.apply id, s, k⟩ log ⟨.done v, t, k⟩
  | .invoke id rule => ∃ w u, rule.body.Runs g s.opened w u log ∧
    rule.close id s.view w u = (v, t)
  | .grow id rule start stop best => ∀ k,
    Steps g ⟨.expr rule.body, (s.regrown start).opened,
      .grow id rule (s.view.moveTo start) stop best :: k⟩ log ⟨.done v, t, k⟩

theorem Performs.runs {e : Expr Ctx} {s t : State Ctx text}
    {v : Option (Value (Cursor text))} {log : List (Event text)}
    (h : Performs g (.expr e) s v t log) : e.Runs g s v t log := by
  cases e with
  | many e =>
    obtain ⟨rfl, h⟩ := h
    exact fun k => .quiet rfl (h s.cursor k)
  | _ => exact h

/-- An expression that is over at once. -/
theorem Expr.Runs.of_enter {e : Expr Ctx} {s t : State Ctx text}
    {v : Option (Value (Cursor text))}
    (h : ∀ k, e.enter s k = ⟨.done v, t, k⟩) : e.Runs g s v t [] :=
  fun k => .single (by rw [step, h])

section

variable {id : RuleId} {rule : Rule Ctx} {s t u : State Ctx text}
  {p : View text} {w : Option (Value (Cursor text))} {log : List (Event text)}
  {stop : Cursor text} {best v : Value (Cursor text)}
  {k : List (Pending Ctx text)}

theorem Rule.endSeed_none (hclose : rule.close id p w u = (none, t)) :
    rule.endSeed id p w u k = (rule.acts (id, p.cursor) false w u,
      ⟨.done none, t.settle (id, p.cursor) .failure, k⟩) := by
  simp only [Rule.endSeed, hclose]

theorem Rule.endSeed_some (hclose : rule.close id p w u = (some v, t))
    (hd : t.memo.detected (id, p.cursor) = false) :
    rule.endSeed id p w u k = (rule.acts (id, p.cursor) false w u,
      ⟨.done (some v), t.settle (id, p.cursor) (.success t.cursor v), k⟩) := by
  simp only [Rule.endSeed, hclose, hd, Bool.false_eq_true, if_false]

theorem Rule.endSeed_grown (hclose : rule.close id p w u = (some v, t))
    (hd : t.memo.detected (id, p.cursor) = true) :
    rule.endSeed id p w u k = (rule.acts (id, p.cursor) false w u ++
      [.body (id, p.cursor) true], rule.regrow id p v t k) := by
  simp only [Rule.endSeed, hclose, hd, if_true]

theorem Rule.endGrow_none (hclose : rule.close id p w u = (none, t)) :
    rule.endGrow id p stop best w u k = (rule.acts (id, p.cursor) true w u,
      ⟨.done (some best), { t with cursor := stop }, k⟩) := by
  simp only [Rule.endGrow, hclose]

theorem Rule.endGrow_idle (hclose : rule.close id p w u = (some v, t))
    (hle : ¬ stop.index < t.cursor.index) :
    rule.endGrow id p stop best w u k = (rule.acts (id, p.cursor) true w u,
      ⟨.done (some best), { t with cursor := stop }, k⟩) := by
  simp only [Rule.endGrow, hclose, if_neg hle]

theorem Rule.endGrow_more (hclose : rule.close id p w u = (some v, t))
    (hlt : stop.index < t.cursor.index) :
    rule.endGrow id p stop best w u k = (rule.acts (id, p.cursor) true w u ++
      [.body (id, p.cursor) true], rule.regrow id p v t k) := by
  simp only [Rule.endGrow, hclose, if_pos hlt]

/-- The first evaluation of a rule, up to what comes after its body. -/
theorem Steps.seed {c : Config Ctx text} {es : List (Event text)}
    (hl : s.memo.lookup? (id, s.cursor) = none) (hr : g.rule? id = some rule)
    (hbody : rule.body.Runs g (s.entered id).opened w u log)
    (hend : rule.endSeed id s.view w u k = (es, c)) :
    Steps g ⟨.apply id, s, k⟩ (.body (id, s.cursor) false :: (log ++ es)) c := by
  have hcall : step g ⟨.apply id, s, k⟩ = some ([.body (id, s.cursor) false],
      ⟨.expr rule.body, (s.entered id).opened, .seed id rule s.view :: k⟩) := by
    simp only [step, State.call, hl, hr]
  refine .head hcall ((hbody _).trans (.single ?_))
  rw [step, Pending.resume, hend]

/-- An attempt to grow a match, up to what comes after the body. -/
theorem Steps.grow {c : Config Ctx text} {es : List (Event text)}
    {start : Cursor text}
    (hbody : rule.body.Runs g (s.regrown start).opened w u log)
    (hend : rule.endGrow id (s.view.moveTo start) stop best w u k = (es, c)) :
    Steps g ⟨.expr rule.body, (s.regrown start).opened,
      .grow id rule (s.view.moveTo start) stop best :: k⟩ (log ++ es) c := by
  refine (hbody _).trans (.single ?_)
  rw [step, Pending.resume, hend]

end

/-- The action that runs at the end of a rule is its own. -/
theorem Rule.visit_of_mem_acts {rule : Rule Ctx} {v : Visit (Cursor text)}
    {again : Bool} {w : Option (Value (Cursor text))} {s : State Ctx text} :
    ∀ e ∈ rule.acts v again w s, e.visit = v := by
  intro e h
  unfold Rule.acts at h
  split at h
  · rw [List.mem_singleton.1 h]
    rfl
  · cases h

/-- The bindings around a rule are back at its end. -/
theorem Rule.frame_of_close {rule : Rule Ctx} {id : RuleId} {p : View text}
    {w x : Option (Value (Cursor text))} {u t : State Ctx text}
    (h : rule.close id p w u = (x, t)) : t.frame = p.frame := by
  cases w with
  | none =>
    cases h
    exact congrArg View.frame (State.view_recordFailure (u.backTo p) id p.cursor)
  | some w =>
    cases h
    rfl

/-- What the rules derive, the machine does, and within `P` if the task is. -/
theorem Evaluates.performs {P : RuleId → Prop} (hg : g.Closed P)
    {task : Task Ctx text} {s t : State Ctx text}
    {v : Option (Value (Cursor text))} (he : Evaluates g task s v t)
    (htask : task.Within g P) :
    ∃ log, Performs g task s v t log ∧ ∀ e ∈ log, P e.visit.1 := by
  induction he with
  | literal_some h =>
    exact ⟨[], .of_enter fun k => by rw [Expr.enter, if_pos h]; rfl, nofun⟩
  | literal_none h =>
    refine ⟨[], .of_enter fun k => ?_, nofun⟩
    rw [Expr.enter, if_neg (by simp [h])]
    rfl
  | pattern_some h =>
    exact ⟨[], .of_enter fun k => by rw [Expr.enter, h]; rfl, nofun⟩
  | pattern_none h =>
    exact ⟨[], .of_enter fun k => by rw [Expr.enter, h]; rfl, nofun⟩
  | predicate_true h =>
    exact ⟨[], .of_enter fun k => by rw [Expr.enter, if_pos h]; rfl, nofun⟩
  | predicate_false h =>
    refine ⟨[], .of_enter fun k => ?_, nofun⟩
    rw [Expr.enter, if_neg (by simp [h])]
    rfl
  | sequence_some _ ih | sequence_none _ ih =>
    obtain ⟨log, h, hP⟩ := ih htask
    exact ⟨log, fun k => .quiet rfl ((h _).done rfl), hP⟩
  | choice _ ih =>
    obtain ⟨log, h, hP⟩ := ih htask
    exact ⟨log, fun k => .quiet rfl (h k), hP⟩
  -- The repetition goes on from the end of a round, with the same start.
  | @many_more e s v t u _ hlt _ ih ih' =>
    obtain ⟨log, h, hP⟩ := ih htask
    obtain ⟨log', ⟨_, h'⟩, hP'⟩ := ih' htask
    refine ⟨log ++ log', ⟨rfl, fun start k => ?_⟩,
      List.forall_mem_append.2 ⟨hP, hP'⟩⟩
    refine (h.runs _).trans (.quiet ?_ (h' start k))
    rw [step, Pending.resume]
    exact congrArg some (if_pos hlt)
  | many_idle _ hle ih =>
    obtain ⟨log, h, hP⟩ := ih htask
    refine ⟨log, ⟨rfl, fun start k => (h.runs _).done ?_⟩, hP⟩
    rw [step, Pending.resume]
    exact congrArg some (if_neg hle)
  | many_none _ ih =>
    obtain ⟨log, h, hP⟩ := ih htask
    exact ⟨log, ⟨rfl, fun start k => (h.runs _).done rfl⟩, hP⟩
  | optional_some _ ih | optional_none _ ih | not_some _ ih | not_none _ ih
  | label_some _ ih | label_none _ ih =>
    obtain ⟨log, h, hP⟩ := ih htask
    exact ⟨log, fun k => .quiet rfl ((h.runs _).done rfl), hP⟩
  | rule _ ih =>
    obtain ⟨log, h, hP⟩ := ih htask
    exact ⟨log, fun k => .quiet rfl (h k), hP⟩
  | all_nil | first_nil => exact ⟨[], fun k => .single rfl, nofun⟩
  | all_cons _ _ ih ih' | first_none _ _ ih ih' =>
    obtain ⟨log, h, hP⟩ := ih htask.1
    obtain ⟨log', h', hP'⟩ := ih' htask.2
    exact ⟨log ++ log',
      fun k => .quiet rfl ((h.runs _).trans (.quiet rfl (h' k))),
      List.forall_mem_append.2 ⟨hP, hP'⟩⟩
  | all_none _ ih | first_some _ ih =>
    obtain ⟨log, h, hP⟩ := ih htask.1
    exact ⟨log, fun k => .quiet rfl ((h.runs _).done rfl), hP⟩
  | apply_open hl ho | apply_failed hl ho | apply_matched hl ho =>
    refine ⟨[], fun k => .single ?_, nofun⟩
    simp only [step, State.call, hl, ho]
  | apply_unknown hl hr =>
    refine ⟨[], fun k => .single ?_, nofun⟩
    simp only [step, State.call, hl, hr]
    rfl
  | apply_none hl hr _ ih =>
    obtain ⟨log, ⟨w, u, h, hclose⟩, hP⟩ := ih ⟨htask, hr⟩
    refine ⟨_, fun k => .seed hl hr h (Rule.endSeed_none hclose), ?_⟩
    exact List.forall_mem_cons.2 ⟨htask, List.forall_mem_append.2
      ⟨hP, fun e he => Rule.visit_of_mem_acts e he ▸ htask⟩⟩
  | apply_some hl hr _ hd ih =>
    obtain ⟨log, ⟨w, u, h, hclose⟩, hP⟩ := ih ⟨htask, hr⟩
    refine ⟨_, fun k => .seed hl hr h (Rule.endSeed_some hclose hd), ?_⟩
    exact List.forall_mem_cons.2 ⟨htask, List.forall_mem_append.2
      ⟨hP, fun e he => Rule.visit_of_mem_acts e he ▸ htask⟩⟩
  | @apply_grown id s rule v t _ _ hl hr _ hd _ ih ih' =>
    obtain ⟨log, ⟨w, u, h, hclose⟩, hP⟩ := ih ⟨htask, hr⟩
    obtain ⟨log', h', hP'⟩ := ih' ⟨htask, hr⟩
    have hframe : t.frame = s.frame := Rule.frame_of_close hclose
    have hview : (t.settle (id, s.cursor) (.success t.cursor v)).view.moveTo
        s.cursor = s.view := congrArg (View.mk s.cursor) hframe
    simp only [Performs, hview] at h'
    refine ⟨_, fun k => (Steps.seed hl hr h
      (Rule.endSeed_grown hclose hd)).trans (h' k), ?_⟩
    simp only [List.forall_mem_append, List.forall_mem_cons]
    exact ⟨⟨htask, hP, fun e he => Rule.visit_of_mem_acts e he ▸ htask, htask,
      nofun⟩, hP'⟩
  | invoke_none _ ih =>
    obtain ⟨log, h, hP⟩ := ih (hg _ _ htask.1 htask.2)
    exact ⟨log, ⟨_, _, h.runs, rfl⟩, hP⟩
  | invoke_value ha _ ih | invoke_action ha _ ih =>
    obtain ⟨log, h, hP⟩ := ih (hg _ _ htask.1 htask.2)
    refine ⟨log, ⟨_, _, h.runs, ?_⟩, hP⟩
    simp only [Rule.close, Rule.conclude, ha]
    rfl
  | grow_none _ ih =>
    obtain ⟨log, ⟨w, u, h, hclose⟩, hP⟩ := ih htask
    refine ⟨_, fun k => .grow h (Rule.endGrow_none hclose), ?_⟩
    exact List.forall_mem_append.2
      ⟨hP, fun e he => Rule.visit_of_mem_acts e he ▸ htask.1⟩
  | grow_idle _ hle ih =>
    obtain ⟨log, ⟨w, u, h, hclose⟩, hP⟩ := ih htask
    refine ⟨_, fun k => .grow h (Rule.endGrow_idle hclose hle), ?_⟩
    exact List.forall_mem_append.2
      ⟨hP, fun e he => Rule.visit_of_mem_acts e he ▸ htask.1⟩
  | @grow_more id _ start _ _ s v t _ _ _ hlt _ ih ih' =>
    obtain ⟨log, ⟨w, u, h, hclose⟩, hP⟩ := ih htask
    obtain ⟨log', h', hP'⟩ := ih' htask
    have hframe : t.frame = s.frame := Rule.frame_of_close hclose
    have hview : (t.settle (id, start) (.success t.cursor v)).view.moveTo start
        = s.view.moveTo start := congrArg (View.mk start) hframe
    simp only [Performs, hview] at h'
    refine ⟨_, fun k => (Steps.grow h
      (Rule.endGrow_more hclose hlt)).trans (h' k), ?_⟩
    simp only [List.forall_mem_append, List.forall_mem_cons]
    exact ⟨⟨hP, fun e he => Rule.visit_of_mem_acts e he ▸ htask.1, htask.1,
      nofun⟩, hP'⟩

/-! ## Termination -/

mutual

theorem Expr.within_true : ∀ e : Expr Ctx, e.Within fun _ => True
  | .literal _ | .pattern _ | .predicate _ | .rule _ => trivial
  | .sequence es | .choice es => allWithin_true es
  | .many e | .optional e | .not e | .label _ e => e.within_true

theorem allWithin_true : ∀ es : List (Expr Ctx), AllWithin (fun _ => True) es
  | [] => trivial
  | e :: es => ⟨e.within_true, allWithin_true es⟩

end

theorem Grammar.closed_true (g : Grammar Ctx) : g.Closed fun _ => True :=
  fun _ rule _ _ => rule.body.within_true

theorem State.apply_steps (g : Grammar Ctx) (id : RuleId) (s : State Ctx text) :
    ∃ log, ∀ k, Steps g ⟨.apply id, s, k⟩ log
      ⟨.done (s.apply g id).value, (s.apply g id).state, k⟩ := by
  obtain ⟨log, h, _⟩ := (State.apply_evaluates g id s).performs g.closed_true trivial
  exact ⟨log, h⟩

/-- Applying a rule comes to an end, in every grammar, at every place and with
every table: after finitely many steps the machine stands still, with the result
and the state that `State.apply` gives. -/
theorem apply_halts (g : Grammar Ctx) (id : RuleId) (s : State Ctx text) :
    ∃ n, ∀ m, n ≤ m → (Config.next g)^[m] ⟨.apply id, s, []⟩
      = ⟨.done (s.apply g id).value, (s.apply g id).state, []⟩ := by
  obtain ⟨log, h⟩ := s.apply_steps g id
  obtain ⟨n, hn⟩ := (h []).iterate
  refine ⟨n, fun m hm => ?_⟩
  obtain ⟨k, rfl⟩ := Nat.exists_eq_add_of_le hm
  rw [Nat.add_comm, Function.iterate_add_apply, hn]
  exact Config.iterate_end rfl k

end RubyIndent.Peg
