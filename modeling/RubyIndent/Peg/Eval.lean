import RubyIndent.Peg.State

/-!
# Evaluation

Expressions are evaluated by recursion on the expression. What a reference to
a rule means is left to a function that the evaluation is given, and that
function may only be asked in states that have seen every visit of the state
where the evaluation started. Applying a rule that has not been applied at its
place before enters the visit first and then evaluates the rule's body, so
every application inside the body starts from a table with more visits. There
are only finitely many visits, rules times places, and so application ends:
`State.apply` is defined by recursion on the number of visits still missing.

A rule that reaches itself again at the same place is left recursive. The inner
application then fails. If the outer one succeeds all the same, its match is a
seed: the body is evaluated again and again at the same place, the inner
application now standing for the match so far, as long as the match gets
longer.
-/

namespace RubyIndent.Peg

open RubyIndent.Text

variable {Ctx : Type} {text : List Char}

/-- The meaning of rule references in an evaluation that started in `base`. -/
abbrev Apply (base : State Ctx text) :=
  (id : RuleId) → (s : State Ctx text) → base.memo.Extends s.memo → Step s

/-- A way to evaluate something in any state that extends `base`. -/
abbrev Round (base : State Ctx text) :=
  (s : State Ctx text) → base.memo.Extends s.memo → Step s

/-- Repeats a round for as long as it matches and takes text. The bindings of
a last round that takes no text stay; those of a failed round go. -/
def manyFrom {base : State Ctx text} (round : Round base) (s : State Ctx text)
    (h : base.memo.Extends s.memo) :
    { t : State Ctx text // base.memo.Extends t.memo } :=
  let r := round s h
  if r.matched then
    if hlt : s.cursor.index < r.state.cursor.index then
      have := Cursor.length_rest_lt hlt
      manyFrom round r.state (h.trans r.keeps)
    else ⟨r.state, h.trans r.keeps⟩
  else ⟨r.state.rewind s, h.trans r.keeps⟩
termination_by s.cursor.rest.length

mutual

def Expr.eval {base : State Ctx text} (app : Apply base) :
    Expr Ctx → (s : State Ctx text) → base.memo.Extends s.memo → Step s
  | .literal w, s, _ =>
    if w.toList.isPrefixOf s.cursor.rest then
      s.accept (s.cursor.skip w.length)
    else s.refuse
  | .pattern p, s, _ =>
    match p.regex.matchLength? s.cursor.rest with
    | some n => s.accept (s.cursor.skip n)
    | none => s.refuse
  | .sequence items, s, h =>
    let r := evalAll app items s h
    if r.matched then
      ⟨some (.span s.cursor r.state.cursor), r.state, r.keeps⟩
    else ⟨none, r.state.rewind s, r.keeps⟩
  | .choice items, s, h => evalFirst app items s h
  | .many inner, s, h =>
    let r := manyFrom (fun t ht => inner.eval app t (h.trans ht)) s s.extends_self
    ⟨some (.span s.cursor r.val.cursor), r.val, r.property⟩
  | .optional inner, s, h =>
    let r := inner.eval app s h
    let t := if r.matched then r.state else r.state.rewind s
    ⟨some (.span s.cursor t.cursor), t, by
      simp only [t]; split <;> exact r.keeps⟩
  | .not inner, s, h =>
    let r := inner.eval app { s with quiet := s.quiet + 1 } h
    let t := { r.state.rewind s with quiet := r.state.quiet - 1 }
    ⟨if r.matched then none else some (.span s.cursor s.cursor), t, r.keeps⟩
  | .predicate check, s, _ =>
    if check s.captures s.context then s.accept s.cursor else s.refuse
  | .label name inner, s, h =>
    let r := inner.eval app s h
    match r.value with
    | some v => ⟨some v, r.state.bindLabel name v, r.keeps⟩
    | none => r
  | .rule id, s, h => app id s h

def evalAll {base : State Ctx text} (app : Apply base) :
    List (Expr Ctx) → (s : State Ctx text) → base.memo.Extends s.memo → Step s
  | [], s, _ => s.accept s.cursor
  | e :: es, s, h =>
    let r := e.eval app s h
    if r.matched then
      let q := evalAll app es r.state (h.trans r.keeps)
      ⟨q.value, q.state, r.keeps.trans q.keeps⟩
    else r

/-- Evaluates expressions from the same place and with the same bindings, up
to the first that matches. -/
def evalFirst {base : State Ctx text} (app : Apply base) :
    List (Expr Ctx) → (s : State Ctx text) → base.memo.Extends s.memo → Step s
  | [], s, _ => s.refuse
  | e :: es, s, h =>
    let r := e.eval app s h
    if r.matched then r
    else
      let q := evalFirst app es (r.state.rewind s) (h.trans r.keeps)
      ⟨q.value, q.state, r.keeps.trans q.keeps⟩

end

/-- Evaluates the body of a rule with fresh bindings, then runs the rule's
action. A failure leaves the cursor where it was and is recorded. -/
def Rule.invoke {base : State Ctx text} (rule : Rule Ctx) (id : RuleId)
    (app : Apply base) (s : State Ctx text) (h : base.memo.Extends s.memo) :
    Step s :=
  let r := rule.body.eval app { s with frame := { start := s.cursor } } h
  match r.value with
  | none =>
    ⟨none, (r.state.rewind s).recordFailure id s.cursor, by
      rw [State.memo_recordFailure]; exact r.keeps⟩
  | some value =>
    match rule.action with
    | none => ⟨some value, { r.state with frame := s.frame }, r.keeps⟩
    | some action =>
      let (made, context) := action r.state.captures r.state.context
      ⟨some (.text made), { r.state with frame := s.frame, context }, r.keeps⟩

/-- Repeats a round at the place of a visit for as long as its match ends
further right than the best so far, entering each better match. Ends with the
cursor behind the best match. -/
def growFrom {base : State Ctx text} (round : Round base)
    (visit : Visit (Cursor text)) (stop : Cursor text)
    (value : Value (Cursor text)) (s : State Ctx text)
    (h : base.memo.Extends s.memo) : Step base :=
  let r := round
    { s with cursor := visit.2, growthRounds := s.growthRounds + 1 } h
  let best : Step base :=
    ⟨some value, { r.state with cursor := stop }, h.trans r.keeps⟩
  match r.value with
  | none => best
  | some longer =>
    if hlt : stop.index < r.state.cursor.index then
      have := Cursor.length_rest_lt hlt
      let reached := r.state.cursor
      let memo := r.state.memo.setOutcome visit (.success reached longer)
      growFrom round visit reached longer { r.state with memo }
        ((h.trans r.keeps).trans (Memo.extends_setOutcome _ _ _))
    else best
termination_by stop.rest.length

/-- Evaluates a rule whose visit has just been entered, and enters how it
ended. If the rule was reached again at the same place meanwhile, a match is
grown. -/
def Rule.visit (rule : Rule Ctx) (id : RuleId) (base : State Ctx text)
    (app : Apply base) : Step base :=
  let key := (id, base.cursor)
  let r := rule.invoke id app base base.extends_self
  match r.value with
  | none =>
    ⟨none, { r.state with memo := r.state.memo.setOutcome key .failure },
      r.keeps.trans (Memo.extends_setOutcome _ _ _)⟩
  | some value =>
    let resolved := r.state.memo.resolve key (.success r.state.cursor value)
    let t : State Ctx text := { r.state with memo := resolved.2 }
    have hk : base.memo.Extends t.memo :=
      r.keeps.trans (Memo.extends_setOutcome _ _ _)
    if resolved.1 then
      growFrom (fun s h => rule.invoke id app s h) key r.state.cursor value t hk
    else ⟨some value, t, hk⟩

def Grammar.visits (g : Grammar Ctx) (text : List Char) :
    List (Visit (Cursor text)) :=
  (List.range g.size).flatMap fun id => (Cursor.all text).map (id, ·)

theorem Grammar.mem_visits {g : Grammar Ctx} {id : RuleId} {r : Rule Ctx}
    (h : g.rule? id = some r) (c : Cursor text) : (id, c) ∈ g.visits text :=
  List.mem_flatMap.2 ⟨id, List.mem_range.2 (g.lt_size_of_rule? h),
    List.mem_map.2 ⟨c, c.mem_all, rfl⟩⟩

def Memo.missing (m : Memo (Cursor text)) (g : Grammar Ctx) : Nat :=
  (g.visits text).countP fun v => !m.visited v

/-- A larger table misses fewer visits, if it has one more that counts. -/
theorem Memo.missing_lt {g : Grammar Ctx} {m m' : Memo (Cursor text)}
    {v : Visit (Cursor text)} (hext : m.Extends m') (hm : m.visited v = false)
    (hm' : m'.visited v) (hv : v ∈ g.visits text) :
    m'.missing g < m.missing g := by
  have hle : ∀ w, (!m'.visited w) = true → (!m.visited w) = true := by
    intro w hw
    cases hmw : m.visited w with
    | false => rfl
    | true => simp [hext w hmw] at hw
  unfold Memo.missing
  generalize g.visits text = l at hv
  induction l with
  | nil => cases hv
  | cons w l ih =>
    have hmono : l.countP (fun v => !m'.visited v)
        ≤ l.countP (fun v => !m.visited v) :=
      List.countP_mono_left fun w _ => hle w
    rcases List.mem_cons.1 hv with rfl | hv
    · simp only [List.countP_cons, hm, hm']
      simpa using Nat.lt_succ_of_le hmono
    · have := ih hv
      simp only [List.countP_cons]
      cases hw' : m'.visited w with
      | true => simp; omega
      | false => simp [hle w (by simp [hw'])]; omega

/-- Applies a rule at the cursor. A visit made before is answered from the
table; a number that no rule has matches nothing. -/
def State.apply (g : Grammar Ctx) (id : RuleId) (s : State Ctx text) : Step s :=
  let key := (id, s.cursor)
  match hl : s.memo.lookup? key with
  | some (entry, memo) =>
    have hk : s.memo.Extends memo := Memo.extends_of_lookup? hl
    match entry.outcome with
    | .inProgress _ =>
      ⟨none, { s with memo := memo.markDetected key },
        hk.trans (Memo.extends_setOutcome _ _ _)⟩
    | .failure =>
      ⟨none, { s with memo }.recordFailure id s.cursor, by
        rw [State.memo_recordFailure]; exact hk⟩
    | .success stop value => ⟨some value, { s with memo, cursor := stop }, hk⟩
  | none =>
    match hr : g.rule? id with
    | none => s.refuse
    | some rule =>
      let entered := { s with memo := s.memo.enter key }
      let r := rule.visit id entered fun id t _ => t.apply g id
      ⟨r.value, r.state, (Memo.extends_enter _ _).trans r.keeps⟩
termination_by s.memo.missing g
decreasing_by
  rename_i ht
  exact Memo.missing_lt ((Memo.extends_enter _ _).trans ht)
    (Memo.not_visited_of_lookup? hl) (ht _ (Memo.visited_enter _ _))
    (Grammar.mem_visits hr _)

end RubyIndent.Peg
