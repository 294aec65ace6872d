import RubyIndent.Proofs.Peg.Memoization
import RubyIndent.Proofs.Peg.Reading

/-!
# Evaluating the same thing again

Two evaluations of one expression compared, where plain recursion cannot serve
as the measure because the rules involved may be left recursive. The first
comparison is in time: whatever ended stays in the table, so an expression that
is evaluated again in a later state gives what it gave before
(`Evaluates.replays`). The second is between two states whose tables say the
same about the rules that the expression can reach; they may differ in all else
(`Evaluates.alike`).
-/

namespace RubyIndent.Peg

open RubyIndent.Text

variable {Ctx : Type} {text : List Char} {g : Grammar Ctx} {P : RuleId → Prop}

/-! ## Answers -/

/-- What applying a rule gives without evaluating anything: what the table says,
if the visit has ended, and nothing for a number that no rule has. -/
def Memo.answer? (m : Memo (Cursor text)) (g : Grammar Ctx)
    (v : Visit (Cursor text)) : Option (RuleResult text) :=
  match m.outcome? v with
  | some (.success stop value) => some (some (value, stop))
  | some .failure => some none
  | some (.inProgress _) => none
  | none => if (g.rule? v.1).isSome then none else some none

def Memo.meaning (m : Memo (Cursor text)) (g : Grammar Ctx)
    (P : RuleId → Prop) : Meaning text :=
  fun id c r => P id ∧ m.answer? g (id, c) = some r

/-- What `m` says about the rules in `P`, `m'` says as well. -/
def Memo.Keeps (g : Grammar Ctx) (P : RuleId → Prop)
    (m m' : Memo (Cursor text)) : Prop :=
  ∀ id c r, m.meaning g P id c r → m'.meaning g P id c r

def Memo.Idle (P : RuleId → Prop) (m : Memo (Cursor text)) : Prop :=
  ∀ id c, P id → ¬ m.Open (id, c)

namespace Memo

variable {m m' : Memo (Cursor text)} {v : Visit (Cursor text)}

theorem answer?_congr (h : m'.outcome? v = m.outcome? v) :
    m'.answer? g v = m.answer? g v := by
  unfold answer?
  rw [h]

theorem answer?_of_outcome? {r : RuleResult text}
    (h : m.outcome? v = some (.ofResult r)) : m.answer? g v = some r := by
  unfold answer?
  rw [h]
  cases r <;> rfl

theorem answer?_of_open (h : m.Open v) : m.answer? g v = none := by
  obtain ⟨d, hd⟩ := h
  unfold answer?
  rw [hd]

/-- A rule that was not applied yet is not answered. -/
theorem answer?_of_new {rule : Rule Ctx} (h : m.outcome? v = none)
    (hr : g.rule? v.1 = some rule) : m.answer? g v = none := by
  unfold answer?
  rw [h, hr]
  rfl

theorem Keeps.refl (m : Memo (Cursor text)) : Keeps g P m m :=
  fun _ _ _ h => h

theorem Keeps.trans {a b c : Memo (Cursor text)} (h : Keeps g P a b)
    (h' : Keeps g P b c) : Keeps g P a c :=
  fun id d r hr => h' id d r (h id d r hr)

theorem Keeps.of_outcomes
    (h : ∀ id c, P id → m'.outcome? (id, c) = m.outcome? (id, c)) :
    Keeps g P m m' :=
  fun id c _ hr => ⟨hr.1, (answer?_congr (h id c hr.1)).trans hr.2⟩

theorem Idle.of_closes (h : m.Idle P) (hm : m.Closes m') : m'.Idle P :=
  fun id c hid hopen => h id c hid (hm _ hopen)

theorem meaning_unique (id : RuleId) (c : Cursor text) (r r' : RuleResult text)
    (h : m.meaning g P id c r) (h' : m.meaning g P id c r') : r = r' :=
  Option.some.inj (h.2.symm.trans h'.2)

end Memo

/-! ## Rules leave the bindings around them alone -/

def Task.IsRule : Task Ctx text → Prop
  | .apply _ | .invoke _ _ | .grow _ _ _ _ _ => True
  | _ => False

@[simp] theorem State.frame_recordFailure (s : State Ctx text) (id : RuleId)
    (c : Cursor text) : (s.recordFailure id c).frame = s.frame :=
  congrArg View.frame (s.view_recordFailure id c)

theorem Evaluates.frame_eq {task : Task Ctx text} {s t : State Ctx text}
    {v : Option (Value (Cursor text))} (he : Evaluates g task s v t)
    (htask : task.IsRule) : t.frame = s.frame := by
  induction he with
  | apply_open _ _ | apply_matched _ _ | apply_unknown _ _ => rfl
  | apply_failed _ _ => exact State.frame_recordFailure ..
  | apply_none _ _ _ ih | apply_some _ _ _ _ ih => exact ih trivial
  | apply_grown _ _ _ _ _ ih ih' =>
    exact (ih' trivial).trans (ih trivial)
  | invoke_none _ _ => exact State.frame_recordFailure ..
  | invoke_value _ _ _ | invoke_action _ _ _ => rfl
  | grow_none _ ih | grow_idle _ _ ih => exact ih trivial
  | grow_more _ _ _ ih ih' => exact (ih' trivial).trans (ih trivial)
  | _ => exact htask.elim

/-! ## What has ended stays -/

/-- Nothing is left under way that was not so before. -/
theorem Evaluates.closes {task : Task Ctx text} {s t : State Ctx text}
    {v : Option (Value (Cursor text))} (he : Evaluates g task s v t) :
    s.memo.Closes t.memo := by
  -- No rule at all has a meaning when none is talked about.
  have hno : ∀ id (c : Cursor text) r, ¬ Settled g (fun _ => False) id c r := by
    rintro id c r ⟨n, hn⟩
    cases n with
    | zero => exact hn
    | succ n => exact hn.1
  refine (he.keepsAgreement (P := fun _ => False) ?_ ?_ ?_).closes
  · cases task <;> first | trivial | exact fun r hr => hno _ _ r hr
  · exact fun v _ _ r hr => absurd hr (hno v.1 v.2 r)
  · exact fun v _ r hr => hno _ _ r hr

/-- The match at the visit is not being grown. -/
def Task.Spares (w : Visit (Cursor text)) : Task Ctx text → Prop
  | .grow id _ start _ _ => (id, start) ≠ w
  | _ => True

theorem Evaluates.answer? {task : Task Ctx text} {s t : State Ctx text}
    {v : Option (Value (Cursor text))} (he : Evaluates g task s v t)
    {w : Visit (Cursor text)} (htask : task.Spares w) {r : RuleResult text}
    (hr : s.memo.answer? g w = some r) : t.memo.answer? g w = some r := by
  -- A visit that is entered had no answer before.
  have entered : ∀ {id} {s : State Ctx text} {rule},
      s.memo.lookup? (id, s.cursor) = none → g.rule? id = some rule →
      s.memo.answer? g w = some r →
      (id, s.cursor) ≠ w ∧ (s.entered id).memo.answer? g w = some r := by
    intro id s rule hl hrule hr
    have hne : (id, s.cursor) ≠ w := by
      rintro rfl
      cases hr.symm.trans
        (Memo.answer?_of_new (Memo.lookup?_eq_none_iff.1 hl) hrule)
    exact ⟨hne,
      (Memo.answer?_congr (Memo.outcome?_enter_ne s.memo hne)).trans hr⟩
  have settle : ∀ {t : State Ctx text} {id c o}, (id, c) ≠ w →
      t.memo.answer? g w = some r →
      (t.settle (id, c) o).memo.answer? g w = some r := by
    intro t id c o hne hr
    exact (Memo.answer?_congr (Memo.outcome?_setOutcome_ne t.memo hne o)).trans hr
  induction he with
  | literal_some _ | literal_none _ | pattern_some _ | pattern_none _
  | predicate_true _ | predicate_false _ | all_nil | first_nil
  | apply_unknown _ _ => exact hr
  | sequence_some _ ih | sequence_none _ ih | choice _ ih | many_idle _ _ ih
  | many_none _ ih | optional_some _ ih | optional_none _ ih | not_some _ ih
  | not_none _ ih | label_some _ ih | label_none _ ih | rule _ ih
  | all_none _ ih | first_some _ ih | invoke_value _ _ ih
  | invoke_action _ _ ih | grow_none _ ih | grow_idle _ _ ih =>
    exact ih trivial hr
  | many_more _ _ _ ih ih' | all_cons _ _ ih ih' | first_none _ _ ih ih' =>
    exact ih' trivial (ih trivial hr)
  | @apply_open id s _ _ _ hl ho =>
    have hopen := (Memo.outcome?_of_lookup? hl).1.trans (congrArg some ho)
    obtain ⟨-, -, -, hother⟩ :=
      (Evaluates.apply_open (g := g) hl ho).of_apply_open hopen
    have hne : (id, s.cursor) ≠ w := by
      rintro rfl
      cases hr.symm.trans (Memo.answer?_of_open ⟨_, hopen⟩)
    exact (Memo.answer?_congr (hother w hne)).trans hr
  | apply_failed hl _ =>
    rw [State.memo_recordFailure]
    exact (Memo.answer?_congr ((Memo.outcome?_of_lookup? hl).2 w)).trans hr
  | apply_matched hl _ =>
    exact (Memo.answer?_congr ((Memo.outcome?_of_lookup? hl).2 w)).trans hr
  | apply_none hl hrule _ ih | apply_some hl hrule _ _ ih =>
    obtain ⟨hne, hr⟩ := entered hl hrule hr
    exact settle hne (ih trivial hr)
  | apply_grown hl hrule _ _ _ ih ih' =>
    obtain ⟨hne, hr⟩ := entered hl hrule hr
    exact ih' hne (settle hne (ih trivial hr))
  | invoke_none _ ih =>
    rw [State.memo_recordFailure]
    exact ih trivial hr
  | grow_more _ _ _ ih ih' =>
    exact ih' htask (settle htask (ih trivial hr))

/-- Outside of growth, what the table says about a rule stays. -/
theorem Evaluates.keeps {task : Task Ctx text} {s t : State Ctx text}
    {v : Option (Value (Cursor text))} (he : Evaluates g task s v t)
    (htask : ∀ w, task.Spares w) : s.memo.Keeps g P t.memo :=
  fun id c _ hr => ⟨hr.1, he.answer? (htask (id, c)) hr.2⟩

/-- A match that was grown is the one in the table. -/
theorem Evaluates.answer?_grow {id : RuleId} {rule : Rule Ctx}
    {start stop : Cursor text} {value : Value (Cursor text)}
    {s t : State Ctx text} {v : Option (Value (Cursor text))}
    (he : Evaluates g (.grow id rule start stop value) s v t)
    (hs : s.memo.outcome? (id, start) = some (.success stop value)) :
    t.memo.answer? g (id, start) = some (v.map (·, t.cursor)) := by
  generalize htask : Task.grow id rule start stop value = task at he
  induction he generalizing stop value with
  | grow_none h | grow_idle h _ =>
    cases htask
    exact h.answer? trivial (Memo.answer?_of_outcome? hs)
  | grow_more _ _ _ _ ih =>
    cases htask
    exact ih (Memo.outcome?_setOutcome_self ..) rfl
  | _ => cases htask

/-- A rule that is not under way leaves its result in the table. -/
theorem Evaluates.answer?_apply {id : RuleId} {s t : State Ctx text}
    {v : Option (Value (Cursor text))} (he : Evaluates g (.apply id) s v t)
    (hs : ¬ s.memo.Open (id, s.cursor)) :
    t.memo.answer? g (id, s.cursor) = some (v.map (·, t.cursor)) := by
  cases he with
  | apply_open hl ho =>
    exact absurd ⟨_, (Memo.outcome?_of_lookup? hl).1.trans (congrArg some ho)⟩ hs
  | apply_failed hl ho =>
    obtain ⟨h, hsame⟩ := Memo.outcome?_of_lookup? hl
    refine Memo.answer?_of_outcome? ?_
    rw [State.memo_recordFailure]
    exact (hsame _).trans (h.trans (congrArg some ho))
  | apply_matched hl ho =>
    obtain ⟨h, hsame⟩ := Memo.outcome?_of_lookup? hl
    exact Memo.answer?_of_outcome? ((hsame _).trans (h.trans (congrArg some ho)))
  | apply_unknown hl hr =>
    simp only [Memo.answer?, Memo.lookup?_eq_none_iff.1 hl, hr]
    rfl
  | apply_none _ _ _ | apply_some _ _ _ _ =>
    exact Memo.answer?_of_outcome? (Memo.outcome?_setOutcome_self ..)
  | apply_grown _ _ _ _ hgrow =>
    exact hgrow.answer?_grow (Memo.outcome?_setOutcome_self ..)

/-! ## Matches go forward -/

theorem index_le_skip (n : Nat) (c : Cursor text) :
    c.index ≤ (c.skip n).index := by
  have hc := c.index_add_length_rest
  have hd := (c.skip n).index_add_length_rest
  rw [rest_skip, List.length_drop] at hd
  omega

def Task.origin (s : State Ctx text) : Task Ctx text → Cursor text
  | .grow _ _ start _ _ => start
  | _ => s.cursor

def Task.Forward : Task Ctx text → Prop
  | .grow _ _ start stop _ => start.index ≤ stop.index
  | _ => True

theorem Evaluates.forward {task : Task Ctx text} {s t : State Ctx text}
    {v : Option (Value (Cursor text))} (he : Evaluates g task s v t)
    (htask : task.Forward) (hs : s.memo.Forward) :
    t.memo.Forward ∧ (v ≠ none → (task.origin s).index ≤ t.cursor.index) := by
  induction he with
  | literal_some _ | pattern_some _ => exact ⟨hs, fun _ => index_le_skip ..⟩
  | literal_none _ | pattern_none _ | predicate_false _ | first_nil
  | apply_unknown _ _ => exact ⟨hs, fun h => absurd rfl h⟩
  | predicate_true _ | all_nil => exact ⟨hs, fun _ => Nat.le_refl _⟩
  | sequence_some _ ih | many_idle _ _ ih | optional_some _ ih
  | label_some _ ih =>
    obtain ⟨hm, hle⟩ := ih trivial hs
    exact ⟨hm, fun _ => hle (Option.some_ne_none _)⟩
  | many_none _ ih | optional_none _ ih | not_none _ ih =>
    exact ⟨(ih trivial hs).1, fun _ => Nat.le_refl _⟩
  | sequence_none _ ih | not_some _ ih | label_none _ ih | all_none _ ih =>
    exact ⟨(ih trivial hs).1, fun h => absurd rfl h⟩
  | choice _ ih | rule _ ih | first_some _ ih => exact ih trivial hs
  | many_more _ hlt _ ih ih' =>
    obtain ⟨hm, hle⟩ := ih' trivial (ih trivial hs).1
    exact ⟨hm, fun _ => Nat.le_trans (Nat.le_of_lt hlt)
      (hle (Option.some_ne_none _))⟩
  | all_cons _ _ ih ih' =>
    obtain ⟨hm, hle⟩ := ih trivial hs
    obtain ⟨hm', hle'⟩ := ih' trivial hm
    exact ⟨hm', fun h => Nat.le_trans (hle (Option.some_ne_none _)) (hle' h)⟩
  | first_none _ _ ih ih' => exact ih' trivial (ih trivial hs).1
  | apply_open hl _ =>
    refine ⟨?_, fun h => absurd rfl h⟩
    exact (hs.of_sameOutcomes (Memo.outcome?_of_lookup? hl).2).setOutcome trivial
  | apply_failed hl _ =>
    refine ⟨?_, fun h => absurd rfl h⟩
    rw [State.memo_recordFailure]
    exact hs.of_sameOutcomes (Memo.outcome?_of_lookup? hl).2
  | apply_matched hl ho =>
    obtain ⟨h, hsame⟩ := Memo.outcome?_of_lookup? hl
    exact ⟨hs.of_sameOutcomes hsame, fun _ => hs _ _ (h.trans (congrArg some ho))⟩
  | apply_none _ _ _ ih =>
    exact ⟨(ih trivial (hs.enter trivial)).1.setOutcome trivial, fun h => absurd rfl h⟩
  | apply_some _ _ _ _ ih =>
    obtain ⟨hm, hle⟩ := ih trivial (hs.enter trivial)
    have hmatch := hle (Option.some_ne_none _)
    exact ⟨hm.setOutcome hmatch, fun _ => hmatch⟩
  | apply_grown _ _ _ _ _ ih ih' =>
    obtain ⟨hm, hle⟩ := ih trivial (hs.enter trivial)
    have hseed := hle (Option.some_ne_none _)
    exact ih' hseed (hm.setOutcome hseed)
  | invoke_none _ ih =>
    refine ⟨?_, fun h => absurd rfl h⟩
    rw [State.memo_recordFailure]
    exact (ih trivial hs).1
  | invoke_value _ _ ih | invoke_action _ _ ih =>
    obtain ⟨hm, hle⟩ := ih trivial hs
    exact ⟨hm, fun _ => hle (Option.some_ne_none _)⟩
  | grow_none _ ih | grow_idle _ _ ih => exact ⟨(ih trivial hs).1, fun _ => htask⟩
  | grow_more _ _ _ ih ih' =>
    obtain ⟨hm, hle⟩ := ih trivial hs
    have hlonger := hle (Option.some_ne_none _)
    exact ih' hlonger (hm.setOutcome hlonger)

/-! ## Evaluating again later -/

mutual

/-- The expression itself holds no predicate; the rules that it refers to may. -/
def Expr.PredicateFree : Expr Ctx → Prop
  | .literal _ | .pattern _ | .rule _ => True
  | .sequence es | .choice es => AllPredicateFree es
  | .many e | .optional e | .not e | .label _ e => e.PredicateFree
  | .predicate _ => False

def AllPredicateFree : List (Expr Ctx) → Prop
  | [] => True
  | e :: es => e.PredicateFree ∧ AllPredicateFree es

end

def Task.PredicateFree : Task Ctx text → Prop
  | .expr e => e.PredicateFree
  | .all es | .first es => AllPredicateFree es
  | _ => False

/-- What an expression gives is its meaning in the table that it leaves. -/
theorem Evaluates.denotes {task : Task Ctx text} {s t : State Ctx text}
    {v : Option (Value (Cursor text))} (he : Evaluates g task s v t)
    (hfree : task.PredicateFree) (hw : task.Within g P)
    (hs : s.memo.Idle P) :
    Denotes (t.memo.meaning g P) task s.view (v.map (·, t.view)) := by
  induction he with
  | literal_some h => exact .literal_some h
  | literal_none h => exact .literal_none h
  | pattern_some h => exact .pattern_some h
  | pattern_none h => exact .pattern_none h
  | sequence_some _ ih => exact .sequence_some (ih hfree hw hs)
  | sequence_none _ ih => exact .sequence_none (ih hfree hw hs)
  | choice _ ih => exact .choice (ih hfree hw hs)
  | many_more h hlt hrest ih ih' =>
    exact .many_more ((ih hfree hw hs).mono (hrest.keeps fun _ => trivial)) hlt
      (ih' hfree hw (hs.of_closes h.closes))
  | many_idle _ hle ih => exact .many_idle (ih hfree hw hs) hle
  | many_none _ ih => exact .many_none (ih hfree hw hs)
  | optional_some _ ih => exact .optional_some (ih hfree hw hs)
  | optional_none _ ih => exact .optional_none (ih hfree hw hs)
  | not_some _ ih => exact .not_some (ih hfree hw hs)
  | not_none _ ih => exact .not_none (ih hfree hw hs)
  | predicate_true _ | predicate_false _ => exact hfree.elim
  | label_some _ ih => exact .label_some (ih hfree hw hs)
  | label_none _ ih => exact .label_none (ih hfree hw hs)
  | @rule id s v t h _ =>
    have hanswer := h.answer?_apply (hs id s.cursor hw)
    cases v with
    | none => exact .rule_none ⟨hw, hanswer⟩
    | some v =>
      have hview : t.view = s.view.moveTo t.cursor :=
        congrArg (View.mk t.cursor) (h.frame_eq trivial)
      rw [Option.map_some, hview]
      exact .rule_some ⟨hw, hanswer⟩
  | all_nil => exact .all_nil
  | all_cons h hrest ih ih' =>
    exact .all_cons ((ih hfree.1 hw.1 hs).mono (hrest.keeps fun _ => trivial))
      (ih' hfree.2 hw.2 (hs.of_closes h.closes))
  | all_none _ ih => exact .all_none (ih hfree.1 hw.1 hs)
  | first_nil => exact .first_nil
  | first_some _ ih => exact .first_some (ih hfree.1 hw.1 hs)
  | first_none h hrest ih ih' =>
    exact .first_none
      ((ih hfree.1 hw.1 hs).mono (hrest.keeps fun _ => trivial))
      (ih' hfree.2 hw.2 (hs.of_closes h.closes))
  | _ => exact hfree.elim

/-- Evaluated again in a table that keeps what the first time left, an
expression gives the same. -/
theorem Evaluates.replays {task : Task Ctx text} {a a' b b' : State Ctx text}
    {v w : Option (Value (Cursor text))} (ha : Evaluates g task a v a')
    (hb : Evaluates g task b w b') (hfree : task.PredicateFree)
    (hw : task.Within g P) (hview : b.view = a.view) (hia : a.memo.Idle P)
    (hib : b.memo.Idle P) (hkeep : a'.memo.Keeps g P b.memo) :
    w.map (·, b'.view) = v.map (·, a'.view) := by
  have hspares : ∀ w, task.Spares w := by
    intro w
    cases task with
    | grow _ _ _ _ _ => exact hfree.elim
    | _ => trivial
  have hda := (ha.denotes hfree hw hia).mono (hkeep.trans (hb.keeps hspares))
  have hdb := hb.denotes hfree hw hib
  rw [hview] at hdb
  exact hdb.unique a.context Memo.meaning_unique hda

/-! ## Evaluating in tables that say the same -/

/-- A rule whose predicates do not depend on the context, nor the text that its
action makes. -/
def Rule.ContextFree (rule : Rule Ctx) : Prop :=
  rule.body.ContextFree ∧ ∀ action, rule.action = some action →
    ∀ caps c c', (action caps c).1 = (action caps c').1

/-- Two states at the same place whose tables say the same about the rules in
`P`. -/
structure Alike (P : RuleId → Prop) (a b : State Ctx text) : Prop where
  cursor : b.cursor = a.cursor
  outcomes : ∀ id c, P id → b.memo.outcome? (id, c) = a.memo.outcome? (id, c)

/-- From `a` to `a'` the same names were bound to the same values as from `b` to
`b'`. -/
def SameBindings (a a' b b' : State Ctx text) : Prop :=
  ∃ added, a'.frame = ⟨a.frame.start, added ++ a.frame.labels⟩ ∧
    b'.frame = ⟨b.frame.start, added ++ b.frame.labels⟩

/-- Two evaluations, from `a` to `a'` and from `b` to `b'`, that do the same. -/
structure Parallel (P : RuleId → Prop) (a : State Ctx text)
    (v : Option (Value (Cursor text))) (a' b : State Ctx text)
    (w : Option (Value (Cursor text))) (b' : State Ctx text) : Prop where
  value : w = v
  alike : Alike P a' b'
  bindings : SameBindings a a' b b'

/-- No predicate of the expression can tell two states at the same place
apart. -/
def Task.Blind (a b : State Ctx text) : Task Ctx text → Prop
  | .expr e => e.PredicateFree ∨ e.ContextFree ∧ b.frame = a.frame
  | .all es | .first es =>
    AllPredicateFree es ∨ AllContextFree es ∧ b.frame = a.frame
  | _ => True

section

variable {a a' b b' c c' : State Ctx text}
  {v w : Option (Value (Cursor text))}

/-- Both go on where the other does. -/
theorem Alike.moveTo (h : Alike P a b) (c : Cursor text) :
    Alike P { a with cursor := c } { b with cursor := c } :=
  ⟨rfl, h.outcomes⟩

theorem Alike.settle (h : Alike P a b) (id : RuleId) (c : Cursor text)
    (o : Outcome (Cursor text)) :
    Alike P (a.settle (id, c) o) (b.settle (id, c) o) := by
  refine ⟨h.cursor, fun id' c' hid' => ?_⟩
  by_cases hv : (id, c) = (id', c')
  · rw [← hv]
    exact (Memo.outcome?_setOutcome_self ..).trans
      (Memo.outcome?_setOutcome_self ..).symm
  · exact (Memo.outcome?_setOutcome_ne _ hv o).trans
      ((h.outcomes id' c' hid').trans (Memo.outcome?_setOutcome_ne _ hv o).symm)

theorem Alike.entered (h : Alike P a b) (id : RuleId) :
    Alike P (a.entered id) (b.entered id) := by
  refine ⟨h.cursor, fun id' c' hid' => ?_⟩
  unfold State.entered
  rw [h.cursor]
  by_cases hv : (id, a.cursor) = (id', c')
  · rw [← hv, Memo.outcome?_enter_self, Memo.outcome?_enter_self]
  · rw [Memo.outcome?_enter_ne _ hv, Memo.outcome?_enter_ne _ hv]
    exact h.outcomes id' c' hid'

theorem SameBindings.refl (a b : State Ctx text) : SameBindings a a b b :=
  ⟨[], rfl, rfl⟩

theorem SameBindings.of_frames (ha : a'.frame = a.frame)
    (hb : b'.frame = b.frame) : SameBindings a a' b b' :=
  ⟨[], ha, hb⟩

theorem SameBindings.trans (h : SameBindings a a' b b')
    (h' : SameBindings a' c b' c') : SameBindings a c b c' := by
  obtain ⟨added, ha, hb⟩ := h
  obtain ⟨more, hc, hc'⟩ := h'
  refine ⟨more ++ added, ?_, ?_⟩
  · rw [hc, ha, List.append_assoc]
  · rw [hc', hb, List.append_assoc]

theorem SameBindings.frame_eq (h : SameBindings a a' b b')
    (hframe : b.frame = a.frame) : b'.frame = a'.frame := by
  obtain ⟨added, ha, hb⟩ := h
  rw [ha, hb, hframe]

/-- Going back to places that are the same. -/
theorem Alike.rewind (h : Alike P a' b') (hstart : Alike P a b) :
    Alike P (a'.rewind a) (b'.rewind b) :=
  ⟨hstart.cursor, h.outcomes⟩

theorem Alike.opened (h : Alike P a b) : Alike P a.opened b.opened :=
  ⟨h.cursor, h.outcomes⟩

theorem Alike.frame_opened (h : Alike P a b) : b.opened.frame = a.opened.frame :=
  congrArg (fun c => Frame.mk c []) h.cursor

/-- Rules start without bindings. -/
theorem Alike.blind_opened (h : Alike P a b) {e : Expr Ctx}
    (he : e.ContextFree) : (Task.expr e).Blind a.opened b.opened :=
  .inr ⟨he, h.frame_opened⟩

theorem Alike.regrown (h : Alike P a b) (c : Cursor text) :
    Alike P (a.regrown c) (b.regrown c) :=
  ⟨rfl, h.outcomes⟩

theorem Alike.recordFailure (h : Alike P a b) (id : RuleId) (c d : Cursor text) :
    Alike P (a.recordFailure id c) (b.recordFailure id d) := by
  refine ⟨?_, fun id' c' hid' => ?_⟩
  · exact (congrArg View.cursor (b.view_recordFailure id d)).trans
      (h.cursor.trans (congrArg View.cursor (a.view_recordFailure id c)).symm)
  · rw [State.memo_recordFailure, State.memo_recordFailure]
    exact h.outcomes id' c' hid'

theorem Alike.outcome?_eq_none (h : Alike P a b) {id : RuleId} (hid : P id)
    (hnew : a.memo.outcome? (id, a.cursor) = none) :
    b.memo.outcome? (id, b.cursor) = none := by
  rw [h.cursor, h.outcomes id _ hid]
  exact hnew

theorem Alike.detected_eq (h : Alike P a b) {id : RuleId} (hid : P id)
    {c : Cursor text} : b.memo.detected (id, c) = a.memo.detected (id, c) := by
  rw [Bool.eq_iff_iff, Memo.detected_eq_true_iff, Memo.detected_eq_true_iff,
    h.outcomes id c hid]

/-- Actions and predicates see the same. -/
theorem Parallel.captures_eq (h : Parallel P a v a' b w b')
    (hframe : b.frame = a.frame) : b'.captures = a'.captures := by
  simp only [State.captures, h.alike.cursor, h.bindings.frame_eq hframe]

/-- A rule that has ended in both tables. -/
theorem Alike.apply_ended (h : Alike P a b) {id : RuleId} (hid : P id)
    (ha : Evaluates g (.apply id) a v a') (hb : Evaluates g (.apply id) b w b')
    {r : RuleResult text}
    (ho : a.memo.outcome? (id, a.cursor) = some (.ofResult r)) :
    Parallel P a v a' b w b' := by
  obtain ⟨rfl, hview, hsame⟩ := ha.of_apply_ended ho
  rw [← h.outcomes id _ hid, ← h.cursor] at ho
  obtain ⟨rfl, hview', hsame'⟩ := hb.of_apply_ended ho
  refine ⟨rfl, ⟨?_, fun id' c' hid' => ?_⟩,
    .of_frames (congrArg View.frame hview) (congrArg View.frame hview')⟩
  · have hcursor := congrArg View.cursor hview'
    rw [h.cursor] at hcursor
    exact hcursor.trans (congrArg View.cursor hview).symm
  · exact (hsame' _).trans ((h.outcomes id' c' hid').trans (hsame _).symm)

/-- Bindings that are the same stay the same, and what cannot tell two states
apart at first cannot do so later. -/
theorem SameBindings.blind (h : SameBindings a a' b b') {p q : Prop}
    (hblind : p ∨ q ∧ b.frame = a.frame) : p ∨ q ∧ b'.frame = a'.frame :=
  hblind.imp_right fun hq => ⟨hq.1, h.frame_eq hq.2⟩

end

/-- Evaluated in two states at the same place, with tables that say the same
about the rules it reaches, an expression gives the same. -/
theorem Evaluates.alike (hg : g.Closed P)
    (hfree : ∀ id rule, P id → g.rule? id = some rule → rule.ContextFree)
    {task : Task Ctx text} {a a' b b' : State Ctx text}
    {v w : Option (Value (Cursor text))} (ha : Evaluates g task a v a')
    (hb : Evaluates g task b w b') (hw : task.Within g P)
    (hblind : task.Blind a b) (h : Alike P a b) :
    Parallel P a v a' b w b' := by
  induction ha generalizing b w b' with
  | literal_some hm =>
    cases hb with
    | literal_some _ =>
      exact ⟨by rw [h.cursor], ⟨by rw [h.cursor], h.outcomes⟩, .refl ..⟩
    | literal_none hm' =>
      rw [h.cursor] at hm'
      cases hm.symm.trans hm'
  | literal_none hm =>
    cases hb with
    | literal_some hm' =>
      rw [h.cursor] at hm'
      cases hm.symm.trans hm'
    | literal_none _ => exact ⟨rfl, h, .refl ..⟩
  | pattern_some hm =>
    cases hb with
    | pattern_some hm' =>
      rw [h.cursor] at hm'
      cases hm.symm.trans hm'
      exact ⟨by rw [h.cursor], ⟨by rw [h.cursor], h.outcomes⟩, .refl ..⟩
    | pattern_none hm' =>
      rw [h.cursor] at hm'
      cases hm.symm.trans hm'
  | pattern_none hm =>
    cases hb with
    | pattern_some hm' =>
      rw [h.cursor] at hm'
      cases hm.symm.trans hm'
    | pattern_none _ => exact ⟨rfl, h, .refl ..⟩
  | sequence_some _ ih =>
    cases hb with
    | sequence_some hb =>
      have hp := ih hb hw hblind h
      exact ⟨by rw [h.cursor, hp.alike.cursor], hp.alike, hp.bindings⟩
    | sequence_none hb => cases (ih hb hw hblind h).value
  | sequence_none _ ih =>
    cases hb with
    | sequence_some hb => cases (ih hb hw hblind h).value
    | sequence_none hb =>
      exact ⟨rfl, (ih hb hw hblind h).alike.rewind h, .refl ..⟩
  | choice _ ih =>
    cases hb with
    | choice hb => exact ih hb hw hblind h
  | many_more _ hlt _ ih ih' =>
    cases hb with
    | many_more hb _ hrest =>
      have hp := ih hb hw hblind h
      have hp' := ih' hrest hw (hp.bindings.blind hblind) hp.alike
      exact ⟨by rw [h.cursor, hp'.alike.cursor], hp'.alike,
        hp.bindings.trans hp'.bindings⟩
    | many_idle hb hle =>
      rw [h.cursor, (ih hb hw hblind h).alike.cursor] at hle
      exact absurd hlt hle
    | many_none hb => cases (ih hb hw hblind h).value
  | many_idle _ hle ih =>
    cases hb with
    | many_more hb hlt _ =>
      rw [h.cursor, (ih hb hw hblind h).alike.cursor] at hlt
      exact absurd hlt hle
    | many_idle hb _ =>
      have hp := ih hb hw hblind h
      exact ⟨by rw [h.cursor, hp.alike.cursor], hp.alike, hp.bindings⟩
    | many_none hb => cases (ih hb hw hblind h).value
  | many_none _ ih =>
    cases hb with
    | many_more hb _ _ => cases (ih hb hw hblind h).value
    | many_idle hb _ => cases (ih hb hw hblind h).value
    | many_none hb =>
      exact ⟨by rw [h.cursor], (ih hb hw hblind h).alike.rewind h, .refl ..⟩
  | optional_some _ ih =>
    cases hb with
    | optional_some hb =>
      have hp := ih hb hw hblind h
      exact ⟨by rw [h.cursor, hp.alike.cursor], hp.alike, hp.bindings⟩
    | optional_none hb => cases (ih hb hw hblind h).value
  | optional_none _ ih =>
    cases hb with
    | optional_some hb => cases (ih hb hw hblind h).value
    | optional_none hb =>
      exact ⟨by rw [h.cursor], (ih hb hw hblind h).alike.rewind h, .refl ..⟩
  | not_some _ ih =>
    cases hb with
    | not_some hb =>
      have hp := ih hb hw hblind ⟨h.cursor, h.outcomes⟩
      exact ⟨rfl, ⟨h.cursor, hp.alike.outcomes⟩, .refl ..⟩
    | not_none hb => cases (ih hb hw hblind ⟨h.cursor, h.outcomes⟩).value
  | not_none _ ih =>
    cases hb with
    | not_some hb => cases (ih hb hw hblind ⟨h.cursor, h.outcomes⟩).value
    | not_none hb =>
      have hp := ih hb hw hblind ⟨h.cursor, h.outcomes⟩
      exact ⟨by rw [h.cursor], ⟨h.cursor, hp.alike.outcomes⟩, .refl ..⟩
  -- A predicate sees the same bindings, and the context does not count.
  | @predicate_true check a hm =>
    obtain ⟨hcheck, hframe⟩ := hblind.resolve_left id
    have hcaps : b.captures = a.captures := by
      simp only [State.captures, h.cursor, hframe]
    cases hb with
    | predicate_true _ => exact ⟨by rw [h.cursor], h, .refl ..⟩
    | predicate_false hm' =>
      rw [hcaps, hcheck _ _ a.context] at hm'
      cases hm.symm.trans hm'
  | @predicate_false check a hm =>
    obtain ⟨hcheck, hframe⟩ := hblind.resolve_left id
    have hcaps : b.captures = a.captures := by
      simp only [State.captures, h.cursor, hframe]
    cases hb with
    | predicate_true hm' =>
      rw [hcaps, hcheck _ _ a.context] at hm'
      cases hm.symm.trans hm'
    | predicate_false _ => exact ⟨rfl, h, .refl ..⟩
  | @label_some name _ _ v _ _ ih =>
    cases hb with
    | label_some hb =>
      have hp := ih hb hw hblind h
      cases hp.value
      refine ⟨rfl, ⟨hp.alike.cursor, hp.alike.outcomes⟩, ?_⟩
      obtain ⟨added, hfa, hfb⟩ := hp.bindings
      refine ⟨(name, v) :: added, ?_, ?_⟩
      · simp only [State.bindLabel, hfa, List.cons_append]
      · simp only [State.bindLabel, hfb, List.cons_append]
    | label_none hb => cases (ih hb hw hblind h).value
  | label_none _ ih =>
    cases hb with
    | label_some hb => cases (ih hb hw hblind h).value
    | label_none hb => exact ih hb hw hblind h
  | rule _ ih =>
    cases hb with
    | rule hb => exact ih hb hw trivial h
  | all_nil =>
    cases hb with
    | all_nil => exact ⟨by rw [h.cursor], h, .refl ..⟩
  | all_cons _ _ ih ih' =>
    have hblind₁ := hblind.imp And.left fun hq => And.intro hq.1.1 hq.2
    have hblind₂ := hblind.imp And.right fun hq => And.intro hq.1.2 hq.2
    cases hb with
    | all_cons hb hrest =>
      have hp := ih hb hw.1 hblind₁ h
      have hp' := ih' hrest hw.2 (hp.bindings.blind hblind₂) hp.alike
      exact ⟨hp'.value, hp'.alike, hp.bindings.trans hp'.bindings⟩
    | all_none hb => cases (ih hb hw.1 hblind₁ h).value
  | all_none _ ih =>
    have hblind₁ := hblind.imp And.left fun hq => And.intro hq.1.1 hq.2
    cases hb with
    | all_cons hb _ => cases (ih hb hw.1 hblind₁ h).value
    | all_none hb => exact ih hb hw.1 hblind₁ h
  | first_nil =>
    cases hb with
    | first_nil => exact ⟨rfl, h, .refl ..⟩
  | first_some _ ih =>
    have hblind₁ := hblind.imp And.left fun hq => And.intro hq.1.1 hq.2
    cases hb with
    | first_some hb => exact ih hb hw.1 hblind₁ h
    | first_none hb _ => cases (ih hb hw.1 hblind₁ h).value
  | first_none _ _ ih ih' =>
    have hblind₁ := hblind.imp And.left fun hq => And.intro hq.1.1 hq.2
    have hblind₂ := hblind.imp And.right fun hq => And.intro hq.1.2 hq.2
    cases hb with
    | first_some hb => cases (ih hb hw.1 hblind₁ h).value
    | first_none hb hrest =>
      have hp := ih hb hw.1 hblind₁ h
      have hp' := ih' hrest hw.2 hblind₂ (hp.alike.rewind h)
      exact ⟨hp'.value, hp'.alike, hp'.bindings⟩
  -- The rules in `P` have the same entries in both tables, so an application
  -- ends in the same way in both.
  | @apply_open id a _ _ d hl ho =>
    have hopen := (Memo.outcome?_of_lookup? hl).1.trans (congrArg some ho)
    obtain ⟨-, -, hself, hother⟩ :=
      (Evaluates.apply_open (g := g) hl ho).of_apply_open hopen
    rw [← h.outcomes id _ hw, ← h.cursor] at hopen
    obtain ⟨rfl, hview, hself', hother'⟩ := hb.of_apply_open hopen
    rw [h.cursor] at hself' hother'
    refine ⟨rfl, ⟨(congrArg View.cursor hview).trans h.cursor, ?_⟩,
      .of_frames rfl (congrArg View.frame hview)⟩
    intro id' c' hid'
    by_cases hv : (id, a.cursor) = (id', c')
    · rw [← hv]
      exact hself'.trans hself.symm
    · exact (hother' _ hv).trans ((h.outcomes id' c' hid').trans (hother _ hv).symm)
  | @apply_failed id a _ _ hl ho =>
    obtain ⟨hout, hsame⟩ := Memo.outcome?_of_lookup? hl
    have hended : a.memo.outcome? (id, a.cursor) = some (.ofResult none) :=
      hout.trans (congrArg some ho)
    exact h.apply_ended hw (.apply_failed hl ho) hb hended
  | @apply_matched id a _ _ stop v hl ho =>
    obtain ⟨hout, hsame⟩ := Memo.outcome?_of_lookup? hl
    have hended : a.memo.outcome? (id, a.cursor)
        = some (.ofResult (some (v, stop))) :=
      hout.trans (congrArg some ho)
    exact h.apply_ended hw (.apply_matched hl ho) hb hended
  | @apply_unknown id a hl hr =>
    have hnew := h.outcome?_eq_none hw (Memo.lookup?_eq_none_iff.1 hl)
    cases hb with
    | apply_open hl' _ | apply_failed hl' _ | apply_matched hl' _ =>
      cases hnew.symm.trans (Memo.outcome?_of_lookup? hl').1
    | apply_unknown _ _ => exact ⟨rfl, h, .refl ..⟩
    | apply_none _ hr' _ | apply_some _ hr' _ _ | apply_grown _ hr' _ _ _ =>
      cases hr.symm.trans hr'
  | @apply_none id a rule t hl hr _ ih =>
    have hnew := h.outcome?_eq_none hw (Memo.lookup?_eq_none_iff.1 hl)
    rcases hb.of_apply_new hnew hr with ⟨u, hu, rfl, rfl⟩ | ⟨x, u, hu, -⟩
    · have hp := ih hu ⟨hw, hr⟩ trivial (h.entered id)
      rw [h.cursor]
      exact ⟨rfl, hp.alike.settle .., hp.bindings⟩
    · cases (ih hu ⟨hw, hr⟩ trivial (h.entered id)).value
  | @apply_some id a rule v t hl hr _ hd ih =>
    have hnew := h.outcome?_eq_none hw (Memo.lookup?_eq_none_iff.1 hl)
    rcases hb.of_apply_new hnew hr with ⟨u, hb, -⟩ | ⟨x, u, hb, hend⟩
    · cases (ih hb ⟨hw, hr⟩ trivial (h.entered id)).value
    · have hp := ih hb ⟨hw, hr⟩ trivial (h.entered id)
      cases hp.value
      rw [h.cursor, hp.alike.cursor, hp.alike.detected_eq hw] at hend
      rcases hend with ⟨-, rfl, rfl⟩ | ⟨hd', -⟩
      · exact ⟨rfl, hp.alike.settle .., hp.bindings⟩
      · cases hd.symm.trans hd'
  | @apply_grown id a rule v t _ _ hl hr _ hd _ ih ih' =>
    have hnew := h.outcome?_eq_none hw (Memo.lookup?_eq_none_iff.1 hl)
    rcases hb.of_apply_new hnew hr with ⟨u, hb, -⟩ | ⟨x, u, hb, hend⟩
    · cases (ih hb ⟨hw, hr⟩ trivial (h.entered id)).value
    · have hp := ih hb ⟨hw, hr⟩ trivial (h.entered id)
      cases hp.value
      rw [h.cursor, hp.alike.cursor, hp.alike.detected_eq hw] at hend
      rcases hend with ⟨hd', -⟩ | ⟨-, hgrow⟩
      · cases hd.symm.trans hd'
      · have hp' := ih' hgrow ⟨hw, hr⟩ trivial (hp.alike.settle ..)
        exact ⟨hp'.value, hp'.alike, hp.bindings.trans hp'.bindings⟩
  | invoke_none _ ih =>
    cases hb with
    | invoke_none hb =>
      have hp := ih hb (hg _ _ hw.1 hw.2) (h.blind_opened (hfree _ _ hw.1 hw.2).1)
        h.opened
      exact ⟨rfl, (hp.alike.rewind h).recordFailure .., .of_frames
        (State.frame_recordFailure ..) (State.frame_recordFailure ..)⟩
    | invoke_value _ hb | invoke_action _ hb =>
      cases (ih hb (hg _ _ hw.1 hw.2) (h.blind_opened (hfree _ _ hw.1 hw.2).1)
        h.opened).value
  | invoke_value hact _ ih =>
    cases hb with
    | invoke_none hb =>
      cases (ih hb (hg _ _ hw.1 hw.2) (h.blind_opened (hfree _ _ hw.1 hw.2).1)
        h.opened).value
    | invoke_value _ hb =>
      have hp := ih hb (hg _ _ hw.1 hw.2) (h.blind_opened (hfree _ _ hw.1 hw.2).1)
        h.opened
      exact ⟨hp.value, ⟨hp.alike.cursor, hp.alike.outcomes⟩, .refl ..⟩
    | invoke_action hact' _ => cases hact.symm.trans hact'
  | invoke_action hact _ ih =>
    cases hb with
    | invoke_none hb =>
      cases (ih hb (hg _ _ hw.1 hw.2) (h.blind_opened (hfree _ _ hw.1 hw.2).1)
        h.opened).value
    | invoke_value hact' _ => cases hact.symm.trans hact'
    | @invoke_action _ _ _ _ u _ hact' hb =>
      cases hact.symm.trans hact'
      have hp := ih hb (hg _ _ hw.1 hw.2) (h.blind_opened (hfree _ _ hw.1 hw.2).1)
        h.opened
      refine ⟨?_, ⟨hp.alike.cursor, hp.alike.outcomes⟩, .refl ..⟩
      rw [hp.captures_eq h.frame_opened,
        (hfree _ _ hw.1 hw.2).2 _ hact _ u.context]
  | grow_none _ ih =>
    cases hb with
    | grow_none hb =>
      have hp := ih hb hw trivial (h.regrown _)
      exact ⟨rfl, hp.alike.moveTo _, hp.bindings⟩
    | grow_idle hb _ | grow_more hb _ _ =>
      cases (ih hb hw trivial (h.regrown _)).value
  | grow_idle _ hle ih =>
    cases hb with
    | grow_none hb => cases (ih hb hw trivial (h.regrown _)).value
    | grow_idle hb _ =>
      have hp := ih hb hw trivial (h.regrown _)
      exact ⟨rfl, hp.alike.moveTo _, hp.bindings⟩
    | grow_more hb hlt _ =>
      rw [(ih hb hw trivial (h.regrown _)).alike.cursor] at hlt
      exact absurd hlt hle
  | grow_more _ hlt _ ih ih' =>
    cases hb with
    | grow_none hb => cases (ih hb hw trivial (h.regrown _)).value
    | grow_idle hb hle =>
      rw [(ih hb hw trivial (h.regrown _)).alike.cursor] at hle
      exact absurd hlt hle
    | grow_more hb _ hrest =>
      have hp := ih hb hw trivial (h.regrown _)
      cases hp.value
      rw [hp.alike.cursor] at hrest
      have hp' := ih' hrest hw trivial (hp.alike.settle ..)
      exact ⟨hp'.value, hp'.alike, hp.bindings.trans hp'.bindings⟩

end RubyIndent.Peg
