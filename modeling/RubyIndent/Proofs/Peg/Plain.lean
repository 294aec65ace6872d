import RubyIndent.Proofs.Peg.Table

/-!
# Matching without a table

The meaning of expressions and rules by themselves: no table, no context, no
record of failures. `Denotes M` gives expressions their meaning from a meaning
`M` of the rules they refer to, and `Settles n` is the meaning of rules whose
references nest at most `n` deep. A rule that reaches itself again at the same
place has no meaning of its own and settles at no depth.

A predicate has an answer here only if it is the same in every context, and so
has the text that an action makes. Rules outside a given set `P` are left
without a meaning, which is how a part of a grammar can be talked about that
does not depend on the context although the rest does.
-/

namespace RubyIndent.Peg

open RubyIndent.Text

variable {Ctx : Type} {text : List Char}

/-- What an expression sees of a state: the cursor, and the bindings of the
rule around it. -/
structure View (text : List Char) where
  cursor : Cursor text
  frame : Frame text

namespace View

def moveTo (p : View text) (c : Cursor text) : View text :=
  { p with cursor := c }

def captures (p : View text) : Captures where
  input := text
  start := p.frame.start
  stop := p.cursor
  labels := p.frame.labels

def bindLabel (p : View text) (name : String) (v : Value (Cursor text)) :
    View text :=
  { p with frame := { p.frame with labels := (name, v) :: p.frame.labels } }

def fresh (c : Cursor text) : View text :=
  ⟨c, { start := c }⟩

end View

def State.view (s : State Ctx text) : View text :=
  ⟨s.cursor, s.frame⟩

/-- The result of an expression: nothing, or a value and the view after it. -/
abbrev Result (text : List Char) := Option (Value (Cursor text) × View text)

abbrev RuleResult (text : List Char) :=
  Option (Value (Cursor text) × Cursor text)

/-- What rules give at places. -/
abbrev Meaning (text : List Char) :=
  RuleId → Cursor text → RuleResult text → Prop

/-- What expressions give, from what rules give. -/
inductive Denotes (M : Meaning text) :
    Task Ctx text → View text → Result text → Prop where
  | literal_some {w p} (h : w.toList.isPrefixOf p.cursor.rest = true) :
    Denotes M (.expr (.literal w)) p
      (some (.span p.cursor (p.cursor.skip w.length),
        p.moveTo (p.cursor.skip w.length)))
  | literal_none {w p} (h : w.toList.isPrefixOf p.cursor.rest = false) :
    Denotes M (.expr (.literal w)) p none
  | pattern_some {r p n} (h : r.regex.matchLength? p.cursor.rest = some n) :
    Denotes M (.expr (.pattern r)) p
      (some (.span p.cursor (p.cursor.skip n), p.moveTo (p.cursor.skip n)))
  | pattern_none {r p} (h : r.regex.matchLength? p.cursor.rest = none) :
    Denotes M (.expr (.pattern r)) p none
  | sequence_some {es p v q} (h : Denotes M (.all es) p (some (v, q))) :
    Denotes M (.expr (.sequence es)) p (some (.span p.cursor q.cursor, q))
  | sequence_none {es p} (h : Denotes M (.all es) p none) :
    Denotes M (.expr (.sequence es)) p none
  | choice {es p o} (h : Denotes M (.first es) p o) :
    Denotes M (.expr (.choice es)) p o
  | many_more {e p v q w u} (h : Denotes M (.expr e) p (some (v, q)))
      (hlt : p.cursor.index < q.cursor.index)
      (hrest : Denotes M (.expr (.many e)) q (some (w, u))) :
    Denotes M (.expr (.many e)) p (some (.span p.cursor u.cursor, u))
  | many_idle {e p v q} (h : Denotes M (.expr e) p (some (v, q)))
      (hle : ¬ p.cursor.index < q.cursor.index) :
    Denotes M (.expr (.many e)) p (some (.span p.cursor q.cursor, q))
  | many_none {e p} (h : Denotes M (.expr e) p none) :
    Denotes M (.expr (.many e)) p (some (.span p.cursor p.cursor, p))
  | optional_some {e p v q} (h : Denotes M (.expr e) p (some (v, q))) :
    Denotes M (.expr (.optional e)) p (some (.span p.cursor q.cursor, q))
  | optional_none {e p} (h : Denotes M (.expr e) p none) :
    Denotes M (.expr (.optional e)) p (some (.span p.cursor p.cursor, p))
  | not_some {e p v q} (h : Denotes M (.expr e) p (some (v, q))) :
    Denotes M (.expr (.not e)) p none
  | not_none {e p} (h : Denotes M (.expr e) p none) :
    Denotes M (.expr (.not e)) p (some (.span p.cursor p.cursor, p))
  | predicate_true {check : Predicate Ctx} {p}
      (h : ∀ ctx, check p.captures ctx = true) :
    Denotes M (.expr (.predicate check)) p (some (.span p.cursor p.cursor, p))
  | predicate_false {check : Predicate Ctx} {p}
      (h : ∀ ctx, check p.captures ctx = false) :
    Denotes M (.expr (.predicate check)) p none
  | label_some {name e p v q} (h : Denotes M (.expr e) p (some (v, q))) :
    Denotes M (.expr (.label name e)) p (some (v, q.bindLabel name v))
  | label_none {name e p} (h : Denotes M (.expr e) p none) :
    Denotes M (.expr (.label name e)) p none
  | rule_some {id p v c} (h : M id p.cursor (some (v, c))) :
    Denotes M (.expr (.rule id)) p (some (v, p.moveTo c))
  | rule_none {id p} (h : M id p.cursor none) :
    Denotes M (.expr (.rule id)) p none
  | all_nil {p} : Denotes M (.all []) p (some (.span p.cursor p.cursor, p))
  | all_cons {e es p v q o} (h : Denotes M (.expr e) p (some (v, q)))
      (hrest : Denotes M (.all es) q o) :
    Denotes M (.all (e :: es)) p o
  | all_none {e es p} (h : Denotes M (.expr e) p none) :
    Denotes M (.all (e :: es)) p none
  | first_nil {p} : Denotes M (.first []) p none
  | first_some {e es p r} (h : Denotes M (.expr e) p (some r)) :
    Denotes M (.first (e :: es)) p (some r)
  | first_none {e es p o} (h : Denotes M (.expr e) p none)
      (hrest : Denotes M (.first es) p o) :
    Denotes M (.first (e :: es)) p o

/-- How the result of a body becomes the result of its rule. -/
inductive Rule.Concludes (rule : Rule Ctx) :
    Result text → RuleResult text → Prop where
  | none : rule.Concludes none none
  | value {v q} (ha : rule.action = Option.none) :
    rule.Concludes (some (v, q)) (some (v, q.cursor))
  | action {v q} {action : Action Ctx} {made : String}
      (ha : rule.action = some action)
      (h : ∀ ctx, (action q.captures ctx).1 = made) :
    rule.Concludes (some (v, q)) (some (.text made, q.cursor))

def Rule.Yields (rule : Rule Ctx) (M : Meaning text) (c : Cursor text)
    (r : RuleResult text) : Prop :=
  ∃ o, Denotes M (.expr rule.body) (.fresh c) o ∧ rule.Concludes o r

/-- What the rules in `P` give, when rules nest at most so deep. -/
def Settles (g : Grammar Ctx) (P : RuleId → Prop) : Nat → Meaning text
  | 0, _, _, _ => False
  | n + 1, id, c, r =>
    P id ∧ ∃ rule, g.rule? id = some rule ∧ rule.Yields (Settles g P n) c r

def Settled (g : Grammar Ctx) (P : RuleId → Prop) : Meaning text :=
  fun id c r => ∃ n, Settles g P n id c r

/-! ## More meaning for rules, more for expressions -/

theorem Denotes.mono {M M' : Meaning text}
    (hM : ∀ id c r, M id c r → M' id c r) {task : Task Ctx text}
    {p : View text} {o : Result text} (h : Denotes M task p o) :
    Denotes M' task p o := by
  induction h with
  | literal_some h => exact .literal_some h
  | literal_none h => exact .literal_none h
  | pattern_some h => exact .pattern_some h
  | pattern_none h => exact .pattern_none h
  | sequence_some _ ih => exact .sequence_some ih
  | sequence_none _ ih => exact .sequence_none ih
  | choice _ ih => exact .choice ih
  | many_more _ hlt _ ih ih' => exact .many_more ih hlt ih'
  | many_idle _ hle ih => exact .many_idle ih hle
  | many_none _ ih => exact .many_none ih
  | optional_some _ ih => exact .optional_some ih
  | optional_none _ ih => exact .optional_none ih
  | not_some _ ih => exact .not_some ih
  | not_none _ ih => exact .not_none ih
  | predicate_true h => exact .predicate_true h
  | predicate_false h => exact .predicate_false h
  | label_some _ ih => exact .label_some ih
  | label_none _ ih => exact .label_none ih
  | rule_some h => exact .rule_some (hM _ _ _ h)
  | rule_none h => exact .rule_none (hM _ _ _ h)
  | all_nil => exact .all_nil
  | all_cons _ _ ih ih' => exact .all_cons ih ih'
  | all_none _ ih => exact .all_none ih
  | first_nil => exact .first_nil
  | first_some _ ih => exact .first_some ih
  | first_none _ _ ih ih' => exact .first_none ih ih'

theorem Rule.Yields.mono {rule : Rule Ctx} {M M' : Meaning text}
    (hM : ∀ id c r, M id c r → M' id c r) {c : Cursor text}
    {r : RuleResult text} (h : rule.Yields M c r) : rule.Yields M' c r := by
  obtain ⟨o, ho, hr⟩ := h
  exact ⟨o, ho.mono hM, hr⟩

section

variable {g : Grammar Ctx} {P : RuleId → Prop}

theorem Settles.succ : ∀ {n : Nat} {id : RuleId} {c : Cursor text}
    {r : RuleResult text}, Settles g P n id c r → Settles g P (n + 1) id c r
  | 0, _, _, _, h => h.elim
  | _ + 1, _, _, _, ⟨hP, rule, hr, hy⟩ =>
    ⟨hP, rule, hr, hy.mono fun _ _ _ => Settles.succ⟩

theorem Settles.mono {n m : Nat} (hnm : n ≤ m) {id : RuleId} {c : Cursor text}
    {r : RuleResult text} (h : Settles g P n id c r) :
    Settles g P m id c r := by
  induction hnm with
  | refl => exact h
  | step _ ih => exact ih.succ

/-- One derivation refers to finitely many rules, so their nesting has a
bound. -/
theorem Denotes.bounded {task : Task Ctx text} {p : View text}
    {o : Result text} (h : Denotes (Settled g P) task p o) :
    ∃ n, Denotes (Settles g P n) task p o := by
  induction h with
  | literal_some h => exact ⟨0, .literal_some h⟩
  | literal_none h => exact ⟨0, .literal_none h⟩
  | pattern_some h => exact ⟨0, .pattern_some h⟩
  | pattern_none h => exact ⟨0, .pattern_none h⟩
  | sequence_some _ ih => exact ih.imp fun _ h => .sequence_some h
  | sequence_none _ ih => exact ih.imp fun _ h => .sequence_none h
  | choice _ ih => exact ih.imp fun _ h => .choice h
  | many_more _ hlt _ ih ih' =>
    obtain ⟨n, h⟩ := ih
    obtain ⟨m, h'⟩ := ih'
    exact ⟨max n m, .many_more (h.mono fun _ _ _ => .mono (Nat.le_max_left ..))
      hlt (h'.mono fun _ _ _ => .mono (Nat.le_max_right ..))⟩
  | many_idle _ hle ih => exact ih.imp fun _ h => .many_idle h hle
  | many_none _ ih => exact ih.imp fun _ h => .many_none h
  | optional_some _ ih => exact ih.imp fun _ h => .optional_some h
  | optional_none _ ih => exact ih.imp fun _ h => .optional_none h
  | not_some _ ih => exact ih.imp fun _ h => .not_some h
  | not_none _ ih => exact ih.imp fun _ h => .not_none h
  | predicate_true h => exact ⟨0, .predicate_true h⟩
  | predicate_false h => exact ⟨0, .predicate_false h⟩
  | label_some _ ih => exact ih.imp fun _ h => .label_some h
  | label_none _ ih => exact ih.imp fun _ h => .label_none h
  | rule_some h => exact h.imp fun _ h => .rule_some h
  | rule_none h => exact h.imp fun _ h => .rule_none h
  | all_nil => exact ⟨0, .all_nil⟩
  | all_cons _ _ ih ih' =>
    obtain ⟨n, h⟩ := ih
    obtain ⟨m, h'⟩ := ih'
    exact ⟨max n m, .all_cons (h.mono fun _ _ _ => .mono (Nat.le_max_left ..))
      (h'.mono fun _ _ _ => .mono (Nat.le_max_right ..))⟩
  | all_none _ ih => exact ih.imp fun _ h => .all_none h
  | first_nil => exact ⟨0, .first_nil⟩
  | first_some _ ih => exact ih.imp fun _ h => .first_some h
  | first_none _ _ ih ih' =>
    obtain ⟨n, h⟩ := ih
    obtain ⟨m, h'⟩ := ih'
    exact ⟨max n m, .first_none (h.mono fun _ _ _ => .mono (Nat.le_max_left ..))
      (h'.mono fun _ _ _ => .mono (Nat.le_max_right ..))⟩

/-- A rule of `P` gives what its body gives. -/
theorem Settled.intro {id : RuleId} {rule : Rule Ctx} {c : Cursor text}
    {r : RuleResult text} (hP : P id) (hr : g.rule? id = some rule)
    (h : rule.Yields (Settled g P) c r) : Settled g P id c r := by
  obtain ⟨o, ho, hc⟩ := h
  obtain ⟨n, hn⟩ := ho.bounded
  exact ⟨n + 1, hP, rule, hr, o, hn, hc⟩

end

/-! ## A meaning is unique -/

/-- The context is only there to show that there is one: the answer of a
predicate in every context is its answer in some. -/
theorem Denotes.unique (ctx : Ctx) {M : Meaning text}
    (hM : ∀ id c r r', M id c r → M id c r' → r = r') {task : Task Ctx text}
    {p : View text} {o o' : Result text} (h : Denotes M task p o)
    (h' : Denotes M task p o') : o = o' := by
  induction h generalizing o' with
  | literal_some h =>
    cases h' with
    | literal_some _ => rfl
    | literal_none h' => simp [h] at h'
  | literal_none h =>
    cases h' with
    | literal_some h' => simp [h] at h'
    | literal_none _ => rfl
  | pattern_some h =>
    cases h' with
    | pattern_some h' => cases h.symm.trans h'; rfl
    | pattern_none h' => cases h.symm.trans h'
  | pattern_none h =>
    cases h' with
    | pattern_some h' => cases h.symm.trans h'
    | pattern_none _ => rfl
  | sequence_some _ ih =>
    cases h' with
    | sequence_some h' => cases ih h'; rfl
    | sequence_none h' => cases ih h'
  | sequence_none _ ih =>
    cases h' with
    | sequence_some h' => cases ih h'
    | sequence_none h' => rfl
  | choice _ ih =>
    cases h' with
    | choice h' => exact ih h'
  | many_more _ hlt _ ih ih' =>
    cases h' with
    | many_more h' _ hr' => cases ih h'; cases ih' hr'; rfl
    | many_idle h' hle => cases ih h'; exact absurd hlt hle
    | many_none h' => cases ih h'
  | many_idle _ hle ih =>
    cases h' with
    | many_more h' hlt _ => cases ih h'; exact absurd hlt hle
    | many_idle h' _ => cases ih h'; rfl
    | many_none h' => cases ih h'
  | many_none _ ih =>
    cases h' with
    | many_more h' _ _ => cases ih h'
    | many_idle h' _ => cases ih h'
    | many_none _ => rfl
  | optional_some _ ih =>
    cases h' with
    | optional_some h' => cases ih h'; rfl
    | optional_none h' => cases ih h'
  | optional_none _ ih =>
    cases h' with
    | optional_some h' => cases ih h'
    | optional_none _ => rfl
  | not_some _ ih =>
    cases h' with
    | not_some _ => rfl
    | not_none h' => cases ih h'
  | not_none _ ih =>
    cases h' with
    | not_some h' => cases ih h'
    | not_none _ => rfl
  | predicate_true h =>
    cases h' with
    | predicate_true _ => rfl
    | predicate_false h' => cases (h ctx).symm.trans (h' ctx)
  | predicate_false h =>
    cases h' with
    | predicate_true h' => cases (h ctx).symm.trans (h' ctx)
    | predicate_false _ => rfl
  | label_some _ ih =>
    cases h' with
    | label_some h' => cases ih h'; rfl
    | label_none h' => cases ih h'
  | label_none _ ih =>
    cases h' with
    | label_some h' => cases ih h'
    | label_none _ => rfl
  | rule_some h =>
    cases h' with
    | rule_some h' => cases hM _ _ _ _ h h'; rfl
    | rule_none h' => cases hM _ _ _ _ h h'
  | rule_none h =>
    cases h' with
    | rule_some h' => cases hM _ _ _ _ h h'
    | rule_none _ => rfl
  | all_nil =>
    cases h' with
    | all_nil => rfl
  | all_cons _ _ ih ih' =>
    cases h' with
    | all_cons h' hr' => cases ih h'; exact ih' hr'
    | all_none h' => cases ih h'
  | all_none _ ih =>
    cases h' with
    | all_cons h' _ => cases ih h'
    | all_none _ => rfl
  | first_nil =>
    cases h' with
    | first_nil => rfl
  | first_some _ ih =>
    cases h' with
    | first_some h' => exact ih h'
    | first_none h' _ => cases ih h'
  | first_none _ _ ih ih' =>
    cases h' with
    | first_some h' => cases ih h'
    | first_none _ hr' => exact ih' hr'

theorem Rule.Concludes.unique (ctx : Ctx) {rule : Rule Ctx} {o : Result text}
    {r r' : RuleResult text} (h : rule.Concludes o r)
    (h' : rule.Concludes o r') : r = r' := by
  cases h with
  | none =>
    cases h'
    rfl
  | value ha =>
    cases h' with
    | value _ => rfl
    | action ha' _ => cases ha.symm.trans ha'
  | action ha h =>
    cases h' with
    | value ha' => cases ha.symm.trans ha'
    | action ha' h' =>
      cases ha.symm.trans ha'
      rw [← h ctx, ← h' ctx]

section

variable {g : Grammar Ctx} {P : RuleId → Prop}

theorem Settles.unique (ctx : Ctx) : ∀ (n : Nat) (id : RuleId)
    (c : Cursor text) (r r' : RuleResult text), Settles g P n id c r →
      Settles g P n id c r' → r = r'
  | 0, _, _, _, _, h, _ => h.elim
  | n + 1, _, _, _, _, ⟨_, rule, hr, o, ho, hc⟩, ⟨_, rule', hr', o', ho', hc'⟩ => by
    cases hr.symm.trans hr'
    cases ho.unique ctx (Settles.unique ctx n) ho'
    exact hc.unique ctx hc'

theorem Settled.unique (ctx : Ctx) {id : RuleId} {c : Cursor text}
    {r r' : RuleResult text} (h : Settled g P id c r)
    (h' : Settled g P id c r') : r = r' := by
  obtain ⟨n, hn⟩ := h
  obtain ⟨m, hm⟩ := h'
  exact Settles.unique ctx (max n m) id c r r' (hn.mono (Nat.le_max_left ..))
    (hm.mono (Nat.le_max_right ..))

end

end RubyIndent.Peg
