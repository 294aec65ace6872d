import RubyIndent.Proofs.Peg.Replaying

/-!
# Growing a match

A rule `r = r tail₁ | … | r tailₙ | base₁ | … | baseₘ` is grown from a seed: the
first match is one of a base, made while the rule itself fails, and then the body
is evaluated again and again, each time with the match so far in the place of
the inner `r`. The table is rewritten on the way, and a last round is thrown
away. What comes out is a loop that never applies `r` at all (`Iterates`): a
base, then tails for as long as they take text, with the action folded over the
rounds from the left.

The rules that tails and bases refer to may be left recursive themselves, so what
they give depends on what is in the table. The rule is therefore compared with
the loop in the same state (`Evaluates.iterates`).
-/

namespace RubyIndent.Peg

open RubyIndent.Text

variable {Ctx : Type} {text : List Char} {g : Grammar Ctx} {P : RuleId → Prop}

/-! ## Evaluating an expression by itself -/

def State.eval (g : Grammar Ctx) (e : Expr Ctx) (s : State Ctx text) : Step s :=
  e.eval (fun id t _ => t.apply g id) s s.extends_self

theorem State.eval_evaluates (g : Grammar Ctx) (e : Expr Ctx)
    (s : State Ctx text) :
    Evaluates g (.expr e) s (s.eval g e).value (s.eval g e).state :=
  e.eval_follows (fun id t _ => t.apply_evaluates g id) s s.extends_self

theorem exists_evaluates_all (g : Grammar Ctx) (es : List (Expr Ctx))
    (s : State Ctx text) : ∃ v t, Evaluates g (.all es) s v t := by
  have h : (evalAll (fun id t _ => t.apply g id) es s s.extends_self).Follows g
      (.all es) :=
    evalAll_follows (fun id t _ => t.apply_evaluates g id) es s s.extends_self
  exact ⟨_, _, h⟩

theorem exists_evaluates_first (g : Grammar Ctx) (es : List (Expr Ctx))
    (s : State Ctx text) : ∃ v t, Evaluates g (.first es) s v t := by
  have h : (evalFirst (fun id t _ => t.apply g id) es s s.extends_self).Follows g
      (.first es) :=
    evalFirst_follows (fun id t _ => t.apply_evaluates g id) es s s.extends_self
  exact ⟨_, _, h⟩

/-! ## The rules that an expression can reach -/

mutual

def Expr.references : Expr Ctx → List RuleId
  | .literal _ | .pattern _ | .predicate _ => []
  | .sequence es | .choice es => referencesAll es
  | .many e | .optional e | .not e | .label _ e => e.references
  | .rule id => [id]

def referencesAll : List (Expr Ctx) → List RuleId
  | [] => []
  | e :: es => e.references ++ referencesAll es

end

mutual

theorem Expr.within_of_references {P : RuleId → Prop} :
    ∀ {e : Expr Ctx}, (∀ id ∈ e.references, P id) → e.Within P
  | .literal _, _ | .pattern _, _ | .predicate _, _ => trivial
  | .sequence _, h | .choice _, h => allWithin_of_references h
  | .many e, h | .optional e, h | .not e, h | .label _ e, h =>
    Expr.within_of_references (e := e) h
  | .rule id, h => h id (List.mem_singleton.2 rfl)

theorem allWithin_of_references {P : RuleId → Prop} :
    ∀ {es : List (Expr Ctx)}, (∀ id ∈ referencesAll es, P id) → AllWithin P es
  | [], _ => trivial
  | _ :: _, h =>
    ⟨Expr.within_of_references fun id hid => h id (List.mem_append_left _ hid),
      allWithin_of_references fun id hid => h id (List.mem_append_right _ hid)⟩

end

/-- The expressions lead to a rule, through any chain of rules. -/
inductive Grammar.Reaches (g : Grammar Ctx) (es : List (Expr Ctx)) :
    RuleId → Prop where
  | refers {id} (h : id ∈ referencesAll es) : Reaches g es id
  | through {id rule id'} (h : Reaches g es id) (hr : g.rule? id = some rule)
      (hid : id' ∈ rule.body.references) : Reaches g es id'

theorem Grammar.closed_reaches (g : Grammar Ctx) (es : List (Expr Ctx)) :
    g.Closed (g.Reaches es) :=
  fun _ _ hid hr => Expr.within_of_references fun _ h => .through hid hr h

/-! ## Left recursive rules -/

/-- What may follow the match so far, and the name that the match so far is bound
to, if any. -/
structure Tail (Ctx : Type) where
  name : Option String := none
  rest : List (Expr Ctx)

namespace Tail

def self (tail : Tail Ctx) (id : RuleId) : Expr Ctx :=
  match tail.name with
  | none => .rule id
  | some name => .label name (.rule id)

def alternative (tail : Tail Ctx) (id : RuleId) : Expr Ctx :=
  .sequence (tail.self id :: tail.rest)

def expr (tail : Tail Ctx) : Expr Ctx :=
  match tail.rest with
  | [e] => e
  | es => .sequence es

/-- The binding of the match so far. -/
def bound (tail : Tail Ctx) (v : Value (Cursor text)) : Labels text :=
  match tail.name with
  | none => []
  | some name => [(name, v)]

end Tail

/-- A base, or a tail behind the rule itself. -/
def leftRecursion (id : RuleId) (tails : List (Tail Ctx))
    (bases : List (Expr Ctx)) : Expr Ctx :=
  .choice (tails.map (·.alternative id) ++ bases)

/-- A base, and then tails. -/
def iteration (tails : List (Tail Ctx)) (bases : List (Expr Ctx)) : Expr Ctx :=
  .sequence [.choice bases, .many (.choice (tails.map Tail.expr))]

/-- The rule is left recursive through its tails, and in no other way: neither a
tail nor a base leads back to it. They hold no predicates, and nothing that they
lead to depends on the context. -/
structure Grammar.LeftRecursive (g : Grammar Ctx) (id : RuleId) (rule : Rule Ctx)
    (tails : List (Tail Ctx)) (bases : List (Expr Ctx)) : Prop where
  defined : g.rule? id = some rule
  body : rule.body = leftRecursion id tails bases
  apart : ¬ g.Reaches (tails.map Tail.expr ++ bases) id
  predicateFree : AllPredicateFree (tails.map Tail.expr ++ bases)
  contextFree : ∀ i inner, g.Reaches (tails.map Tail.expr ++ bases) i →
    g.rule? i = some inner → inner.ContextFree

/-! ## The loop -/

/-- The state behind a match from `p` to the cursor, with the match bound as the
tail says. -/
def State.behind (s : State Ctx text) (p : Cursor text) (tail : Tail Ctx)
    (v : Value (Cursor text)) : State Ctx text :=
  { s with frame := ⟨p, tail.bound v⟩ }

def State.moveTo (s : State Ctx text) (c : Cursor text) : State Ctx text :=
  { s with cursor := c }

/-- The value of a rule whose body matched, in some context. -/
def Rule.makes (rule : Rule Ctx) (ctx : Ctx) (v : Value (Cursor text))
    (caps : Captures) : Value (Cursor text) :=
  match rule.action with
  | none => v
  | some action => .text (action caps ctx).1

/-- Behind a match from `p` with value `v`, tails are tried up to the first that
matches, if there is one. -/
inductive Tries (g : Grammar Ctx) (p : Cursor text) (v : Value (Cursor text)) :
    List (Tail Ctx) → State Ctx text → Bool → State Ctx text → Prop where
  | nil {s} : Tries g p v [] s false s
  | here {tail tails s w t}
      (h : Evaluates g (.all tail.rest) (s.behind p tail v) (some w) t) :
    Tries g p v (tail :: tails) s true t
  | later {tail tails s t b u}
      (h : Evaluates g (.all tail.rest) (s.behind p tail v) none t)
      (hrest : Tries g p v tails (t.moveTo s.cursor) b u) :
    Tries g p v (tail :: tails) s b u

/-- Tails are added to a match from `p` for as long as they take text. The
rule's action makes the value of each longer match from the value of the one
before, in whatever context there is by then. -/
inductive Rounds (g : Grammar Ctx) (rule : Rule Ctx) (tails : List (Tail Ctx))
    (p : Cursor text) : State Ctx text → Value (Cursor text) →
    State Ctx text → Value (Cursor text) → Prop where
  | done {s v b t} (h : Tries g p v tails s b t)
      (hle : b = true → ¬ s.cursor.index < t.cursor.index) :
    Rounds g rule tails p s v (t.moveTo s.cursor) v
  | more {s v t u w} (ctx : Ctx) (h : Tries g p v tails s true t)
      (hlt : s.cursor.index < t.cursor.index)
      (hrest : Rounds g rule tails p t
        (rule.makes ctx (.span p t.cursor) t.captures) u w) :
    Rounds g rule tails p s v u w

/-- A base at the cursor, and then tails. -/
inductive Iterates (g : Grammar Ctx) (rule : Rule Ctx) (tails : List (Tail Ctx))
    (bases : List (Expr Ctx)) (s : State Ctx text) :
    RuleResult text → State Ctx text → Prop where
  | fails {t} (h : Evaluates g (.first bases) s.opened none t) :
    Iterates g rule tails bases s none t
  | found {v t u w} (ctx : Ctx)
      (h : Evaluates g (.first bases) s.opened (some v) t)
      (hrest : Rounds g rule tails s.cursor t (rule.makes ctx v t.captures) u w) :
    Iterates g rule tails bases s (some (w, u.cursor)) u

/-- What the proofs need of a left recursive rule: its tails and bases stay
within a part of the grammar that the rule itself is not in. -/
structure Contained (g : Grammar Ctx) (P : RuleId → Prop) (id : RuleId)
    (rule : Rule Ctx) (tails : List (Tail Ctx)) (bases : List (Expr Ctx)) :
    Prop where
  defined : g.rule? id = some rule
  body : rule.body = leftRecursion id tails bases
  apart : ¬ P id
  closed : g.Closed P
  contextFree : ∀ i inner, P i → g.rule? i = some inner → inner.ContextFree
  tails : ∀ tail ∈ tails, AllWithin P tail.rest ∧ AllPredicateFree tail.rest
  bases : AllWithin P bases ∧ AllPredicateFree bases

theorem allWithin_append {P : RuleId → Prop} {es es' : List (Expr Ctx)} :
    AllWithin P (es ++ es') ↔ AllWithin P es ∧ AllWithin P es' := by
  induction es with
  | nil => simp only [List.nil_append, AllWithin, true_and]
  | cons e es ih => simp only [List.cons_append, AllWithin, ih, and_assoc]

theorem allPredicateFree_append {es es' : List (Expr Ctx)} :
    AllPredicateFree (es ++ es') ↔ AllPredicateFree es ∧ AllPredicateFree es' := by
  induction es with
  | nil => simp only [List.nil_append, AllPredicateFree, true_and]
  | cons e es ih => simp only [List.cons_append, AllPredicateFree, ih, and_assoc]

theorem Tail.within_expr (tail : Tail Ctx) :
    tail.expr.Within P ↔ AllWithin P tail.rest := by
  unfold Tail.expr
  split
  · rename_i e he
    simp only [he, AllWithin, and_true]
  · rfl

theorem Tail.predicateFree_expr (tail : Tail Ctx) :
    tail.expr.PredicateFree ↔ AllPredicateFree tail.rest := by
  unfold Tail.expr
  split
  · rename_i e he
    simp only [he, AllPredicateFree, and_true]
  · rfl

theorem Grammar.LeftRecursive.contained {id : RuleId} {rule : Rule Ctx}
    {tails : List (Tail Ctx)} {bases : List (Expr Ctx)}
    (h : g.LeftRecursive id rule tails bases) :
    Contained g (g.Reaches (tails.map Tail.expr ++ bases)) id rule tails bases := by
  have hwithin : AllWithin (g.Reaches (tails.map Tail.expr ++ bases))
      (tails.map Tail.expr ++ bases) := allWithin_of_references fun _ => .refers
  obtain ⟨hwt, hwb⟩ := allWithin_append.1 hwithin
  obtain ⟨hft, hfb⟩ := allPredicateFree_append.1 h.predicateFree
  refine ⟨h.defined, h.body, h.apart, g.closed_reaches _, h.contextFree, ?_,
    hwb, hfb⟩
  generalize g.Reaches (tails.map Tail.expr ++ bases) = P at hwt
  clear hwithin hwb h
  induction tails with
  | nil => exact nofun
  | cons tail tails ih =>
    intro other hother
    rcases List.mem_cons.1 hother with rfl | hother
    · exact ⟨other.within_expr.1 hwt.1, other.predicateFree_expr.1 hft.1⟩
    · exact ih hft.2 hwt.2 other hother

/-! ## What one application does -/

section

variable {id : RuleId} {a b : State Ctx text} {v : Option (Value (Cursor text))}

/-- While the rule is under way, the match so far is none. -/
theorem Tail.self_open {tail : Tail Ctx}
    (he : Evaluates g (.expr (tail.self id)) a v b)
    (hopen : a.memo.Open (id, a.cursor)) :
    v = none ∧ b.memo.outcome? (id, a.cursor) = some (.inProgress true) ∧
      ∀ w, (id, a.cursor) ≠ w → b.memo.outcome? w = a.memo.outcome? w := by
  obtain ⟨d, hd⟩ := hopen
  unfold Tail.self at he
  split at he
  · cases he with
    | rule he =>
      obtain ⟨hv, -, hself, hother⟩ := he.of_apply_open hd
      exact ⟨hv, hself, hother⟩
  · cases he with
    | label_none he =>
      cases he with
      | rule he =>
        obtain ⟨-, -, hself, hother⟩ := he.of_apply_open hd
        exact ⟨rfl, hself, hother⟩
    | label_some he =>
      cases he with
      | rule he => cases (he.of_apply_open hd).1

/-- Once there is a match, the match so far is the one in the table. -/
theorem Tail.self_matched {tail : Tail Ctx}
    (he : Evaluates g (.expr (tail.self id)) a v b) {c : Cursor text}
    {w : Value (Cursor text)}
    (ho : a.memo.outcome? (id, a.cursor) = some (.success c w)) :
    v = some w ∧ b.view = ⟨c, a.frame.start, tail.bound w ++ a.frame.labels⟩ ∧
      a.memo.SameOutcomes b.memo := by
  have ended : a.memo.outcome? (id, a.cursor) = some (.ofResult (some (w, c))) :=
    ho
  unfold Tail.self at he
  unfold Tail.bound
  split at he
  · cases he with
    | rule he => exact he.of_apply_ended ended
  · rename_i name _
    cases he with
    | label_none he =>
      cases he with
      | rule he => cases (he.of_apply_ended ended).1
    | label_some he =>
      cases he with
      | rule he =>
        obtain ⟨hv, hview, hsame⟩ := he.of_apply_ended ended
        cases hv
        exact ⟨rfl, congrArg (View.bindLabel · name w) hview, hsame⟩

/-- While the rule is under way, its alternatives come down to the bases. -/
theorem Evaluates.first_open {tails : List (Tail Ctx)} {es : List (Expr Ctx)}
    (he : Evaluates g (.first (tails.map (·.alternative id) ++ es)) a v b)
    (hopen : a.memo.Open (id, a.cursor)) :
    ∃ a', Evaluates g (.first es) a' v b ∧ a'.view = a.view ∧
      (tails ≠ [] ∨ a.memo.outcome? (id, a.cursor) = some (.inProgress true) →
        a'.memo.outcome? (id, a.cursor) = some (.inProgress true)) ∧
      ∀ w, (id, a.cursor) ≠ w → a'.memo.outcome? w = a.memo.outcome? w := by
  induction tails generalizing a with
  | nil => exact ⟨a, he, rfl, fun h => h.resolve_left fun h => h rfl, fun _ _ => rfl⟩
  | cons tail tails ih =>
    cases he with
    | first_some he =>
      cases he with
      | sequence_some he =>
        cases he with
        | all_cons he _ => cases (tail.self_open he hopen).1
    | first_none he hrest =>
      cases he with
      | sequence_none he =>
        cases he with
        | all_cons he _ => cases (tail.self_open he hopen).1
        | @all_none _ _ _ u he =>
          obtain ⟨-, hself, hother⟩ := tail.self_open he hopen
          obtain ⟨a', ha', hview, hmarked, hsame⟩ := ih hrest ⟨true, hself⟩
          exact ⟨a', ha', hview, fun _ => hmarked (.inr hself),
            fun w hw => (hsame w hw).trans (hother w hw)⟩

/-- The body of a rule, and its action. -/
theorem Evaluates.of_invoke {rule : Rule Ctx}
    (he : Evaluates g (.invoke id rule) a v b) :
    (∃ u, Evaluates g (.expr rule.body) a.opened none u ∧ v = none ∧
        b.memo = u.memo) ∨
      ∃ x u, Evaluates g (.expr rule.body) a.opened (some x) u ∧
        v = some (rule.makes u.context x u.captures) ∧ b.cursor = u.cursor ∧
        b.memo = u.memo := by
  cases he with
  | invoke_none he => exact .inl ⟨_, he, rfl, State.memo_recordFailure ..⟩
  | invoke_value ha he =>
    refine .inr ⟨_, _, he, ?_, rfl, rfl⟩
    unfold Rule.makes
    rw [ha]
  | invoke_action ha he =>
    refine .inr ⟨_, _, he, ?_, rfl, rfl⟩
    unfold Rule.makes
    rw [ha]

end

section

variable {id : RuleId} {rule : Rule Ctx} {tails : List (Tail Ctx)}
  {bases : List (Expr Ctx)}

/-- An evaluation within `P` keeps what the table says about other rules. -/
theorem Evaluates.outside (hg : g.Closed P) {task : Task Ctx text}
    {s t : State Ctx text} {v : Option (Value (Cursor text))}
    (he : Evaluates g task s v t) (htask : task.Within g P)
    {w : Visit (Cursor text)} (hw : ¬ P w.1) :
    t.memo.outcome? w = s.memo.outcome? w :=
  (he.apart hg htask).outside w.1 hw w.2

/-- Once there is a match, the alternatives try the tails behind it, and only
then come down to the bases. -/
theorem Evaluates.first_matched (hg : g.Closed P)
    (hfree : ∀ i inner, P i → g.rule? i = some inner → inner.ContextFree)
    (htails : ∀ tail ∈ tails, AllWithin P tail.rest ∧ AllPredicateFree tail.rest)
    {es : List (Expr Ctx)} {a b : State Ctx text}
    {v : Option (Value (Cursor text))} {p c : Cursor text}
    {w : Value (Cursor text)}
    (he : Evaluates g (.first (tails.map (·.alternative id) ++ es)) a v b)
    (hview : a.view = .fresh p)
    (ho : a.memo.outcome? (id, p) = some (.success c w)) {s : State Ctx text}
    (hs : Alike P (a.moveTo c) s) (hid : ¬ P id) :
    (∃ t, Tries g p w tails s true t ∧ v = some (.span p b.cursor) ∧
        t.frame = b.frame ∧ Alike P b t ∧
        ∀ x, ¬ P x.1 → b.memo.outcome? x = a.memo.outcome? x) ∨
      ∃ a' t, Tries g p w tails s false t ∧ Evaluates g (.first es) a' v b ∧
        a'.view = .fresh p ∧ Alike P (a'.moveTo c) t ∧
        a.memo.Keeps g P a'.memo ∧ a.memo.Closes a'.memo ∧
        ∀ x, ¬ P x.1 → a'.memo.outcome? x = a.memo.outcome? x := by
  induction tails generalizing a s with
  | nil =>
    exact .inr ⟨a, s, .nil, he, hview, hs, .refl _, .refl _, fun _ _ => rfl⟩
  | cons tail tails ih =>
    obtain ⟨hwithin, hplain⟩ := htails tail List.mem_cons_self
    obtain rfl : a.cursor = p := congrArg View.cursor hview
    have hframe : a.frame = ⟨a.cursor, []⟩ := congrArg View.frame hview
    -- Behind the match both sides evaluate the tail, in states that are alike.
    obtain ⟨y, t, ht⟩ :=
      exists_evaluates_all g tail.rest (s.behind a.cursor tail w)
    have parallel : ∀ {u x u'}, Evaluates g (.expr (tail.self id)) a (some w) u →
        Evaluates g (.all tail.rest) u x u' →
        Parallel P u x u' (s.behind a.cursor tail w) y t ∧
          (s.behind a.cursor tail w).frame = u.frame ∧
          a.memo.Keeps g P u'.memo ∧ a.memo.Closes u'.memo ∧
          ∀ z, ¬ P z.1 → u'.memo.outcome? z = a.memo.outcome? z := by
      intro u x u' hu hu'
      obtain ⟨-, hview', hsame⟩ := tail.self_matched hu ho
      have halike : Alike P u (s.behind a.cursor tail w) :=
        ⟨hs.cursor.trans (congrArg View.cursor hview').symm,
          fun i d hi => (hs.outcomes i d hi).trans (hsame _).symm⟩
      refine ⟨hu'.alike hg hfree ht hwithin (.inl hplain) halike, ?_,
        (Memo.Keeps.of_outcomes fun _ _ _ => hsame _).trans
          (hu'.keeps fun _ => trivial),
        hsame.grows.ended.trans hu'.closes, ?_⟩
      · have hbound : u.frame = _ := congrArg View.frame hview'
        rw [hbound, hframe, List.append_nil]
        rfl
      · exact fun z hz => (hu'.outside hg hwithin hz).trans (hsame z)
    cases he with
    | first_some he =>
      cases he with
      | sequence_some he =>
        cases he with
        | all_cons hu hu' =>
          cases (tail.self_matched hu ho).1
          obtain ⟨hp, hf, -, -, hout⟩ := parallel hu hu'
          rw [hp.value] at ht
          exact .inl ⟨t, .here ht, rfl, hp.bindings.frame_eq hf, hp.alike, hout⟩
    | first_none he hrest =>
      cases he with
      | @sequence_none _ _ u' he =>
        cases he with
        | all_none hu => cases (tail.self_matched hu ho).1
        | all_cons hu hu' =>
          cases (tail.self_matched hu ho).1
          obtain ⟨hp, -, hkeeps, hcloses, hout⟩ := parallel hu hu'
          rw [hp.value] at ht
          have hnext : Alike P ((u'.rewind a).moveTo c) (t.moveTo s.cursor) :=
            ⟨hs.cursor, hp.alike.outcomes⟩
          rcases ih (fun other hother => htails other (.tail _ hother)) hrest
            hview ((hout _ hid).trans ho) hnext with
            ⟨t', htries, hv, hf, halike, hsame⟩ |
            ⟨a', t', htries, he', hview', halike, hkeeps', hcloses', hsame⟩
          · exact .inl ⟨t', .later ht htries, hv, hf, halike,
              fun z hz => (hsame z hz).trans (hout z hz)⟩
          · exact .inr ⟨a', t', .later ht htries, he', hview', halike,
              hkeeps.trans hkeeps', hcloses.trans hcloses',
              fun z hz => (hsame z hz).trans (hout z hz)⟩

/-- The body of the rule is its alternatives, then its bases. -/
theorem Contained.of_invoke (hc : Contained g P id rule tails bases)
    {s t : State Ctx text} {x : Option (Value (Cursor text))}
    (he : Evaluates g (.invoke id rule) s x t) :
    ∃ y u, Evaluates g (.first (tails.map (·.alternative id) ++ bases)) s.opened
        y u ∧ t.memo = u.memo ∧
      (y = none ∧ x = none ∨ ∃ w, y = some w ∧ t.cursor = u.cursor ∧
        x = some (rule.makes u.context w u.captures)) := by
  rcases he.of_invoke with ⟨u, hu, hx, hmemo⟩ | ⟨w, u, hu, hx, hcursor, hmemo⟩
  · rw [hc.body] at hu
    cases hu with
    | choice hu => exact ⟨_, u, hu, hmemo, .inl ⟨rfl, hx⟩⟩
  · rw [hc.body] at hu
    cases hu with
    | choice hu => exact ⟨_, u, hu, hmemo, .inr ⟨w, rfl, hcursor, hx⟩⟩

/-- Entering how the rule ended says nothing about the rules in `P`. -/
theorem Contained.outcome?_settle (hc : Contained g P id rule tails bases)
    {t : State Ctx text} {c : Cursor text} {o : Outcome (Cursor text)}
    {i : RuleId} {d : Cursor text} (hi : P i) :
    (t.settle (id, c) o).memo.outcome? (i, d) = t.memo.outcome? (i, d) := by
  refine Memo.outcome?_setOutcome_ne _ ?_ _
  rintro ⟨⟩
  exact hc.apart hi

/-- The bases matched at `p` before, and not beyond `stop`. -/
def Based (g : Grammar Ctx) (P : RuleId → Prop) (bases : List (Expr Ctx))
    (p stop : Cursor text) (m : Memo (Cursor text)) : Prop :=
  ∃ (a : State Ctx text) (v : Value (Cursor text)) (b : State Ctx text),
    Evaluates g (.first bases) a (some v) b ∧ a.view = .fresh p ∧
      a.memo.Idle P ∧ b.memo.Keeps g P m ∧ b.cursor.index ≤ stop.index

theorem Based.mono {p stop stop' : Cursor text} {m m' : Memo (Cursor text)}
    (h : Based g P bases p stop m) (hm : m.Keeps g P m')
    (hle : stop.index ≤ stop'.index) : Based g P bases p stop' m' := by
  obtain ⟨a, v, b, hab, hview, hidle, hkeeps, hstop⟩ := h
  exact ⟨a, v, b, hab, hview, hidle, hkeeps.trans hm, Nat.le_trans hstop hle⟩

/-- Tried again, the bases match as before. -/
theorem Based.again (hc : Contained g P id rule tails bases)
    {p stop : Cursor text} {a b : State Ctx text}
    {v : Option (Value (Cursor text))} (h : Based g P bases p stop a.memo)
    (he : Evaluates g (.first bases) a v b) (hview : a.view = .fresh p)
    (hidle : a.memo.Idle P) : b.cursor.index ≤ stop.index := by
  obtain ⟨a₀, v₀, b₀, hbase, hview₀, hidle₀, hkeeps, hle⟩ := h
  have hsame := hbase.replays he hc.bases.2 hc.bases.1
    (hview.trans hview₀.symm) hidle₀ hidle hkeeps
  obtain ⟨v, rfl, hpair⟩ := Option.map_eq_some_iff.1 hsame
  rw [show b.cursor = b₀.cursor from congrArg (fun r => r.2.cursor) hpair]
  exact hle

/-- One round of growth. The rule's alternatives either extend the match by a
tail, or come down to the bases, which give what they gave before. -/
theorem Evaluates.round (hc : Contained g P id rule tails bases)
    {a t : State Ctx text} {x : Option (Value (Cursor text))}
    {p stop : Cursor text} {value : Value (Cursor text)}
    (he : Evaluates g (.invoke id rule) (a.regrown p) x t)
    (ho : a.memo.outcome? (id, p) = some (.success stop value))
    (hidle : a.memo.Idle P) {s : State Ctx text} (hs : Alike P (a.moveTo stop) s)
    (hbased : Based g P bases p stop a.memo) :
    (∀ y, ¬ P y.1 → t.memo.outcome? y = a.memo.outcome? y) ∧
      ((∃ u ctx, Tries g p value tails s true u ∧ Alike P t u ∧
          x = some (rule.makes ctx (.span p u.cursor) u.captures)) ∨
        ∃ u, Tries g p value tails s false u ∧ u.memo.Keeps g P t.memo ∧
          (x ≠ none → t.cursor.index ≤ stop.index)) := by
  obtain ⟨y, u, hu, hmemo, hend⟩ := hc.of_invoke he
  rw [hmemo]
  rcases hu.first_matched hc.closed hc.contextFree hc.tails rfl ho
    ⟨hs.cursor, hs.outcomes⟩ hc.apart with
    ⟨t', htries, hy, hframe, halike, hout⟩ |
    ⟨a', t', htries, hbases, hview, halike, hkeeps, hcloses, hout⟩
  · refine ⟨hout, .inl ⟨t', u.context, htries, ?_⟩⟩
    rcases hend with ⟨rfl, -⟩ | ⟨w, rfl, hcursor, rfl⟩
    · cases hy
    · cases hy
      refine ⟨⟨halike.cursor.trans hcursor.symm, ?_⟩, ?_⟩
      · rw [hmemo]
        exact halike.outcomes
      · have hcaps : t'.captures = u.captures := by
          simp only [State.captures, hframe, halike.cursor]
        rw [hcaps, halike.cursor]
        rfl
  · refine ⟨fun y hy => ?_, .inr ⟨t', htries, ?_, fun hx => ?_⟩⟩
    · exact (hbases.outside hc.closed hc.bases.1 hy).trans (hout y hy)
    · exact (Memo.Keeps.of_outcomes fun i c hi =>
        (halike.outcomes i c hi).symm).trans (hbases.keeps fun _ => trivial)
    · obtain ⟨w, -, hcursor, -⟩ := hend.resolve_left fun h => hx h.2
      rw [hcursor]
      exact (hbased.mono hkeeps (Nat.le_refl _)).again hc hbases hview
        (hidle.of_closes hcloses)

/-- A match of the rule that is grown takes the rounds of the loop. -/
theorem Evaluates.rounds_of_grow (hc : Contained g P id rule tails bases)
    {a b : State Ctx text} {v : Option (Value (Cursor text))}
    {p stop : Cursor text} {value : Value (Cursor text)}
    (he : Evaluates g (.grow id rule p stop value) a v b)
    (ho : a.memo.outcome? (id, p) = some (.success stop value))
    (hidle : a.memo.Idle P) {s : State Ctx text} (hs : Alike P (a.moveTo stop) s)
    (hbased : Based g P bases p stop a.memo) :
    ∃ t w, v = some w ∧ Rounds g rule tails p s value t w ∧
      t.cursor = b.cursor ∧ t.memo.Keeps g P b.memo ∧
      ∀ x, ¬ P x.1 → (id, p) ≠ x → b.memo.outcome? x = a.memo.outcome? x := by
  generalize htask : Task.grow id rule p stop value = task at he
  induction he generalizing stop value s with
  | grow_none h =>
    cases htask
    obtain ⟨hout, ⟨u, ctx, -, -, hx⟩ | ⟨u, htries, hkeeps, -⟩⟩ :=
      h.round hc ho hidle hs hbased
    · cases hx
    · exact ⟨_, _, rfl, .done htries nofun, hs.cursor, hkeeps,
        fun y hy _ => hout y hy⟩
  | grow_idle h hle =>
    cases htask
    obtain ⟨hout, ⟨u, ctx, htries, halike, -⟩ | ⟨u, htries, hkeeps, -⟩⟩ :=
      h.round hc ho hidle hs hbased
    · refine ⟨_, _, rfl, .done htries fun _ => ?_, hs.cursor,
        .of_outcomes fun i c hi => (halike.outcomes i c hi).symm,
        fun y hy _ => hout y hy⟩
      rw [hs.cursor, halike.cursor]
      exact hle
    · exact ⟨_, _, rfl, .done htries nofun, hs.cursor, hkeeps,
        fun y hy _ => hout y hy⟩
  | @grow_more _ _ _ _ _ a x t _ _ h hlt hrest _ ih =>
    cases htask
    obtain ⟨hout, ⟨u, ctx, htries, halike, hx⟩ | ⟨u, -, -, hle⟩⟩ :=
      h.round hc ho hidle hs hbased
    · cases hx
      obtain ⟨t', w, hv, hrounds, hcursor, hkeeps, hother⟩ := ih
        (Memo.outcome?_setOutcome_self ..)
        (hidle.of_closes (h.closes.trans (Memo.closes_setOutcome nofun)))
        (s := u) ⟨halike.cursor, fun i c hi =>
          (halike.outcomes i c hi).trans (hc.outcome?_settle hi).symm⟩
        (hbased.mono ((h.keeps fun _ => trivial).trans
          (.of_outcomes fun _ _ => hc.outcome?_settle)) (Nat.le_of_lt hlt)) rfl
      refine ⟨t', w, hv, .more ctx htries ?_ hrounds, hcursor, hkeeps,
        fun y hy hne => ?_⟩
      · rw [hs.cursor, halike.cursor]
        exact hlt
      · exact (hother y hy hne).trans
          ((Memo.outcome?_setOutcome_ne _ hne _).trans (hout y hy))
    · exact absurd (hle (Option.some_ne_none _)) (Nat.not_le_of_lt hlt)
  | _ => cases htask

theorem Memo.Idle.entered {s : State Ctx text} (h : s.memo.Idle P)
    {id : RuleId} (hid : ¬ P id) : (s.entered id).memo.Idle P := by
  intro i c hi hopen
  rcases Memo.open_enter_iff.1 hopen with heq | hopen
  · cases heq
    exact hid hi
  · exact h i c hi hopen

/-- The seed of a match: while the rule is under way, its body gives what the
bases give. -/
theorem Evaluates.seed (hc : Contained g P id rule tails bases)
    {s t : State Ctx text} {x : Option (Value (Cursor text))}
    (he : Evaluates g (.invoke id rule) (s.entered id) x t) :
    (tails ≠ [] → t.memo.detected (id, s.cursor) = true) ∧
      (∀ y, ¬ P y.1 → (id, s.cursor) ≠ y →
        t.memo.outcome? y = s.memo.outcome? y) ∧
      ∃ y u ctx, Evaluates g (.first bases) s.opened y u ∧
        (∀ i c, P i → u.memo.outcome? (i, c) = t.memo.outcome? (i, c)) ∧
        (y = none ∧ x = none ∨ ∃ w, y = some w ∧ u.cursor = t.cursor ∧
          x = some (rule.makes ctx w u.captures)) := by
  obtain ⟨y, u, hu, hmemo, hend⟩ := hc.of_invoke he
  obtain ⟨a, ha, hview, hmarked, hother⟩ := hu.first_open
    ⟨false, Memo.outcome?_enter_self s.memo (id, s.cursor)⟩
  -- Apart from the entry of the rule, the bases start from the table of `s`.
  have hsame : ∀ y, (id, s.cursor) ≠ y →
      a.memo.outcome? y = s.memo.outcome? y :=
    fun y hy => (hother y hy).trans (Memo.outcome?_enter_ne s.memo hy)
  obtain ⟨y', u', hu'⟩ := exists_evaluates_first g bases s.opened
  have hp : Parallel P a y u s.opened y' u' := by
    refine ha.alike hc.closed hc.contextFree hu' hc.bases.1 (.inl hc.bases.2)
      ⟨(congrArg View.cursor hview).symm, fun i c hi => (hsame _ ?_).symm⟩
    rintro ⟨⟩
    exact hc.apart hi
  rw [hmemo]
  refine ⟨fun htails => ?_, fun z hz hne => ?_, y', u', u.context, hu',
    hp.alike.outcomes, ?_⟩
  · rw [Memo.detected_eq_true_iff, ha.outside hc.closed hc.bases.1 hc.apart]
    exact hmarked (.inl htails)
  · exact (ha.outside hc.closed hc.bases.1 hz).trans (hsame z hne)
  · rw [hp.value]
    rcases hend with hnone | ⟨w, rfl, hcursor, rfl⟩
    · exact .inl hnone
    · refine .inr ⟨w, rfl, hp.alike.cursor.trans hcursor.symm, ?_⟩
      rw [hp.captures_eq (congrArg View.frame hview).symm]

theorem Iterates.found_at {s t u : State Ctx text} {v w : Value (Cursor text)}
    {c : Cursor text} (ctx : Ctx)
    (h : Evaluates g (.first bases) s.opened (some v) t)
    (hrest : Rounds g rule tails s.cursor t (rule.makes ctx v t.captures) u w)
    (hc : u.cursor = c) : Iterates g rule tails bases s (some (w, c)) u :=
  hc ▸ .found ctx h hrest

/-- Applied for the first time at its place, the rule gives what the loop
gives. -/
theorem Evaluates.iterates (hc : Contained g P id rule tails bases)
    {s t : State Ctx text} {v : Option (Value (Cursor text))}
    (he : Evaluates g (.apply id) s v t)
    (hnew : s.memo.outcome? (id, s.cursor) = none) (hidle : s.memo.Idle P) :
    ∃ u, Iterates g rule tails bases s (v.map (·, t.cursor)) u ∧
      u.memo.Keeps g P t.memo ∧ ∀ x, ¬ P x.1 → (id, s.cursor) ≠ x →
        t.memo.outcome? x = s.memo.outcome? x := by
  have settled : ∀ {u u' : State Ctx text} {c o},
      (∀ i c, P i → u'.memo.outcome? (i, c) = u.memo.outcome? (i, c)) →
      u'.memo.Keeps g P (u.settle (id, c) o).memo :=
    fun hsame => .of_outcomes fun i c hi =>
      (hc.outcome?_settle hi).trans (hsame i c hi).symm
  rcases he.of_apply_new hnew hc.defined with
    ⟨u, hu, rfl, rfl⟩ | ⟨x, u, hu, hend⟩
  · obtain ⟨-, hout, y, u', ctx, hu', hsame, hy⟩ := hu.seed hc
    rcases hy with ⟨rfl, -⟩ | ⟨w, -, -, hx⟩
    · refine ⟨u', .fails hu', settled hsame, fun z hz hne => ?_⟩
      exact (Memo.outcome?_setOutcome_ne _ hne _).trans (hout z hz hne)
    · cases hx
  · obtain ⟨hmarked, hout, y, u', ctx, hu', hsame, hy⟩ := hu.seed hc
    rcases hy with ⟨-, hx⟩ | ⟨w, rfl, hcursor, hx⟩
    · cases hx
    cases hx
    rcases hend with ⟨hd, rfl, rfl⟩ | ⟨-, hgrow⟩
    · -- Nothing is grown, so there are no tails.
      obtain rfl : tails = [] := by
        cases tails with
        | nil => rfl
        | cons _ _ => cases hd.symm.trans (hmarked nofun)
      refine ⟨u'.moveTo u'.cursor, .found_at ctx hu' (.done .nil nofun) hcursor,
        settled hsame, fun z hz hne => ?_⟩
      exact (Memo.outcome?_setOutcome_ne _ hne _).trans (hout z hz hne)
    · obtain ⟨t', w', rfl, hrounds, hend, hkeeps, hother⟩ :=
        hgrow.rounds_of_grow hc (Memo.outcome?_setOutcome_self ..)
          ((hidle.entered hc.apart).of_closes
            (hu.closes.trans (Memo.closes_setOutcome nofun)))
          (s := u') ⟨hcursor, fun i c hi =>
            (hsame i c hi).trans (hc.outcome?_settle hi).symm⟩
          ⟨s.opened, w, u', hu', rfl, hidle, settled hsame,
            Nat.le_of_eq (congrArg Cursor.index hcursor)⟩
      refine ⟨t', .found_at ctx hu' hrounds hend, hkeeps, fun z hz hne => ?_⟩
      exact (hother z hz hne).trans
        ((Memo.outcome?_setOutcome_ne _ hne _).trans (hout z hz hne))

end

end RubyIndent.Peg
