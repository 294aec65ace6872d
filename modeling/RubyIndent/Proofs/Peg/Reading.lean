import RubyIndent.Proofs.Pattern.Matching
import RubyIndent.Proofs.Peg.Transparency

/-!
# Expressions as readers

An expression that binds nothing and asks for nothing is a reader: it takes
something off the front of a text and leaves the rest. `Reads e f` says that
the expression `e` has the meaning of the reader `f`, and there is one lemma for
each kind of expression. What an evaluation does is then known from the reader
alone (`Reads.took`): where it ends, that it leaves the context as it was, and
that it adds nothing to the table for rules outside of the part that is talked
about.
-/

namespace RubyIndent.Peg

open RubyIndent.Text

/-- Takes something off the front of a text, and leaves the rest. -/
abbrev Reader := List Char → Option (List Char)

namespace Reader

def literal (w : String) : Reader :=
  w.toList.isPrefixOf?

def pattern (p : Pattern) : Reader :=
  p.regex.strip some

def next (f g : Reader) : Reader :=
  fun s => (f s).bind g

def orElse (f g : Reader) : Reader :=
  fun s => (f s).or (g s)

/-- Takes nothing, where a reader would not take anything either. -/
def absent (f : Reader) : Reader :=
  fun s => if (f s).isSome then none else some s

/-- Takes nothing, where a reader would take something. -/
def present (f : Reader) : Reader :=
  absent (absent f)

def optional (f : Reader) : Reader :=
  fun s => some ((f s).getD s)

/-- What is left when a reader is used over and over. -/
def skipAll (f : Reader) (s : List Char) : List Char :=
  match f s with
  | none => s
  | some t => if t.length < s.length then skipAll f t else t
termination_by s.length

def many (f : Reader) : Reader :=
  fun s => some (skipAll f s)

end Reader

/-! ## Places -/

section

variable {text : List Char}

/-- What is left at a place determines the place. -/
theorem cursor_eq_of_rest {c d : Cursor text} (h : c.rest = d.rest) : c = d := by
  have hc := c.index_add_length_rest
  have hd := d.index_add_length_rest
  rw [h] at hc
  exact Cursor.ext_index (by omega)

theorem rest_skip (n : Nat) (c : Cursor text) :
    (c.skip n).rest = c.rest.drop n := by
  induction n generalizing c with
  | zero => rfl
  | succ n ih =>
    unfold Cursor.skip
    split
    · rename_i h
      rw [Pattern.rest_of_next?_none h, List.drop_nil]
    · rename_i h
      rw [ih, Pattern.rest_of_next? h, List.drop_succ_cons]

end

@[simp] theorem isPrefixOf?_nil (s : List Char) : [].isPrefixOf? s = some s :=
  rfl

@[simp] theorem isPrefixOf?_cons (c d : Char) (w s : List Char) :
    (c :: w).isPrefixOf? (d :: s)
      = if c == d then w.isPrefixOf? s else none :=
  rfl

theorem isPrefixOf?_eq (w s : List Char) : w.isPrefixOf? s
    = if w.isPrefixOf s then some (s.drop w.length) else none := by
  induction w generalizing s with
  | nil => rfl
  | cons c w ih =>
    cases s with
    | nil => rfl
    | cons d s =>
      simp only [isPrefixOf?_cons, List.isPrefixOf, ih, List.length_cons,
        List.drop_succ_cons, Bool.and_eq_true]
      by_cases h : (c == d) = true <;> simp [h]

variable {Ctx : Type} {text : List Char} {g : Grammar Ctx} {P : RuleId → Prop}

/-! ## What an expression leaves -/

/-- The expression ends at the view with what is left, or fails. -/
def Ends (g : Grammar Ctx) (P : RuleId → Prop) (e : Expr Ctx) (p : View text) :
    Option (List Char) → Prop
  | none => Denotes (Settled g P) (.expr e) p none
  | some r => ∃ d, d.rest = r ∧
    Denotes (Settled g P) (.expr e) p (some (.span p.cursor d, p.moveTo d))

def EndsAll (g : Grammar Ctx) (P : RuleId → Prop) (es : List (Expr Ctx))
    (p : View text) : Option (List Char) → Prop
  | none => Denotes (Settled g P) (.all es) p none
  | some r => ∃ d, d.rest = r ∧
    ∃ v, Denotes (Settled g P) (.all es) p (some (v, p.moveTo d))

/-- The expression has the meaning of a reader. -/
def Reads (g : Grammar Ctx) (P : RuleId → Prop) (e : Expr Ctx) (f : Reader) :
    Prop :=
  ∀ (text : List Char) (p : View text), Ends g P e p (f p.cursor.rest)

def ReadsAll (g : Grammar Ctx) (P : RuleId → Prop) (es : List (Expr Ctx))
    (f : Reader) : Prop :=
  ∀ (text : List Char) (p : View text), EndsAll g P es p (f p.cursor.rest)

theorem Ends.literal (w : String) (p : View text) :
    Ends g P (.literal w) p (Reader.literal w p.cursor.rest) := by
  rw [Reader.literal, isPrefixOf?_eq]
  cases h : w.toList.isPrefixOf p.cursor.rest with
  | false => exact .literal_none h
  | true =>
    refine ⟨p.cursor.skip w.length, ?_, .literal_some h⟩
    rw [rest_skip, String.length_toList]

theorem Ends.pattern {r : Pattern} (hr : r.regex.proper = true)
    (p : View text) :
    Ends g P (.pattern r) p (Reader.pattern r p.cursor.rest) := by
  rw [Reader.pattern, ← Pattern.drop_matchLength? hr]
  cases h : r.regex.matchLength? p.cursor.rest with
  | none => exact .pattern_none h
  | some n => exact ⟨p.cursor.skip n, rest_skip n _, .pattern_some h⟩

theorem EndsAll.nil (p : View text) : EndsAll g P [] p (some p.cursor.rest) :=
  ⟨p.cursor, rfl, _, .all_nil⟩

/-- An expression, and then others at the place where it ends. -/
theorem EndsAll.cons {e : Expr Ctx} {es : List (Expr Ctx)} {p : View text}
    {o : Option (List Char)} {f : Reader} (h : Ends g P e p o)
    (hes : ∀ d : Cursor text, o = some d.rest →
      EndsAll g P es (p.moveTo d) (f d.rest)) :
    EndsAll g P (e :: es) p (o.bind f) := by
  cases o with
  | none => exact .all_none h
  | some r =>
    obtain ⟨d, rfl, hd⟩ := h
    have hrest := hes d rfl
    rw [Option.bind_some]
    cases hf : f d.rest with
    | none =>
      rw [hf] at hrest
      exact .all_cons hd hrest
    | some r' =>
      rw [hf] at hrest
      obtain ⟨d', rfl, v, hv⟩ := hrest
      exact ⟨d', rfl, v, .all_cons hd hv⟩

theorem EndsAll.last {e : Expr Ctx} {p : View text} {o : Option (List Char)}
    (h : Ends g P e p o) : EndsAll g P [e] p o := by
  have hall := EndsAll.cons (f := some) h fun d _ => EndsAll.nil (p.moveTo d)
  cases o with
  | none => exact hall
  | some r => exact hall

theorem Ends.sequence {es : List (Expr Ctx)} {p : View text}
    {o : Option (List Char)} (h : EndsAll g P es p o) :
    Ends g P (.sequence es) p o := by
  cases o with
  | none => exact .sequence_none h
  | some r =>
    obtain ⟨d, rfl, v, hv⟩ := h
    exact ⟨d, rfl, .sequence_some hv⟩

theorem Ends.choice_nil (p : View text) : Ends g P (.choice []) p none :=
  .choice .first_nil

theorem Ends.choice_cons {e : Expr Ctx} {es : List (Expr Ctx)} {p : View text}
    {o o' : Option (List Char)} (h : Ends g P e p o)
    (hes : Ends g P (.choice es) p o') :
    Ends g P (.choice (e :: es)) p (o.or o') := by
  cases o with
  | some r =>
    obtain ⟨d, rfl, hd⟩ := h
    exact ⟨d, rfl, .choice (.first_some hd)⟩
  | none =>
    rw [Option.none_or]
    cases o' with
    | none =>
      cases hes with
      | choice hes => exact .choice (.first_none h hes)
    | some r =>
      obtain ⟨d, rfl, hd⟩ := hes
      cases hd with
      | choice hd => exact ⟨d, rfl, .choice (.first_none h hd)⟩

theorem Ends.optional {e : Expr Ctx} {p : View text} {o : Option (List Char)}
    (h : Ends g P e p o) :
    Ends g P (.optional e) p (some (o.getD p.cursor.rest)) := by
  cases o with
  | none => exact ⟨p.cursor, rfl, .optional_none h⟩
  | some r =>
    obtain ⟨d, rfl, hd⟩ := h
    exact ⟨d, rfl, .optional_some hd⟩

theorem Ends.not {e : Expr Ctx} {p : View text} {o : Option (List Char)}
    (h : Ends g P e p o) :
    Ends g P (.not e) p (if o.isSome then none else some p.cursor.rest) := by
  cases o with
  | none => exact ⟨p.cursor, rfl, .not_none h⟩
  | some r =>
    obtain ⟨d, _, hd⟩ := h
    exact .not_some hd

/-- Rounds of a repetition end where the reader of a round says, as far as the
repetition goes. -/
theorem Ends.many {e : Expr Ctx} {p : View text} {f : Reader}
    (h : ∀ d : Cursor text, d.rest.length ≤ p.cursor.rest.length →
      Ends g P e (p.moveTo d) (f d.rest)) :
    Ends g P (.many e) p (Reader.many f p.cursor.rest) := by
  generalize hn : p.cursor.rest.length = n
  induction n using Nat.strongRecOn generalizing p with
  | _ n ih =>
    have here := h p.cursor (Nat.le_refl _)
    simp only [Reader.many]
    rw [Reader.skipAll]
    cases hf : f p.cursor.rest with
    | none =>
      rw [hf] at here
      exact ⟨p.cursor, rfl, .many_none here⟩
    | some r =>
      rw [hf] at here
      obtain ⟨d, rfl, hd⟩ := here
      dsimp only
      split
      · rename_i hlt
        obtain ⟨d', hd', hmany⟩ := ih d.rest.length (hn ▸ hlt) (p := p.moveTo d)
          (fun c hc => h c (Nat.le_trans hc (Nat.le_of_lt hlt))) rfl
        exact ⟨d', hd', .many_more hd (Pattern.index_lt_iff.2 hlt) hmany⟩
      · rename_i hle
        exact ⟨d, rfl, .many_idle hd fun hlt => hle (Pattern.index_lt_iff.1 hlt)⟩

/-- A rule without an action ends where its body does. -/
theorem Ends.rule {id : RuleId} {rule : Rule Ctx} {p : View text}
    {o : Option (List Char)} (hP : P id) (hr : g.rule? id = some rule)
    (ha : rule.action = none) (h : Ends g P rule.body (.fresh p.cursor) o) :
    Ends g P (.rule id) p o := by
  cases o with
  | none => exact .rule_none (.intro hP hr ⟨none, h, .none⟩)
  | some r =>
    obtain ⟨d, rfl, hd⟩ := h
    exact ⟨d, rfl, .rule_some (.intro hP hr ⟨_, hd, .value ha⟩)⟩

/-- What a reference to a rule gives does not depend on the bindings around
it. -/
theorem Ends.of_fresh {id : RuleId} {p : View text} {o : Option (List Char)}
    (h : Ends g P (.rule id) (.fresh p.cursor) o) : Ends g P (.rule id) p o := by
  cases o with
  | none =>
    cases h with
    | rule_none h => exact .rule_none h
  | some r =>
    obtain ⟨d, rfl, hd⟩ := h
    cases hd with
    | rule_some h => exact ⟨d, rfl, .rule_some h⟩

/-! ## Expressions and their readers -/

namespace Reads

theorem literal (w : String) : Reads g P (.literal w) (.literal w) :=
  fun _ p => Ends.literal w p

theorem pattern {r : Pattern} (hr : r.regex.proper = true) :
    Reads g P (.pattern r) (.pattern r) :=
  fun _ p => Ends.pattern hr p

theorem sequence {es : List (Expr Ctx)} {f : Reader} (h : ReadsAll g P es f) :
    Reads g P (.sequence es) f :=
  fun _ p => Ends.sequence (h _ p)

theorem choice_nil : Reads g P (.choice []) fun _ => none :=
  fun _ p => Ends.choice_nil p

theorem choice_cons {e : Expr Ctx} {es : List (Expr Ctx)} {f f' : Reader}
    (h : Reads g P e f) (hes : Reads g P (.choice es) f') :
    Reads g P (.choice (e :: es)) (.orElse f f') :=
  fun _ p => (h _ p).choice_cons (hes _ p)

theorem choice_last {e : Expr Ctx} {f : Reader} (h : Reads g P e f) :
    Reads g P (.choice [e]) f := by
  intro text p
  have := (h _ p).choice_cons (Ends.choice_nil p)
  rwa [Option.or_none] at this

theorem optional {e : Expr Ctx} {f : Reader} (h : Reads g P e f) :
    Reads g P (.optional e) (.optional f) :=
  fun _ p => (h _ p).optional

theorem not {e : Expr Ctx} {f : Reader} (h : Reads g P e f) :
    Reads g P (.not e) (.absent f) :=
  fun _ p => (h _ p).not

theorem and {e : Expr Ctx} {f : Reader} (h : Reads g P e f) :
    Reads g P e.and (.present f) :=
  not (not h)

theorem many {e : Expr Ctx} {f : Reader} (h : Reads g P e f) :
    Reads g P (.many e) (.many f) :=
  fun _ p => Ends.many fun d _ => h _ (p.moveTo d)

theorem rule {id : RuleId} {rule : Rule Ctx} {f : Reader} (hP : P id)
    (hr : g.rule? id = some rule) (ha : rule.action = none)
    (h : Reads g P rule.body f) : Reads g P (.rule id) f :=
  fun _ p => Ends.rule hP hr ha (h _ (.fresh p.cursor))

end Reads

theorem ReadsAll.last {e : Expr Ctx} {f : Reader} (h : Reads g P e f) :
    ReadsAll g P [e] f :=
  fun _ p => EndsAll.last (h _ p)

theorem ReadsAll.cons {e : Expr Ctx} {es : List (Expr Ctx)} {f f' : Reader}
    (h : Reads g P e f) (hes : ReadsAll g P es f') :
    ReadsAll g P (e :: es) (.next f f') :=
  fun _ p => EndsAll.cons (h _ p) fun d _ => hes _ (p.moveTo d)

/-! ## The frame of an evaluation -/

mutual

def Expr.Within (P : RuleId → Prop) : Expr Ctx → Prop
  | .literal _ | .pattern _ | .predicate _ => True
  | .sequence es | .choice es => AllWithin P es
  | .many e | .optional e | .not e | .label _ e => e.Within P
  | .rule id => P id

def AllWithin (P : RuleId → Prop) : List (Expr Ctx) → Prop
  | [] => True
  | e :: es => e.Within P ∧ AllWithin P es

end

mutual

theorem Expr.Within.mono {P Q : RuleId → Prop} (h : ∀ id, P id → Q id) :
    ∀ {e : Expr Ctx}, e.Within P → e.Within Q
  | .literal _, _ | .pattern _, _ | .predicate _, _ => trivial
  | .sequence _, he | .choice _, he => AllWithin.mono h he
  | .many e, he | .optional e, he | .not e, he | .label _ e, he =>
    Expr.Within.mono h (e := e) he
  | .rule id, he => h id he

theorem AllWithin.mono {P Q : RuleId → Prop} (h : ∀ id, P id → Q id) :
    ∀ {es : List (Expr Ctx)}, AllWithin P es → AllWithin Q es
  | [], _ => trivial
  | _ :: _, he => ⟨Expr.Within.mono h he.1, AllWithin.mono h he.2⟩

end

def Grammar.Closed (g : Grammar Ctx) (P : RuleId → Prop) : Prop :=
  ∀ id rule, P id → g.rule? id = some rule → rule.body.Within P

def Grammar.Silent (g : Grammar Ctx) (P : RuleId → Prop) : Prop :=
  ∀ id rule, P id → g.rule? id = some rule → rule.action = none

def Task.Within (g : Grammar Ctx) (P : RuleId → Prop) : Task Ctx text → Prop
  | .expr e => e.Within P
  | .all es | .first es => AllWithin P es
  | .apply id => P id
  | .invoke id rule | .grow id rule _ _ _ => P id ∧ g.rule? id = some rule

/-- From `s` to `t` nothing happened outside of `P`: the table says about other
rules what it said before, and if there are no actions in `P` the context is the
same. -/
structure Apart (g : Grammar Ctx) (P : RuleId → Prop) (s t : State Ctx text) :
    Prop where
  context : g.Silent P → t.context = s.context
  outside : ∀ id, ¬ P id → ∀ c,
    t.memo.outcome? (id, c) = s.memo.outcome? (id, c)

namespace Apart

theorem trans {a b c : State Ctx text} (h : Apart g P a b) (h' : Apart g P b c) :
    Apart g P a c :=
  ⟨fun hP => (h'.context hP).trans (h.context hP),
    fun id hid d => (h'.outside id hid d).trans (h.outside id hid d)⟩

/-- Only the context and the table count. -/
theorem of_eq {a a' b b' : State Ctx text} (h : Apart g P a b)
    (hc : b'.context = b.context) (hm : b'.memo = b.memo)
    (ha : a'.context = a.context) (hma : a'.memo = a.memo) : Apart g P a' b' :=
  ⟨fun hP => by rw [hc, ha, h.context hP],
    fun id hid d => by rw [hm, hma]; exact h.outside id hid d⟩

theorem of_sameOutcomes {a b : State Ctx text} (hc : b.context = a.context)
    (hm : a.memo.SameOutcomes b.memo) : Apart g P a b :=
  ⟨fun _ => hc, fun _ _ _ => hm _⟩

theorem settle {a b : State Ctx text} (h : Apart g P a b) {id : RuleId}
    (hid : P id) (c : Cursor text) (o : Outcome (Cursor text)) :
    Apart g P a (b.settle (id, c) o) := by
  refine ⟨h.context, fun id' hid' d => ?_⟩
  have hne : (id, c) ≠ (id', d) := by
    rintro ⟨⟩
    exact hid' hid
  exact (Memo.outcome?_setOutcome_ne b.memo hne o).trans (h.outside id' hid' d)

theorem entered (s : State Ctx text) {id : RuleId} (hid : P id) :
    Apart g P s (s.entered id) := by
  refine ⟨fun _ => rfl, fun id' hid' d => ?_⟩
  have hne : (id, s.cursor) ≠ (id', d) := by
    rintro ⟨⟩
    exact hid' hid
  exact Memo.outcome?_enter_ne s.memo hne

end Apart

@[simp] theorem State.context_recordFailure (s : State Ctx text) (id : RuleId)
    (c : Cursor text) : (s.recordFailure id c).context = s.context := by
  unfold State.recordFailure
  repeat' split
  all_goals rfl

/-- An evaluation within `P` does nothing outside of `P`. -/
theorem Evaluates.apart (hg : g.Closed P) {task : Task Ctx text}
    {s t : State Ctx text} {v : Option (Value (Cursor text))}
    (he : Evaluates g task s v t) (htask : task.Within g P) : Apart g P s t := by
  induction he with
  | literal_some _ | literal_none _ | pattern_some _ | pattern_none _
  | predicate_true _ | predicate_false _ | all_nil | first_nil
  | apply_unknown _ _ => exact ⟨fun _ => rfl, fun _ _ _ => rfl⟩
  | sequence_some _ ih | choice _ ih | optional_some _ ih | label_none _ ih
  | rule _ ih | many_idle _ _ ih => exact ih htask
  | sequence_none _ ih | many_none _ ih | optional_none _ ih
  | not_some _ ih | not_none _ ih | label_some _ ih =>
    exact (ih htask).of_eq rfl rfl rfl rfl
  | all_none _ ih | first_some _ ih => exact ih htask.1
  | many_more _ _ _ ih ih' => exact (ih htask).trans (ih' htask)
  | all_cons _ _ ih ih' => exact (ih htask.1).trans (ih' htask.2)
  | first_none _ _ ih ih' =>
    exact (ih htask.1).trans ((ih' htask.2).of_eq rfl rfl rfl rfl)
  | @apply_open id s _ memo _ hl _ =>
    have h : Apart g P s { s with memo } :=
      .of_sameOutcomes rfl (Memo.outcome?_of_lookup? hl).2
    exact h.settle htask s.cursor _
  | apply_failed hl _ =>
    refine .of_sameOutcomes (State.context_recordFailure ..) ?_
    rw [State.memo_recordFailure]
    exact (Memo.outcome?_of_lookup? hl).2
  | apply_matched hl _ =>
    exact .of_sameOutcomes rfl (Memo.outcome?_of_lookup? hl).2
  | @apply_none id s rule t _ hr _ ih | @apply_some id s rule _ t _ hr _ _ ih =>
    exact ((Apart.entered s htask).trans (ih ⟨htask, hr⟩)).settle htask _ _
  | @apply_grown id s rule v t w u _ hr _ _ _ ih ih' =>
    have h := ih ⟨htask, hr⟩
    exact (((Apart.entered s htask).trans h).settle htask _ _).trans
      (ih' ⟨htask, hr⟩)
  | invoke_none _ ih =>
    exact (ih (hg _ _ htask.1 htask.2)).of_eq (State.context_recordFailure ..)
      (State.memo_recordFailure ..) rfl rfl
  | invoke_value _ _ ih =>
    exact (ih (hg _ _ htask.1 htask.2)).of_eq rfl rfl rfl rfl
  | invoke_action ha _ ih =>
    -- An action may change the context, but then `P` is not silent.
    refine ⟨fun hP => ?_, (ih (hg _ _ htask.1 htask.2)).outside⟩
    cases (hP _ _ htask.1 htask.2).symm.trans ha
  | grow_none _ ih | grow_idle _ _ ih => exact (ih htask).of_eq rfl rfl rfl rfl
  | grow_more _ _ _ ih ih' =>
    exact (((ih htask).settle htask.1 _ _).trans (ih' htask)).of_eq rfl rfl
      rfl rfl

/-! ## What an evaluation takes -/

/-- A state whose table is right about the rules in `P`. -/
structure Sound (g : Grammar Ctx) (P : RuleId → Prop) (s : State Ctx text) :
    Prop where
  agrees : Agrees g P s.memo
  clear : Clear g P s.memo

/-- Evaluation keeps the table right. -/
theorem Sound.of_evaluates {task : Task Ctx text} {s t : State Ctx text}
    {v : Option (Value (Cursor text))} (hs : Sound g P s)
    (he : Evaluates g task s v t) (htask : task.Unsettled g P) :
    Sound g P t := by
  have hk := he.keepsAgreement htask hs.agrees hs.clear
  exact ⟨hk.agrees, hs.clear.closes hk.closes⟩

/-- Only the table counts. -/
theorem Sound.of_eq {s t : State Ctx text} (hs : Sound g P s)
    (h : t.memo = s.memo) : Sound g P t :=
  ⟨h ▸ hs.agrees, h ▸ hs.clear⟩

/-- A rule outside of `P` may be entered. -/
theorem Sound.entered {s : State Ctx text} (hs : Sound g P s) {id : RuleId}
    (hid : ¬ P id) : Sound g P (s.entered id) := by
  refine ⟨hs.agrees.enter _, hs.clear.entered fun r hr => hid ?_⟩
  obtain ⟨n, hn⟩ := hr
  cases n with
  | zero => exact hn.elim
  | succ n => exact hn.1

/-- An evaluation from `s` to `t` that stays within `P`. -/
structure Stays (g : Grammar Ctx) (P : RuleId → Prop) (s t : State Ctx text) :
    Prop extends Sound g P t where
  apart : Apart g P s t

/-- The value and the view after a reading that left `o`. -/
def Took (s : State Ctx text) (v : Option (Value (Cursor text)))
    (t : State Ctx text) : Option (List Char) → Prop
  | none => v = none
  | some r => ∃ d, d.rest = r ∧ v = some (.span s.cursor d) ∧
    t.view = s.view.moveTo d

/-- What is evaluated as a reader takes what the reader takes. -/
theorem Reads.took (hg : g.Closed P) {e : Expr Ctx} {f : Reader}
    (hf : Reads g P e f) (hw : e.Within P) {s t : State Ctx text}
    {v : Option (Value (Cursor text))} (he : Evaluates g (.expr e) s v t)
    (hs : Sound g P s) : Took s v t (f s.cursor.rest) ∧ Stays g P s t := by
  refine ⟨?_, hs.of_evaluates he trivial, he.apart hg hw⟩
  have hends : Ends g P e s.view (f s.cursor.rest) := hf _ s.view
  -- The meaning nests only so deep, and to that depth the table is right.
  have refines : ∀ {o}, Denotes (Settled g P) (.expr e) s.view o →
      Refines g P s o v t := by
    intro o ho
    obtain ⟨n, hn⟩ := ho.bounded
    exact hn.refines (Settles.refines n) he rfl hs.agrees (hs.clear.to n)
  cases ho : f s.cursor.rest with
  | none =>
    rw [ho] at hends
    exact (refines hends).none
  | some r =>
    rw [ho] at hends
    obtain ⟨d, hd, hden⟩ := hends
    exact ⟨d, hd, (refines hden).some⟩

theorem Evaluates.of_all_nil {s t : State Ctx text}
    {v : Option (Value (Cursor text))} (h : Evaluates g (.all []) s v t) :
    t = s ∧ v ≠ none := by
  cases h
  exact ⟨rfl, Option.some_ne_none _⟩

/-- The same in a row: the row fails, or goes on where the reader ends. -/
theorem Reads.took_all (hg : g.Closed P) {e : Expr Ctx} {es : List (Expr Ctx)}
    {f : Reader} (hf : Reads g P e f) (hw : e.Within P) {s t : State Ctx text}
    {v : Option (Value (Cursor text))}
    (he : Evaluates g (.all (e :: es)) s v t) (hs : Sound g P s) :
    (f s.cursor.rest = none ∧ v = none ∧ Stays g P s t) ∨
      ∃ d u, f s.cursor.rest = some d.rest ∧ u.view = s.view.moveTo d ∧
        Stays g P s u ∧ Evaluates g (.all es) u v t := by
  cases he with
  | all_none h =>
    obtain ⟨htook, hstays⟩ := hf.took hg hw h hs
    cases ho : f s.cursor.rest with
    | none => exact .inl ⟨rfl, rfl, hstays⟩
    | some r =>
      rw [ho] at htook
      obtain ⟨_, _, h, _⟩ := htook
      cases h
  | @all_cons _ _ _ _ u _ _ h hrest =>
    obtain ⟨htook, hstays⟩ := hf.took hg hw h hs
    cases ho : f s.cursor.rest with
    | none =>
      rw [ho] at htook
      cases htook
    | some r =>
      rw [ho] at htook
      obtain ⟨d, rfl, _, hview⟩ := htook
      exact .inr ⟨d, u, rfl, hview, hstays, hrest⟩

/-- The same where what is read is bound to a name. -/
theorem Reads.took_all_label (hg : g.Closed P) {e : Expr Ctx}
    {es : List (Expr Ctx)} {name : String} {f : Reader} (hf : Reads g P e f)
    (hw : e.Within P) {s t : State Ctx text} {v : Option (Value (Cursor text))}
    (he : Evaluates g (.all (.label name e :: es)) s v t) (hs : Sound g P s) :
    (f s.cursor.rest = none ∧ v = none ∧ Stays g P s t) ∨
      ∃ d u, f s.cursor.rest = some d.rest ∧
        u.view = (s.view.moveTo d).bindLabel name (.span s.cursor d) ∧
        Stays g P s u ∧ Evaluates g (.all es) u v t := by
  cases he with
  | all_none h =>
    cases h with
    | label_none h =>
      have hall : Evaluates g (.all [e]) s none t := .all_none h
      rcases hf.took_all hg hw hall hs with hnone | hsome
      · exact .inl hnone
      · obtain ⟨_, _, _, _, _, h⟩ := hsome
        cases h
  | all_cons h hrest =>
    cases h with
    | @label_some _ _ _ w u h =>
      obtain ⟨htook, hstays⟩ := hf.took hg hw h hs
      cases ho : f s.cursor.rest with
      | none =>
        rw [ho] at htook
        cases htook
      | some r =>
        rw [ho] at htook
        obtain ⟨d, rfl, hv, hview⟩ := htook
        cases hv
        refine .inr ⟨d, u.bindLabel name (.span s.cursor d), rfl, ?_, ?_, hrest⟩
        · exact congrArg (View.bindLabel · _ _) hview
        · exact ⟨hstays.toSound.of_eq rfl, hstays.apart.of_eq rfl rfl rfl rfl⟩

/-! ## A rule that is applied for the first time -/

/-- The value of a rule and the context after it, from the value of its body
and the state after that. -/
def Rule.conclude (rule : Rule Ctx) (v : Value (Cursor text))
    (u : State Ctx text) : Value (Cursor text) × Ctx :=
  match rule.action with
  | none => (v, u.context)
  | some action => ((action u.captures u.context).map .text id)

/-- A body that does not lead back to its rule does not meet it again. -/
theorem Evaluates.not_detected {id : RuleId} {e : Expr Ctx}
    {s u : State Ctx text} {w : Option (Value (Cursor text))}
    (h : Evaluates g (.expr e) (s.entered id).opened w u) (hg : g.Closed P)
    (hw : e.Within P) (hid : ¬ P id) : u.memo.detected (id, s.cursor) = false := by
  refine Bool.eq_false_iff.2 fun hd => ?_
  -- The entry is as it was made.
  rw [Memo.detected_eq_true_iff, (h.apart hg hw).outside id hid] at hd
  exact nomatch (Memo.outcome?_enter_self s.memo _).symm.trans hd

/-- A rule that has no entry yet is evaluated through its body. The body must
not lead back to the rule. -/
theorem Evaluates.apply_new {id : RuleId} {rule : Rule Ctx}
    {s t : State Ctx text} {v : Option (Value (Cursor text))}
    (h : Evaluates g (.apply id) s v t)
    (hnew : s.memo.outcome? (id, s.cursor) = none)
    (hr : g.rule? id = some rule) (hg : g.Closed P) (hw : rule.body.Within P)
    (hid : ¬ P id) :
    (∃ u, Evaluates g (.expr rule.body) (s.entered id).opened none u ∧
        v = none ∧ t.view = s.view ∧ t.context = u.context ∧
        t.memo = u.memo.setOutcome (id, s.cursor) .failure) ∨
      ∃ w u, Evaluates g (.expr rule.body) (s.entered id).opened (some w) u ∧
        v = some (rule.conclude w u).1 ∧ t.view = s.view.moveTo u.cursor ∧
        t.context = (rule.conclude w u).2 ∧
        t.memo = u.memo.setOutcome (id, s.cursor)
          (.success u.cursor (rule.conclude w u).1) := by
  rcases h.of_apply_new hnew hr with ⟨u, hrun, rfl, rfl⟩ | ⟨x, u, hrun, hend⟩
  · cases hrun with
    | invoke_none hbody =>
      refine .inl ⟨_, hbody, rfl, State.view_recordFailure _ _ _,
        State.context_recordFailure _ _ _, ?_⟩
      exact congrArg (Memo.setOutcome · _ _) (State.memo_recordFailure _ _ _)
  · refine .inr ?_
    cases hrun with
    | invoke_value ha hbody | invoke_action ha hbody =>
      rcases hend with ⟨-, rfl, rfl⟩ | ⟨hd, -⟩
      · refine ⟨_, _, hbody, ?_⟩
        unfold Rule.conclude
        rw [ha]
        exact ⟨rfl, rfl, rfl, rfl⟩
      · cases (hbody.not_detected hg hw hid).symm.trans hd

/-- From `s` to `t` the table changed for rules in `P` and at the visits in
`V` only. -/
def Changes (P : RuleId → Prop) (V : Visit (Cursor text) → Prop)
    (s t : State Ctx text) : Prop :=
  ∀ id c, ¬ P id → ¬ V (id, c) →
    t.memo.outcome? (id, c) = s.memo.outcome? (id, c)

theorem Changes.trans {V : Visit (Cursor text) → Prop} {a b c : State Ctx text}
    (h : Changes P V a b) (h' : Changes P V b c) : Changes P V a c :=
  fun id d hid hd => (h' id d hid hd).trans (h id d hid hd)

theorem Changes.mono {V W : Visit (Cursor text) → Prop} {s t : State Ctx text}
    (h : Changes P V s t) (hVW : ∀ v, V v → W v) : Changes P W s t :=
  fun id d hid hd => h id d hid fun hv => hd (hVW _ hv)

theorem Stays.changes {V : Visit (Cursor text) → Prop} {s t : State Ctx text}
    (h : Stays g P s t) : Changes P V s t :=
  fun id d hid _ => h.apart.outside id hid d

/-- Applying a rule for the first time changes the table there, and where its
body does. -/
theorem Changes.apply_new {V : Visit (Cursor text) → Prop} {id : RuleId}
    {s t u : State Ctx text} {o : Outcome (Cursor text)}
    (h : Changes P V (s.entered id).opened u)
    (ht : t.memo = u.memo.setOutcome (id, s.cursor) o) :
    Changes P (fun v => V v ∨ v = (id, s.cursor)) s t := by
  intro id' c hid' hv
  have hne : (id, s.cursor) ≠ (id', c) := fun heq => hv (.inr heq.symm)
  rw [ht, Memo.outcome?_setOutcome_ne _ hne, h id' c hid' fun h => hv (.inl h)]
  exact Memo.outcome?_enter_ne s.memo hne

end RubyIndent.Peg
