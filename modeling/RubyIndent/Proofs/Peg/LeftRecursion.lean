import RubyIndent.Proofs.Peg.Growing

/-!
# Left recursion is iteration

What a left recursive rule gives, in every state that calls lead to: it ends
where a base and then a repetition of its tails end, and its value is the left
fold of its action over the rounds. A rule may have been applied at its place
before, inside of whatever call, so the table is followed through all
evaluations: an entry of the rule is always what the loop would give now
(`Explained`), because the loop finds in the table all that it found then.
-/

namespace RubyIndent.Peg

open RubyIndent.Text

variable {Ctx : Type} {text : List Char} {g : Grammar Ctx} {P : RuleId → Prop}

section

variable {id : RuleId} {rule : Rule Ctx} {tails : List (Tail Ctx)}
  {bases : List (Expr Ctx)}

/-! ## The loop, again later -/

theorem Tries.keeps {p : Cursor text} {v : Value (Cursor text)}
    {s t : State Ctx text} {b : Bool} (h : Tries g p v tails s b t) :
    s.memo.Keeps g P t.memo ∧ s.memo.Closes t.memo := by
  induction h with
  | nil => exact ⟨.refl _, .refl _⟩
  | here h => exact ⟨h.keeps fun _ => trivial, h.closes⟩
  | later h _ ih =>
    exact ⟨(h.keeps fun _ => trivial).trans ih.1, h.closes.trans ih.2⟩

theorem Rounds.keeps {p : Cursor text} {v w : Value (Cursor text)}
    {s t : State Ctx text} (h : Rounds g rule tails p s v t w) :
    s.memo.Keeps g P t.memo := by
  induction h with
  | done h _ => exact h.keeps.1
  | more _ h _ _ ih => exact h.keeps.1.trans ih

/-- In a table that keeps what they left, tails that are tried again give the
same. -/
theorem Tries.replays
    (htails : ∀ tail ∈ tails, AllWithin P tail.rest ∧ AllPredicateFree tail.rest)
    {p : Cursor text} {v : Value (Cursor text)} {s t s' : State Ctx text}
    {b : Bool} (h : Tries g p v tails s b t) (hcursor : s'.cursor = s.cursor)
    (hidle : s.memo.Idle P) (hidle' : s'.memo.Idle P)
    (hkeeps : t.memo.Keeps g P s'.memo) :
    ∃ t', Tries g p v tails s' b t' ∧ (b = true → t'.view = t.view) := by
  induction h generalizing s' with
  | nil => exact ⟨s', .nil, nofun⟩
  | @here tail tails s w t h =>
    obtain ⟨hwithin, hfree⟩ := htails tail List.mem_cons_self
    obtain ⟨x, t', ht'⟩ := exists_evaluates_all g tail.rest (s'.behind p tail v)
    have hsame := h.replays ht' hfree hwithin
      (congrArg (View.mk · _) hcursor) hidle hidle' hkeeps
    obtain ⟨x, rfl, hpair⟩ := Option.map_eq_some_iff.1 hsame
    exact ⟨t', .here ht', fun _ => congrArg Prod.snd hpair⟩
  | @later tail tails s u b t h hrest ih =>
    obtain ⟨hwithin, hfree⟩ := htails tail List.mem_cons_self
    obtain ⟨x, u', hu'⟩ := exists_evaluates_all g tail.rest (s'.behind p tail v)
    have hkept : u.memo.Keeps g P t.memo := hrest.keeps.1
    have hsame := h.replays hu' hfree hwithin
      (congrArg (View.mk · _) hcursor) hidle hidle' (hkept.trans hkeeps)
    obtain rfl := Option.map_eq_none_iff.1 hsame
    obtain ⟨t', ht', hview⟩ := ih
      (fun other hother => htails other (.tail _ hother))
      (show (u'.moveTo s'.cursor).cursor = s.cursor from hcursor)
      (hidle.of_closes h.closes) (hidle'.of_closes hu'.closes)
      (hkeeps.trans (hu'.keeps fun _ => trivial))
    exact ⟨t', .later hu' ht', hview⟩

theorem Rounds.replays
    (htails : ∀ tail ∈ tails, AllWithin P tail.rest ∧ AllPredicateFree tail.rest)
    {p : Cursor text} {v w : Value (Cursor text)} {s t s' : State Ctx text}
    (h : Rounds g rule tails p s v t w) (hcursor : s'.cursor = s.cursor)
    (hidle : s.memo.Idle P) (hidle' : s'.memo.Idle P)
    (hkeeps : t.memo.Keeps g P s'.memo) :
    ∃ t', Rounds g rule tails p s' v t' w ∧ t'.cursor = t.cursor := by
  induction h generalizing s' with
  | @done s v b t h hle =>
    obtain ⟨t', ht', hview⟩ := h.replays htails hcursor hidle hidle' hkeeps
    refine ⟨t'.moveTo s'.cursor, .done ht' fun hb => ?_, hcursor⟩
    rw [hcursor, show t'.cursor = t.cursor from congrArg View.cursor (hview hb)]
    exact hle hb
  | @more s v u t w ctx h hlt hrest ih =>
    have hkept : u.memo.Keeps g P t.memo := hrest.keeps
    obtain ⟨u', hu', hview⟩ :=
      h.replays htails hcursor hidle hidle' (hkept.trans hkeeps)
    have hend : u'.cursor = u.cursor := congrArg View.cursor (hview rfl)
    obtain ⟨t', ht', hcursor'⟩ := ih hend
      (hidle.of_closes (h.keeps (P := P)).2)
      (hidle'.of_closes (hu'.keeps (P := P)).2) (hkeeps.trans hu'.keeps.1)
    refine ⟨t', .more ctx hu' ?_ ?_, hcursor'⟩
    · rw [hcursor, hend]
      exact hlt
    · have hcaps : u'.captures = u.captures :=
        congrArg View.captures (hview rfl)
      rw [hend, hcaps]
      exact ht'

/-- In a table that keeps what it left, the loop gives the same. -/
theorem Iterates.replays (hc : Contained g P id rule tails bases)
    {s u s' : State Ctx text} {r : RuleResult text}
    (h : Iterates g rule tails bases s r u) (hcursor : s'.cursor = s.cursor)
    (hidle : s.memo.Idle P) (hidle' : s'.memo.Idle P)
    (hkeeps : u.memo.Keeps g P s'.memo) :
    ∃ u', Iterates g rule tails bases s' r u' := by
  obtain ⟨x, t', ht'⟩ := exists_evaluates_first g bases s'.opened
  have hview : s'.opened.view = s.opened.view :=
    congrArg View.fresh hcursor
  cases h with
  | fails h =>
    have hsame := h.replays ht' hc.bases.2 hc.bases.1 hview hidle hidle' hkeeps
    obtain rfl := Option.map_eq_none_iff.1 hsame
    exact ⟨t', .fails ht'⟩
  | @found v t _ w ctx h hrest =>
    have hkept : t.memo.Keeps g P u.memo := hrest.keeps
    have hsame := h.replays ht' hc.bases.2 hc.bases.1 hview hidle hidle'
      (hkept.trans hkeeps)
    obtain ⟨x, rfl, hpair⟩ := Option.map_eq_some_iff.1 hsame
    cases congrArg Prod.fst hpair
    have hsnd : t'.view = t.view := congrArg Prod.snd hpair
    obtain ⟨u', hu', hend⟩ := hrest.replays hc.tails
      (show t'.cursor = t.cursor from congrArg View.cursor hsnd) (hidle.of_closes h.closes)
      (hidle'.of_closes ht'.closes) (hkeeps.trans (ht'.keeps fun _ => trivial))
    refine ⟨u', .found_at ctx ht' ?_ hend⟩
    have hcaps : t'.captures = t.captures := congrArg View.captures hsnd
    rw [hcaps, hcursor]
    exact hu'

/-! ## Entries of the rule, whatever call made them -/

/-- What the table says about the rule is what the loop gives, in every state
that keeps the table. -/
def Explained (g : Grammar Ctx) (P : RuleId → Prop) (id : RuleId)
    (rule : Rule Ctx) (tails : List (Tail Ctx)) (bases : List (Expr Ctx))
    (m : Memo (Cursor text)) : Prop :=
  ∀ c r, m.outcome? (id, c) = some (.ofResult r) → ∀ s : State Ctx text,
    s.cursor = c → s.memo.Idle P → m.Keeps g P s.memo →
    ∃ u, Iterates g rule tails bases s r u

/-- More entries for other rules, and no new ones for the rule. -/
theorem Explained.mono {m m' : Memo (Cursor text)}
    (h : Explained g P id rule tails bases m) (hkeeps : m.Keeps g P m')
    (hsame : ∀ c r, m'.outcome? (id, c) = some (.ofResult r) →
      m.outcome? (id, c) = some (.ofResult r)) :
    Explained g P id rule tails bases m' :=
  fun c r hr s hs hidle hm' => h c r (hsame c r hr) s hs hidle (hkeeps.trans hm')

/-- An entry for another rule. -/
theorem Explained.insert {m m' : Memo (Cursor text)} {i : RuleId}
    {c : Cursor text} (h : Explained g P id rule tails bases m)
    (hi : ¬ (P i ∨ i = id))
    (hother : ∀ w, (i, c) ≠ w → m'.outcome? w = m.outcome? w) :
    Explained g P id rule tails bases m' := by
  obtain ⟨hi, hid⟩ := not_or.1 hi
  refine h.mono (.of_outcomes fun j d hj => hother _ ?_) fun d r hr => ?_
  · rintro ⟨⟩
    exact hi hj
  · refine (hother _ ?_).symm.trans hr
    rintro ⟨⟩
    exact hid rfl

theorem Explained.entered {s : State Ctx text} {i : RuleId}
    (h : Explained g P id rule tails bases s.memo) (hi : ¬ (P i ∨ i = id)) :
    Explained g P id rule tails bases (s.entered i).memo :=
  h.insert hi fun _ => Memo.outcome?_enter_ne s.memo

theorem Explained.settle {s : State Ctx text} {i : RuleId}
    (h : Explained g P id rule tails bases s.memo) (hi : ¬ (P i ∨ i = id))
    {c : Cursor text} {o : Outcome (Cursor text)} :
    Explained g P id rule tails bases (s.settle (i, c) o).memo :=
  h.insert hi fun _ hne => Memo.outcome?_setOutcome_ne s.memo hne o

/-- Applying the rule itself, or a rule that its tails or bases refer to. -/
theorem Evaluates.explained_apply (hc : Contained g P id rule tails bases)
    {i : RuleId} {s t : State Ctx text} {v : Option (Value (Cursor text))}
    (he : Evaluates g (.apply i) s v t)
    (hnew : s.memo.outcome? (i, s.cursor) = none) (hi : P i ∨ i = id)
    (hidle : s.memo.Idle P) (h : Explained g P id rule tails bases s.memo) :
    Explained g P id rule tails bases t.memo := by
  have hkeeps : s.memo.Keeps g P t.memo := he.keeps fun _ => trivial
  rcases hi with hi | rfl
  · refine h.mono hkeeps fun c r hr => ?_
    exact (he.outside hc.closed hi (w := (id, c)) hc.apart).symm.trans hr
  · obtain ⟨u, hu, hkept, hother⟩ := he.iterates hc hnew hidle
    intro c r hr s' hcursor hidle' hkeeps'
    by_cases hkey : (i, s.cursor) = (i, c)
    · cases hkey
      -- The entry is the result, and the loop gives the same again.
      have hanswer := he.answer?_apply fun hopen => by
        obtain ⟨d, hd⟩ := hopen
        cases hnew.symm.trans hd
      rw [Memo.answer?_of_outcome? hr] at hanswer
      rw [Option.some.inj hanswer]
      exact hu.replays hc hcursor hidle hidle' (hkept.trans hkeeps')
    · exact h c r ((hother _ hc.apart hkey).symm.trans hr) s' hcursor hidle'
        (hkeeps.trans hkeeps')

/-- The task is not about a rule that its tails and bases can reach, nor about
the rule itself. -/
def Task.Beside (P : RuleId → Prop) (id : RuleId) : Task Ctx text → Prop
  | .invoke i _ | .grow i _ _ _ _ => ¬ (P i ∨ i = id)
  | _ => True

/-- Whatever is evaluated, the entries of the rule are what the loop gives. -/
theorem Evaluates.explained (hc : Contained g P id rule tails bases)
    {task : Task Ctx text} {s t : State Ctx text}
    {v : Option (Value (Cursor text))} (he : Evaluates g task s v t)
    (htask : task.Beside P id) (hidle : s.memo.Idle P)
    (h : Explained g P id rule tails bases s.memo) :
    Explained g P id rule tails bases t.memo := by
  induction he with
  | literal_some _ | literal_none _ | pattern_some _ | pattern_none _
  | predicate_true _ | predicate_false _ | all_nil | first_nil
  | apply_unknown _ _ => exact h
  | sequence_some _ ih | sequence_none _ ih | choice _ ih | many_idle _ _ ih
  | many_none _ ih | optional_some _ ih | optional_none _ ih | not_some _ ih
  | not_none _ ih | label_some _ ih | label_none _ ih | rule _ ih
  | all_none _ ih | first_some _ ih | invoke_value _ _ ih
  | invoke_action _ _ ih => exact ih trivial hidle h
  | many_more he _ _ ih ih' | all_cons he _ ih ih' | first_none he _ ih ih' =>
    exact ih' trivial (hidle.of_closes he.closes) (ih trivial hidle h)
  | @apply_open i s _ _ _ hl ho =>
    have hopen := (Memo.outcome?_of_lookup? hl).1.trans (congrArg some ho)
    have he := Evaluates.apply_open (g := g) hl ho
    obtain ⟨-, -, hself, hother⟩ := he.of_apply_open hopen
    refine h.mono (he.keeps fun _ => trivial) fun c r hr => ?_
    by_cases hkey : (i, s.cursor) = (id, c)
    · rw [← hkey] at hr
      cases r <;> cases hself.symm.trans hr
    · exact (hother _ hkey).symm.trans hr
  | apply_failed hl _ =>
    rw [State.memo_recordFailure]
    obtain ⟨-, hsame⟩ := Memo.outcome?_of_lookup? hl
    exact h.mono (.of_outcomes fun _ _ _ => hsame _)
      fun _ _ hr => (hsame _).symm.trans hr
  | apply_matched hl _ =>
    obtain ⟨-, hsame⟩ := Memo.outcome?_of_lookup? hl
    exact h.mono (.of_outcomes fun _ _ _ => hsame _)
      fun _ _ hr => (hsame _).symm.trans hr
  | @apply_none i s _ _ hl hr he ih =>
    by_cases hi : P i ∨ i = id
    · exact (Evaluates.apply_none hl hr he).explained_apply hc
        (Memo.lookup?_eq_none_iff.1 hl) hi hidle h
    · exact (ih hi (hidle.entered (not_or.1 hi).1) (h.entered hi)).settle hi
  | @apply_some i s _ _ _ hl hr he hd ih =>
    by_cases hi : P i ∨ i = id
    · exact (Evaluates.apply_some hl hr he hd).explained_apply hc
        (Memo.lookup?_eq_none_iff.1 hl) hi hidle h
    · exact (ih hi (hidle.entered (not_or.1 hi).1) (h.entered hi)).settle hi
  | @apply_grown i s _ _ _ _ _ hl hr he hd hgrow ih ih' =>
    by_cases hi : P i ∨ i = id
    · exact (Evaluates.apply_grown hl hr he hd hgrow).explained_apply hc
        (Memo.lookup?_eq_none_iff.1 hl) hi hidle h
    · have hidle' := hidle.entered (not_or.1 hi).1
      refine ih' hi ?_ ((ih hi hidle' (h.entered hi)).settle hi)
      exact hidle'.of_closes (he.closes.trans (Memo.closes_setOutcome nofun))
  | invoke_none _ ih =>
    rw [State.memo_recordFailure]
    exact ih trivial hidle h
  | grow_none _ ih | grow_idle _ _ ih => exact ih htask hidle h
  | grow_more he _ _ ih ih' =>
    refine ih' htask ?_ ((ih htask hidle h).settle htask)
    exact hidle.of_closes (he.closes.trans (Memo.closes_setOutcome nofun))

/-- Between calls, the entries of the rule are what the loop gives, and matches
go forward. -/
theorem State.Reachable.explained (hc : Contained g P id rule tails bases)
    {s : State Ctx text} (hs : s.Reachable g) :
    Explained g P id rule tails bases s.memo ∧ s.memo.Forward := by
  have idle : ∀ {s : State Ctx text}, s.Reachable g → s.memo.Idle P :=
    fun hs _ _ _ => (hs.quiescent P).idle _
  induction hs with
  | start context =>
    refine ⟨fun c r hr => ?_, Memo.Every.empty⟩
    cases (Memo.outcome?_empty (id, c)).symm.trans hr
  | @apply s i hs ih =>
    have he := s.apply_evaluates g i
    exact ⟨he.explained hc trivial (idle hs) ih.1, (he.forward trivial ih.2).1⟩
  | @parse s root hs ih =>
    rw [State.parse_state]
    have he := s.apply_evaluates g root
    exact ⟨he.explained hc trivial (idle hs) ih.1, (he.forward trivial ih.2).1⟩
  | context c _ ih => exact ih

/-! ## The loop as an expression -/

/-- A tail is what follows the match so far in its alternative. -/
theorem Tail.all_of_expr {tail : Tail Ctx} {s t : State Ctx text}
    {v : Option (Value (Cursor text))} (he : Evaluates g (.expr tail.expr) s v t) :
    ∃ w u, Evaluates g (.all tail.rest) s w u ∧ v.isSome = w.isSome ∧
      t.memo = u.memo ∧ (v ≠ none → t.cursor = u.cursor) := by
  unfold Tail.expr at he
  split at he
  · rename_i e hrest
    rw [hrest]
    cases v with
    | none => exact ⟨none, t, .all_none he, rfl, rfl, fun _ => rfl⟩
    | some v => exact ⟨_, t, .all_cons he .all_nil, rfl, rfl, fun _ => rfl⟩
  · cases he with
    | sequence_some he => exact ⟨_, t, he, rfl, rfl, fun _ => rfl⟩
    | sequence_none he => exact ⟨_, _, he, rfl, rfl, fun h => absurd rfl h⟩

/-- Trying the tails behind a match is a choice between them. -/
theorem Tries.first (hg : g.Closed P)
    (hfree : ∀ i inner, P i → g.rule? i = some inner → inner.ContextFree)
    (htails : ∀ tail ∈ tails, AllWithin P tail.rest ∧ AllPredicateFree tail.rest)
    {p : Cursor text} {v : Value (Cursor text)} {s t m m' : State Ctx text}
    {b : Bool} {x : Option (Value (Cursor text))} (h : Tries g p v tails s b t)
    (hm : Alike P s m)
    (he : Evaluates g (.first (tails.map Tail.expr)) m x m') :
    x.isSome = b ∧ (b = true → m'.cursor = t.cursor) ∧
      ∀ i c, P i → m'.memo.outcome? (i, c) = t.memo.outcome? (i, c) := by
  -- The states are alike but for the bindings, and there are no predicates.
  have parallel : ∀ {tail : Tail Ctx} {s w t m x m'},
      AllWithin P tail.rest ∧ AllPredicateFree tail.rest →
      Evaluates g (.all tail.rest) (s.behind p tail v) w t →
      Evaluates g (.expr tail.expr) m x m' → Alike P s m →
      x.isSome = w.isSome ∧ (x ≠ none → m'.cursor = t.cursor) ∧
        ∀ i c, P i → m'.memo.outcome? (i, c) = t.memo.outcome? (i, c) := by
    intro tail s w t m x m' htail h he hm
    obtain ⟨y, u, hu, hsome, hmemo, hcursor⟩ := tail.all_of_expr he
    have hp := h.alike hg hfree hu htail.1 (.inl htail.2) ⟨hm.cursor, hm.outcomes⟩
    rw [hsome, hp.value, hmemo]
    exact ⟨rfl, fun hx => (hcursor hx).trans hp.alike.cursor, hp.alike.outcomes⟩
  induction h generalizing m x with
  | nil =>
    cases he with
    | first_nil => exact ⟨rfl, nofun, hm.outcomes⟩
  | @here tail tails s w t h =>
    have htail := htails tail List.mem_cons_self
    cases he with
    | first_some he =>
      obtain ⟨hsome, hcursor, hout⟩ := parallel htail h he hm
      exact ⟨hsome, fun _ => hcursor (Option.some_ne_none _), hout⟩
    | first_none he _ => cases (parallel htail h he hm).1
  | @later tail tails s u b t h _ ih =>
    have htail := htails tail List.mem_cons_self
    cases he with
    | first_some he => cases (parallel htail h he hm).1
    | @first_none _ _ _ m₁ _ _ he hrest =>
      obtain ⟨-, -, hout⟩ := parallel htail h he hm
      exact ih (fun other hother => htails other (.tail _ hother))
        (m := m₁.rewind m) ⟨hm.cursor, hout⟩ hrest

theorem Tries.choice (hc : Contained g P id rule tails bases)
    {p : Cursor text} {v : Value (Cursor text)} {s t m m' : State Ctx text}
    {b : Bool} {x : Option (Value (Cursor text))} (h : Tries g p v tails s b t)
    (hm : Alike P s m)
    (he : Evaluates g (.expr (.choice (tails.map Tail.expr))) m x m') :
    x.isSome = b ∧ (b = true → m'.cursor = t.cursor) ∧
      ∀ i c, P i → m'.memo.outcome? (i, c) = t.memo.outcome? (i, c) := by
  cases he with
  | choice he => exact h.first hc.closed hc.contextFree hc.tails hm he

/-- The rounds of the loop are a repetition of the tails. -/
theorem Rounds.many (hc : Contained g P id rule tails bases) {p : Cursor text}
    {v w : Value (Cursor text)} {s t m m' : State Ctx text}
    {x : Option (Value (Cursor text))} (h : Rounds g rule tails p s v t w)
    (hm : Alike P s m) (hforward : m.memo.Forward)
    (he : Evaluates g (.expr (.many (.choice (tails.map Tail.expr)))) m x m') :
    m'.cursor = t.cursor := by
  induction h generalizing m x with
  | @done s v b t h hle =>
    cases he with
    | many_none he => exact hm.cursor
    | many_more he hlt _ =>
      obtain ⟨rfl, hcursor, -⟩ := h.choice hc hm he
      rw [hm.cursor, hcursor rfl] at hlt
      exact absurd hlt (hle rfl)
    | many_idle he hidle =>
      -- The last tail took no text, so it ends where it began.
      refine (Cursor.ext_index (Nat.le_antisymm (Nat.le_of_not_lt hidle) ?_)).trans
        hm.cursor
      exact (he.forward trivial hforward).2 (Option.some_ne_none _)
  | @more s v u t w ctx h hlt _ ih =>
    cases he with
    | many_none he => cases (h.choice hc hm he).1
    | many_more he _ hrest =>
      obtain ⟨-, hcursor, hout⟩ := h.choice hc hm he
      exact ih ⟨hcursor rfl, hout⟩ (he.forward trivial hforward).1 hrest
    | many_idle he hidle =>
      obtain ⟨-, hcursor, -⟩ := h.choice hc hm he
      rw [hm.cursor, hcursor rfl] at hidle
      exact absurd hlt hidle

end

/-! ## The rule and the loop -/

section

variable {id : RuleId} {rule : Rule Ctx} {tails : List (Tail Ctx)}
  {bases : List (Expr Ctx)}

/-- Between calls the rule gives what the loop gives, whether or not it was
applied at the place before. -/
theorem State.Reachable.iterates (hc : Contained g P id rule tails bases)
    {s : State Ctx text} (hs : s.Reachable g) (p : Cursor text) :
    ∃ t, Iterates g rule tails bases (s.moveTo p)
      (((s.moveTo p).apply g id).value.map
        (·, ((s.moveTo p).apply g id).state.cursor)) t := by
  have he := (s.moveTo p).apply_evaluates g id
  have hended : ∀ v, ¬ s.memo.Open v := (hs.quiescent P).idle
  have hidle : (s.moveTo p).memo.Idle P := fun _ _ _ => hended _
  cases ho : s.memo.outcome? (id, p) with
  | none =>
    obtain ⟨t, ht, -⟩ := he.iterates hc ho hidle
    exact ⟨t, ht⟩
  | some o =>
    obtain ⟨r, rfl⟩ : ∃ r, o = .ofResult r := by
      cases o with
      | success stop value => exact ⟨some (value, stop), rfl⟩
      | failure => exact ⟨none, rfl⟩
      | inProgress d => exact absurd ⟨d, ho⟩ (hended _)
    obtain ⟨hvalue, hview, -⟩ := he.of_apply_ended ho
    have hcursor := congrArg View.cursor hview
    obtain ⟨t, ht⟩ := (hs.explained hc).1 p r ho (s.moveTo p) rfl hidle (.refl _)
    refine ⟨t, ?_⟩
    rw [hvalue, show ((s.moveTo p).apply g id).state.cursor = _ from hcursor]
    cases r <;> exact ht

/-- A choice between the bases gives what they give without bindings. -/
theorem Contained.bases_alike (hc : Contained g P id rule tails bases)
    {s t u : State Ctx text} {v w : Option (Value (Cursor text))}
    (h : Evaluates g (.first bases) s.opened v t)
    (he : Evaluates g (.expr (.choice bases)) s w u) :
    Parallel P s.opened v t s w u := by
  cases he with
  | choice he =>
    exact h.alike hc.closed hc.contextFree he hc.bases.1 (.inl hc.bases.2)
      ⟨rfl, fun _ _ _ => rfl⟩

/-- The loop fails where the bases fail. -/
theorem Iterates.fails_iff (hc : Contained g P id rule tails bases)
    {s t u : State Ctx text} {r : RuleResult text}
    {v : Option (Value (Cursor text))} (h : Iterates g rule tails bases s r t)
    (he : Evaluates g (.expr (.choice bases)) s v u) : r = none ↔ v = none := by
  cases h with
  | fails h => simp [(hc.bases_alike h he).value]
  | found _ h _ => simp [(hc.bases_alike h he).value]

/-- The loop ends where a base and then tails end. -/
theorem Iterates.ends (hc : Contained g P id rule tails bases)
    {s t u : State Ctx text} {w : Value (Cursor text)} {c : Cursor text}
    {v : Option (Value (Cursor text))}
    (h : Iterates g rule tails bases s (some (w, c)) t)
    (hforward : s.memo.Forward)
    (he : Evaluates g (.expr (iteration tails bases)) s v u) :
    v.isSome = true ∧ u.cursor = c := by
  cases h with
  | found _ h hrest =>
    cases he with
    | sequence_some he =>
      cases he with
      | all_cons hbase he =>
        cases he with
        | all_cons hmany he =>
          cases he with
          | all_nil =>
            exact ⟨rfl, hrest.many hc (hc.bases_alike h hbase).alike
              (hbase.forward trivial hforward).1 hmany⟩
    | sequence_none he =>
      cases he with
      | all_none hbase => cases (hc.bases_alike h hbase).value
      | all_cons hbase he =>
        cases he with
        | all_none hmany => cases hmany
        | all_cons hmany he => cases he

end

/-- In every state that calls lead to, and at every place, a left recursive rule
fails exactly where its bases fail. Otherwise it ends where a base and then a
repetition of its tails end, and its value is that of the loop: the action folded
over the rounds from the left, each round with the value of the rounds before it
in the place of the inner match. -/
theorem apply_eq_iteration {id : RuleId} {rule : Rule Ctx}
    {tails : List (Tail Ctx)} {bases : List (Expr Ctx)}
    (hrec : g.LeftRecursive id rule tails bases) {s : State Ctx text}
    (hs : s.Reachable g) (p : Cursor text) :
    (((s.moveTo p).apply g id).value = none ↔
        ((s.moveTo p).eval g (.choice bases)).value = none) ∧
      ∀ v, ((s.moveTo p).apply g id).value = some v →
        ((s.moveTo p).eval g (iteration tails bases)).matched = true ∧
          ((s.moveTo p).apply g id).state.cursor
            = ((s.moveTo p).eval g (iteration tails bases)).state.cursor ∧
          ∃ t, Iterates g rule tails bases (s.moveTo p)
            (some (v, ((s.moveTo p).apply g id).state.cursor)) t := by
  have hc := hrec.contained
  obtain ⟨t, ht⟩ := hs.iterates hc p
  constructor
  · rw [← ht.fails_iff hc ((s.moveTo p).eval_evaluates g _), Option.map_eq_none_iff]
  · intro v hv
    rw [hv] at ht
    obtain ⟨hmatched, hcursor⟩ := ht.ends hc (hs.explained hc).2
      ((s.moveTo p).eval_evaluates g _)
    exact ⟨hmatched, hcursor.symm, t, ht⟩

def bracketed (op : String) : Action Unit := fun caps =>
  match caps.get? "l", caps.get? "r" with
  | some l, some r => return "(" ++ l ++ op ++ r ++ ")"
  | _, _ => return caps.text

/-- An operator behind its left operand, and the right operand. -/
def operation (op : String) (operand : RuleId) : Tail Unit where
  name := some "l"
  rest := [.literal op, .label "r" (.rule operand)]

def operations (name op : String) (id operand : RuleId) : Rule Unit where
  name := name
  body := leftRecursion id [operation op operand] [.rule operand]
  action := some (bracketed op)

/-- `difference = difference "-" product | product`, where products are left
recursive as well: `product = product "*" digit | digit`. -/
def arithmetic : Grammar Unit where
  rules := #[
    operations "difference" "-" 0 1,
    operations "product" "*" 1 2,
    { name := "digit", body := .pattern ⟨"[0-9]", .one ⟨[('0', '9')], false⟩⟩ }]

theorem leftRecursive_arithmetic : arithmetic.LeftRecursive 0
    (operations "difference" "-" 0 1) [operation "-" 1] [.rule 1] := by
  -- From a product only products and digits are reached.
  have hreach : ∀ i,
      arithmetic.Reaches ([operation "-" 1].map Tail.expr ++ [.rule 1]) i →
      i = 1 ∨ i = 2 := by
    intro i h
    induction h with
    | refers h =>
      rw [show referencesAll _ = [1, 1] from rfl] at h
      simp at h
      exact .inl h
    | through _ hr h ih =>
      rcases ih with rfl | rfl
      · cases hr
        rw [show Expr.references _ = [1, 2, 2] from rfl] at h
        simpa using h
      · cases hr
        cases h
  refine ⟨rfl, rfl, fun h => ?_, ⟨⟨trivial, trivial, trivial⟩, trivial, trivial⟩, ?_⟩
  · rcases hreach 0 h with h | h <;> cases h
  · intro i inner hi hr
    rcases hreach i hi with rfl | rfl
    · cases hr
      exact ⟨⟨⟨trivial, trivial, trivial, trivial⟩, trivial, trivial⟩,
        by rintro action ⟨⟩ caps c c'; rfl⟩
    · cases hr
      exact ⟨trivial, nofun⟩

/-- On `"8-2*3-1"` the difference grows twice, and is grouped to the left. -/
theorem apply_arithmetic_eq :
    ((State.start "8-2*3-1".toList ()).apply arithmetic 0).value.map
        Value.toString = some "((8-(2*3))-1)" ∧
      ((State.start "8-2*3-1".toList ()).apply arithmetic 0).state.cursor
        = ((State.start "8-2*3-1".toList ()).eval arithmetic
            (iteration [operation "-" 1] [.rule 1])).state.cursor ∧
      ∃ r t, Iterates arithmetic (operations "difference" "-" 0 1)
        [operation "-" 1] [.rule 1] (State.start "8-2*3-1".toList ()) (some r) t ∧
        r.1.toString = "((8-(2*3))-1)" := by
  have hvalue : ((State.start "8-2*3-1".toList ()).apply arithmetic 0).value.map
      Value.toString = some "((8-(2*3))-1)" := by decide +kernel
  obtain ⟨v, hv, hshown⟩ := Option.map_eq_some_iff.1 hvalue
  obtain ⟨-, hloop⟩ := apply_eq_iteration leftRecursive_arithmetic
    (.start ()) (.first "8-2*3-1".toList)
  obtain ⟨-, hcursor, t, ht⟩ := hloop v hv
  exact ⟨hvalue, hcursor, _, t, ht, hshown⟩

end RubyIndent.Peg
