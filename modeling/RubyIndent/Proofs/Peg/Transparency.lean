import RubyIndent.Proofs.Peg.Plain

/-!
# The table does not change what matches

A rule that has a meaning without the table gives the same with it, whatever
calls filled the table before. Two facts carry this. Evaluating something that
has a meaning follows its derivation and never asks for a visit that is under
way, because such a visit would need a deeper derivation than its own
(`Denotes.refines`, `Settles.refines`). Evaluating anything else, left
recursion included, leaves the entries that have a meaning as they should be
(`Evaluates.keepsAgreement`).
-/

namespace RubyIndent.Peg

open RubyIndent.Text

variable {Ctx : Type} {text : List Char}

/-! ## What the table says about the rule that is applied -/

/-- The outcome that a result is entered as. -/
def Outcome.ofResult : RuleResult text → Outcome (Cursor text)
  | none => .failure
  | some (v, c) => .success c v

theorem State.view_recordFailure (s : State Ctx text) (id : RuleId)
    (c : Cursor text) : (s.recordFailure id c).view = s.view := by
  unfold State.recordFailure
  repeat' split
  all_goals rfl

section

variable {g : Grammar Ctx} {id : RuleId} {s t : State Ctx text}
    {v : Option (Value (Cursor text))}

/-- A rule that is under way fails, and its visit is marked. -/
theorem Evaluates.of_apply_open (he : Evaluates g (.apply id) s v t) {d : Bool}
    (ho : s.memo.outcome? (id, s.cursor) = some (.inProgress d)) :
    v = none ∧ t.view = s.view ∧
      t.memo.outcome? (id, s.cursor) = some (.inProgress true) ∧
      ∀ w, (id, s.cursor) ≠ w → t.memo.outcome? w = s.memo.outcome? w := by
  have new : s.memo.lookup? (id, s.cursor) ≠ none := by
    intro hl
    cases ho.symm.trans (Memo.lookup?_eq_none_iff.1 hl)
  cases he with
  | apply_open hl _ =>
    refine ⟨rfl, rfl, Memo.outcome?_setOutcome_self .., fun w hw => ?_⟩
    exact (Memo.outcome?_setOutcome_ne _ hw _).trans
      ((Memo.outcome?_of_lookup? hl).2 w)
  | apply_failed hl ho' =>
    cases ho' ▸ ho.symm.trans (Memo.outcome?_of_lookup? hl).1
  | apply_matched hl ho' =>
    cases ho' ▸ ho.symm.trans (Memo.outcome?_of_lookup? hl).1
  | apply_unknown hl _ | apply_none hl _ _ | apply_some hl _ _ _
  | apply_grown hl _ _ _ _ => exact absurd hl new

/-- A rule that has ended gives what the table says, and changes nothing. -/
theorem Evaluates.of_apply_ended (he : Evaluates g (.apply id) s v t)
    {r : RuleResult text}
    (ho : s.memo.outcome? (id, s.cursor) = some (.ofResult r)) :
    v = r.map Prod.fst ∧
      t.view = s.view.moveTo ((r.map Prod.snd).getD s.cursor) ∧
      s.memo.SameOutcomes t.memo := by
  have new : s.memo.lookup? (id, s.cursor) ≠ none := by
    intro hl
    cases ho.symm.trans (Memo.lookup?_eq_none_iff.1 hl)
  cases he with
  | apply_open hl ho' =>
    have := ho' ▸ ho.symm.trans (Memo.outcome?_of_lookup? hl).1
    cases r <;> cases this
  | apply_failed hl ho' =>
    obtain ⟨h, hsame⟩ := Memo.outcome?_of_lookup? hl
    have := ho' ▸ ho.symm.trans h
    cases r with
    | some r => cases this
    | none =>
      refine ⟨rfl, State.view_recordFailure .., ?_⟩
      rw [State.memo_recordFailure]
      exact hsame
  | apply_matched hl ho' =>
    obtain ⟨h, hsame⟩ := Memo.outcome?_of_lookup? hl
    have := ho' ▸ ho.symm.trans h
    cases r with
    | none => cases this
    | some r =>
      cases this
      exact ⟨rfl, rfl, hsame⟩
  | apply_unknown hl _ | apply_none hl _ _ | apply_some hl _ _ _
  | apply_grown hl _ _ _ _ => exact absurd hl new

/-- A rule that was not applied yet fails, matches, or matches and grows. -/
theorem Evaluates.of_apply_new (he : Evaluates g (.apply id) s v t)
    (hnew : s.memo.outcome? (id, s.cursor) = none) {rule : Rule Ctx}
    (hr : g.rule? id = some rule) :
    (∃ u, Evaluates g (.invoke id rule) (s.entered id) none u ∧
        v = none ∧ t = u.settle (id, s.cursor) .failure) ∨
      ∃ x u, Evaluates g (.invoke id rule) (s.entered id) (some x) u ∧
        (u.memo.detected (id, s.cursor) = false ∧ v = some x ∧
            t = u.settle (id, s.cursor) (.success u.cursor x) ∨
          u.memo.detected (id, s.cursor) = true ∧
            Evaluates g (.grow id rule s.cursor u.cursor x)
              (u.settle (id, s.cursor) (.success u.cursor x)) v t) := by
  have known : ∀ {e memo} {α : Prop},
      s.memo.lookup? (id, s.cursor) = some (e, memo) → α := by
    intro e memo α hl
    cases hnew.symm.trans (Memo.outcome?_of_lookup? hl).1
  cases he with
  | apply_open hl _ | apply_failed hl _ | apply_matched hl _ => exact known hl
  | apply_unknown _ hr' => cases hr.symm.trans hr'
  | apply_none _ hr' h =>
    cases hr.symm.trans hr'
    exact .inl ⟨_, h, rfl, rfl⟩
  | apply_some _ hr' h hd =>
    cases hr.symm.trans hr'
    exact .inr ⟨_, _, h, .inl ⟨hd, rfl, rfl⟩⟩
  | apply_grown _ hr' h hd hgrow =>
    cases hr.symm.trans hr'
    exact .inr ⟨_, _, h, .inr ⟨hd, hgrow⟩⟩

end

/-! ## Tables that agree with the meaning of rules -/

/-- Every entry for a visit that has a meaning says what it gives, unless the
visit is still under way. -/
def Agrees (g : Grammar Ctx) (P : RuleId → Prop) (m : Memo (Cursor text)) :
    Prop :=
  m.Every fun v o =>
    ∀ r, Settled g P v.1 v.2 r → o = .ofResult r ∨ ∃ d, o = .inProgress d

/-- No visit that is under way gives a result with rules nested so deep. -/
def ClearTo (g : Grammar Ctx) (P : RuleId → Prop) (n : Nat)
    (m : Memo (Cursor text)) : Prop :=
  ∀ v, m.Open v → ∀ r, ¬ Settles g P n v.1 v.2 r

/-- No visit that is under way has a meaning. -/
def Clear (g : Grammar Ctx) (P : RuleId → Prop) (m : Memo (Cursor text)) :
    Prop :=
  ∀ v, m.Open v → ∀ r, ¬ Settled g P v.1 v.2 r

def Result.Holds (o : Result text) (v : Option (Value (Cursor text)))
    (t : State Ctx text) : Prop :=
  v = o.map Prod.fst ∧ ∀ r, o = some r → t.view = r.2

/-- An evaluation from `s` that gives the result, and adds nothing to the table
but entries that agree. -/
structure Refines (g : Grammar Ctx) (P : RuleId → Prop) (s : State Ctx text)
    (o : Result text) (v : Option (Value (Cursor text)))
    (t : State Ctx text) : Prop where
  holds : o.Holds v t
  grows : s.memo.Grows t.memo
  agrees : Agrees g P t.memo

section

variable {g : Grammar Ctx} {P : RuleId → Prop}

theorem ClearTo.mono {n k : Nat} (hkn : k ≤ n) {m : Memo (Cursor text)}
    (h : ClearTo g P n m) : ClearTo g P k m :=
  fun v hv r hr => h v hv r (hr.mono hkn)

theorem ClearTo.closes {n : Nat} {m m' : Memo (Cursor text)}
    (h : ClearTo g P n m) (hm : m.Closes m') : ClearTo g P n m' :=
  fun v hv => h v (hm v hv)

theorem Clear.to {m : Memo (Cursor text)} (h : Clear g P m) (n : Nat) :
    ClearTo g P n m :=
  fun v hv r hr => h v hv r ⟨n, hr⟩

theorem Clear.closes {m m' : Memo (Cursor text)} (h : Clear g P m)
    (hm : m.Closes m') : Clear g P m' :=
  fun v hv => h v (hm v hv)

theorem Agrees.of_sameOutcomes {m m' : Memo (Cursor text)}
    (h : Agrees g P m) (hm : m.SameOutcomes m') : Agrees g P m' :=
  Memo.Every.of_sameOutcomes h hm

/-- Entering a visit keeps agreement: it is under way. -/
theorem Agrees.enter {m : Memo (Cursor text)} (h : Agrees g P m)
    (v : Visit (Cursor text)) : Agrees g P (m.enter v) :=
  Memo.Every.enter h fun _ _ => .inr ⟨false, rfl⟩

/-- Setting an outcome keeps agreement, if the outcome is the right one where
there is one. -/
theorem Agrees.setOutcome {m : Memo (Cursor text)} (h : Agrees g P m)
    {v : Visit (Cursor text)} {o : Outcome (Cursor text)}
    (ho : ∀ r, Settled g P v.1 v.2 r → o = .ofResult r) :
    Agrees g P (m.setOutcome v o) :=
  Memo.Every.setOutcome h fun r hr => .inl (ho r hr)

/-! ## Evaluating what has a meaning -/

/-- What rule applications have to satisfy for `Denotes.refines`. -/
def AppliesAs (g : Grammar Ctx) (P : RuleId → Prop) (n : Nat)
    (text : List Char) : Prop :=
  ∀ (id : RuleId) (s : State Ctx text) (v : Option (Value (Cursor text)))
    (t : State Ctx text) (r : RuleResult text), Settles g P n id s.cursor r →
    Evaluates g (.apply id) s v t → Agrees g P s.memo → ClearTo g P n s.memo →
    Refines g P s (r.map fun (v, c) => (v, s.view.moveTo c)) v t

theorem Refines.none {s t : State Ctx text}
    {v : Option (Value (Cursor text))} (h : Refines g P s none v t) :
    v = Option.none :=
  h.holds.1

theorem Refines.some {s t : State Ctx text} {w : Value (Cursor text)}
    {q : View text} {v : Option (Value (Cursor text))}
    (h : Refines g P s (some (w, q)) v t) : v = Option.some w ∧ t.view = q :=
  ⟨h.holds.1, h.holds.2 _ rfl⟩

theorem Refines.failed {s t : State Ctx text} (hgrows : s.memo.Grows t.memo)
    (hagrees : Agrees g P t.memo) :
    Refines g P s Option.none Option.none t :=
  ⟨⟨rfl, nofun⟩, hgrows, hagrees⟩

theorem Refines.matched {s t : State Ctx text} {w : Value (Cursor text)}
    {q : View text} (hview : t.view = q) (hgrows : s.memo.Grows t.memo)
    (hagrees : Agrees g P t.memo) :
    Refines g P s (Option.some (w, q)) (Option.some w) t := by
  refine ⟨⟨rfl, ?_⟩, hgrows, hagrees⟩
  rintro _ ⟨⟩
  exact hview

/-- Evaluating an expression that has a meaning gives that meaning. -/
theorem Denotes.refines {n : Nat} (happ : AppliesAs g P n text)
    {task : Task Ctx text} {p : View text} {o : Result text}
    (h : Denotes (Settles g P n) task p o) {s t : State Ctx text}
    {v : Option (Value (Cursor text))} (he : Evaluates g task s v t)
    (hp : s.view = p) (ha : Agrees g P s.memo) (hc : ClearTo g P n s.memo) :
    Refines g P s o v t := by
  induction h generalizing s v t with
  | literal_some h =>
    subst hp
    cases he with
    | literal_some _ => exact .matched rfl (.refl _) ha
    | literal_none h' => cases h.symm.trans h'
  | literal_none h =>
    subst hp
    cases he with
    | literal_some h' => cases h.symm.trans h'
    | literal_none _ => exact .failed (.refl _) ha
  | pattern_some h =>
    subst hp
    cases he with
    | pattern_some h' =>
      cases h.symm.trans h'
      exact .matched rfl (.refl _) ha
    | pattern_none h' => cases h.symm.trans h'
  | pattern_none h =>
    subst hp
    cases he with
    | pattern_some h' => cases h.symm.trans h'
    | pattern_none _ => exact .failed (.refl _) ha
  | sequence_some _ ih =>
    cases he with
    | sequence_some he =>
      have hr := ih he hp ha hc
      obtain ⟨-, hq⟩ := hr.some
      subst hp hq
      exact .matched rfl hr.grows hr.agrees
    | sequence_none he => cases (ih he hp ha hc).some.1
  | sequence_none _ ih =>
    cases he with
    | sequence_some he => cases (ih he hp ha hc).none
    | sequence_none he =>
      have hr := ih he hp ha hc
      exact .failed hr.grows hr.agrees
  | choice _ ih =>
    cases he with
    | choice he => exact ih he hp ha hc
  | many_more _ hlt _ ih ih' =>
    cases he with
    | many_more he _ hrest =>
      have hr := ih he hp ha hc
      obtain ⟨-, hq⟩ := hr.some
      have hr' := ih' hrest hq hr.agrees (hc.closes hr.grows.ended)
      obtain ⟨-, hu⟩ := hr'.some
      subst hp hu
      exact .matched rfl (hr.grows.trans hr'.grows) hr'.agrees
    | many_idle he hle =>
      obtain ⟨-, hq⟩ := (ih he hp ha hc).some
      subst hp hq
      exact absurd hlt hle
    | many_none he => cases (ih he hp ha hc).some.1
  -- A round that takes nothing ends the repetition in both, and the two agree
  -- on whether it does because they end at the same place.
  | many_idle _ hle ih =>
    cases he with
    | many_more he hlt _ =>
      obtain ⟨-, hq⟩ := (ih he hp ha hc).some
      subst hp hq
      exact absurd hlt hle
    | many_idle he _ =>
      have hr := ih he hp ha hc
      obtain ⟨-, hq⟩ := hr.some
      subst hp hq
      exact .matched rfl hr.grows hr.agrees
    | many_none he => cases (ih he hp ha hc).some.1
  | many_none _ ih =>
    cases he with
    | many_more he _ _ => cases (ih he hp ha hc).none
    | many_idle he _ => cases (ih he hp ha hc).none
    | many_none he =>
      have hr := ih he hp ha hc
      subst hp
      exact .matched rfl hr.grows hr.agrees
  | optional_some _ ih =>
    cases he with
    | optional_some he =>
      have hr := ih he hp ha hc
      obtain ⟨-, hq⟩ := hr.some
      subst hp hq
      exact .matched rfl hr.grows hr.agrees
    | optional_none he => cases (ih he hp ha hc).some.1
  | optional_none _ ih =>
    cases he with
    | optional_some he => cases (ih he hp ha hc).none
    | optional_none he =>
      have hr := ih he hp ha hc
      subst hp
      exact .matched rfl hr.grows hr.agrees
  | not_some _ ih =>
    cases he with
    | not_some he =>
      have hr := ih he hp ha hc
      exact .failed hr.grows hr.agrees
    | not_none he => cases (ih he hp ha hc).some.1
  | not_none _ ih =>
    cases he with
    | not_some he => cases (ih he hp ha hc).none
    | not_none he =>
      have hr := ih he hp ha hc
      subst hp
      exact .matched rfl hr.grows hr.agrees
  | predicate_true h =>
    subst hp
    cases he with
    | predicate_true _ => exact .matched rfl (.refl _) ha
    | predicate_false h' => cases (h s.context).symm.trans h'
  | predicate_false h =>
    subst hp
    cases he with
    | predicate_true h' => cases (h s.context).symm.trans h'
    | predicate_false _ => exact .failed (.refl _) ha
  | label_some _ ih =>
    cases he with
    | label_some he =>
      have hr := ih he hp ha hc
      obtain ⟨hv, hq⟩ := hr.some
      cases hv
      subst hq
      exact .matched rfl hr.grows hr.agrees
    | label_none he => cases (ih he hp ha hc).some.1
  | label_none _ ih =>
    cases he with
    | label_some he => cases (ih he hp ha hc).none
    | label_none he =>
      have hr := ih he hp ha hc
      exact .failed hr.grows hr.agrees
  | rule_some h =>
    subst hp
    cases he with
    | rule he => exact happ _ _ _ _ _ h he ha hc
  | rule_none h =>
    subst hp
    cases he with
    | rule he => exact happ _ _ _ _ _ h he ha hc
  | all_nil =>
    subst hp
    cases he with
    | all_nil => exact .matched rfl (.refl _) ha
  | all_cons _ _ ih ih' =>
    cases he with
    | all_cons he hrest =>
      have hr := ih he hp ha hc
      have hr' := ih' hrest hr.some.2 hr.agrees (hc.closes hr.grows.ended)
      exact ⟨hr'.holds, hr.grows.trans hr'.grows, hr'.agrees⟩
    | all_none he => cases (ih he hp ha hc).some.1
  | all_none _ ih =>
    cases he with
    | all_cons he _ => cases (ih he hp ha hc).none
    | all_none he => exact ih he hp ha hc
  | first_nil =>
    cases he with
    | first_nil => exact .failed (.refl _) ha
  | first_some _ ih =>
    cases he with
    | first_some he => exact ih he hp ha hc
    | first_none he _ => cases (ih he hp ha hc).some.1
  | first_none _ _ ih ih' =>
    cases he with
    | first_some he => cases (ih he hp ha hc).none
    | first_none he hrest =>
      have hr := ih he hp ha hc
      have hr' := ih' hrest hp hr.agrees (hc.closes hr.grows.ended)
      exact ⟨hr'.holds, hr.grows.trans hr'.grows, hr'.agrees⟩

/-- Evaluating the body and the action of a rule that has a meaning. -/
theorem Rule.Yields.refines {n : Nat} (happ : AppliesAs g P n text)
    {rule : Rule Ctx} {id : RuleId} {s t : State Ctx text}
    {r : RuleResult text} (h : rule.Yields (Settles g P n) s.cursor r)
    {v : Option (Value (Cursor text))}
    (he : Evaluates g (.invoke id rule) s v t) (ha : Agrees g P s.memo)
    (hc : ClearTo g P n s.memo) :
    Refines g P s (r.map fun (v, c) => (v, s.view.moveTo c)) v t := by
  obtain ⟨o, ho, hcon⟩ := h
  cases he with
  | invoke_none he =>
    have hr := ho.refines happ he rfl ha hc
    cases hcon with
    | none =>
      refine .failed ?_ ?_
      · rw [State.memo_recordFailure]
        exact hr.grows
      · rw [State.memo_recordFailure]
        exact hr.agrees
    | value _ => cases hr.some.1
    | action _ _ => cases hr.some.1
  | invoke_value hact he =>
    have hr := ho.refines happ he rfl ha hc
    cases hcon with
    | none => cases hr.none
    | value _ =>
      obtain ⟨hv, hq⟩ := hr.some
      cases hv
      subst hq
      exact .matched rfl hr.grows hr.agrees
    | action hact' _ => cases hact.symm.trans hact'
  | invoke_action hact he =>
    have hr := ho.refines happ he rfl ha hc
    cases hcon with
    | none => cases hr.none
    | value hact' => cases hact.symm.trans hact'
    | action hact' hmade =>
      obtain ⟨-, hq⟩ := hr.some
      cases hact.symm.trans hact'
      subst hq
      refine ⟨⟨?_, by rintro r ⟨⟩; rfl⟩, hr.grows, hr.agrees⟩
      exact congrArg (fun made => some (Value.text made)) (hmade _)

/-- Entering the right outcome at the end of a visit. -/
theorem Refines.settle {id : RuleId} {s t : State Ctx text} {o : Result text}
    {v : Option (Value (Cursor text))} {r : RuleResult text}
    (h : Refines g P (s.entered id) o v t)
    (hnew : s.memo.outcome? (id, s.cursor) = Option.none)
    (hr : Settled g P id s.cursor r) :
    Refines g P s o v (t.settle (id, s.cursor) (.ofResult r)) := by
  have hclosed : ∀ d, Outcome.ofResult r ≠ .inProgress d := by
    rintro d ho
    cases r <;> cases ho
  refine ⟨h.holds, ⟨?_, ?_⟩, ?_⟩
  · intro w o' hw
    have hne : (id, s.cursor) ≠ w := by
      rintro rfl
      cases hnew.symm.trans hw
    refine (Memo.outcome?_setOutcome_ne _ hne _).trans (h.grows.kept w o' ?_)
    exact (Memo.outcome?_enter_ne s.memo hne).trans hw
  · exact h.grows.ended.settle hclosed
  · exact h.agrees.setOutcome fun r' hr' => hr.unique s.context hr' ▸ rfl

/-- A visit that is made for the first time, and whose rule has a meaning, is
not met again before it ends; so it does not grow, and what is entered for it
is what it gives. -/
theorem Settles.refines_first {n : Nat} (happ : AppliesAs g P n text)
    {id : RuleId} {s t : State Ctx text} {r : RuleResult text}
    (h : Settles g P (n + 1) id s.cursor r)
    (hmin : ∀ r, ¬ Settles g P n id s.cursor r)
    (hnew : s.memo.outcome? (id, s.cursor) = none)
    {v : Option (Value (Cursor text))} (he : Evaluates g (.apply id) s v t)
    (ha : Agrees g P s.memo) (hc : ClearTo g P n s.memo) :
    Refines g P s (r.map fun (v, c) => (v, s.view.moveTo c)) v t := by
  have hset : Settled g P id s.cursor r := ⟨_, h⟩
  obtain ⟨-, rule, hr, hy⟩ := h
  have ha' : Agrees g P (s.entered id).memo := ha.enter _
  -- The visit itself is now under way, but it has no meaning of lesser depth.
  have hc' : ClearTo g P n (s.entered id).memo := by
    intro v hv r hr
    rcases Memo.open_enter_iff.1 hv with rfl | hv
    · exact hmin r hr
    · exact hc v hv r hr
  have body : ∀ {v' t'}, Evaluates g (.invoke id rule) (s.entered id) v' t' →
      Refines g P (s.entered id) (r.map fun (v, c) => (v, s.view.moveTo c))
        v' t' :=
    fun he => Rule.Yields.refines happ (s := s.entered id) hy he ha' hc'
  rcases he.of_apply_new hnew hr with
    ⟨t, hbody, rfl, rfl⟩ | ⟨x, t, hbody, ⟨-, rfl, rfl⟩ | ⟨hd, -⟩⟩
  · have hb := body hbody
    cases r with
    | none => exact hb.settle hnew hset
    | some r => cases hb.holds.1
  · have hb := body hbody
    cases r with
    | none => cases hb.holds.1
    | some r =>
      obtain ⟨hv, hq⟩ := hb.some
      cases hv
      have hout : Outcome.ofResult (some r) = .success t.cursor r.1 :=
        congrArg (fun q : View text => Outcome.success q.cursor r.1) hq.symm
      exact hout ▸ hb.settle hnew hset
  · -- The entry made on entering is still there, so the visit was not met.
    have := (body hbody).grows.kept _ _
      (Memo.outcome?_enter_self s.memo (id, s.cursor))
    cases this.symm.trans (Memo.detected_eq_true_iff.1 hd)

/-- A visit whose outcome is known is answered from the table. -/
theorem Settles.refines_known {id : RuleId} {s t : State Ctx text}
    {r : RuleResult text}
    (hknown : s.memo.outcome? (id, s.cursor) = some (.ofResult r))
    {v : Option (Value (Cursor text))} (he : Evaluates g (.apply id) s v t)
    (ha : Agrees g P s.memo) :
    Refines g P s (r.map fun (v, c) => (v, s.view.moveTo c)) v t := by
  obtain ⟨rfl, hview, hsame⟩ := he.of_apply_ended hknown
  cases r with
  | none => exact .failed hsame.grows (ha.of_sameOutcomes hsame)
  | some r => exact .matched hview hsame.grows (ha.of_sameOutcomes hsame)

/-- Applying a rule that has a meaning gives that meaning. -/
theorem Settles.refines (n : Nat) : AppliesAs g P n text := by
  induction n using Nat.strongRecOn with
  | _ n ih =>
    intro id s v t r h he ha hc
    -- A derivation that nests less deep serves as well.
    by_cases hless : ∃ m, m < n ∧ ∃ r', Settles g P m id s.cursor r'
    · obtain ⟨m, hm, r', hr'⟩ := hless
      have hle : m ≤ n := Nat.le_of_lt hm
      cases Settles.unique s.context n id s.cursor r r' h (hr'.mono hle)
      exact ih m hm id s v t r hr' he ha (hc.mono hle)
    · obtain ⟨m, rfl⟩ : ∃ m, n = m + 1 := by
        cases n with
        | zero => exact h.elim
        | succ m => exact ⟨m, rfl⟩
      cases ho : s.memo.outcome? (id, s.cursor) with
      | none =>
        exact h.refines_first (ih m (Nat.lt_succ_self m))
          (fun r' hr' => hless ⟨m, Nat.lt_succ_self m, r', hr'⟩) ho he ha
          (hc.mono (Nat.le_succ m))
      | some o =>
        -- The visit is not under way, so its entry is the meaning.
        have ho' : o = .ofResult r :=
          (ha (id, s.cursor) o ho r ⟨_, h⟩).resolve_right fun ⟨d, hd⟩ =>
            hc _ ⟨d, ho.trans (congrArg some hd)⟩ r h
        exact Settles.refines_known (ho' ▸ ho) he ha

/-! ## Evaluating anything -/

/-- The table of `t` agrees, and nothing is under way in it that was not so in
the table of `s`. -/
structure KeepsAgreement (g : Grammar Ctx) (P : RuleId → Prop)
    (s t : State Ctx text) : Prop where
  agrees : Agrees g P t.memo
  closes : s.memo.Closes t.memo

theorem KeepsAgreement.trans {a b c : State Ctx text}
    (h : KeepsAgreement g P a b) (h' : KeepsAgreement g P b c) :
    KeepsAgreement g P a c :=
  ⟨h'.agrees, h.closes.trans h'.closes⟩

theorem KeepsAgreement.of_sameOutcomes {s t : State Ctx text}
    (ha : Agrees g P s.memo) (h : s.memo.SameOutcomes t.memo) :
    KeepsAgreement g P s t :=
  ⟨ha.of_sameOutcomes h, h.grows.ended⟩

/-- Marking a visit that is under way changes nothing that counts. -/
theorem KeepsAgreement.markDetected {s : State Ctx text}
    {m : Memo (Cursor text)} {v : Visit (Cursor text)}
    (ha : Agrees g P s.memo) (hm : s.memo.SameOutcomes m) (hv : s.memo.Open v) :
    KeepsAgreement g P s { s with memo := m.markDetected v } := by
  refine ⟨?_, fun w hw => ?_⟩
  · exact Memo.Every.setOutcome (ha.of_sameOutcomes hm) fun _ _ => .inr ⟨true, rfl⟩
  · exact hm.open_iff.1 ((Memo.open_markDetected_iff (hm.open_iff.2 hv)).1 hw)

/-- Ending a visit that has no meaning. -/
theorem KeepsAgreement.settle {id : RuleId} {s t : State Ctx text}
    {o : Outcome (Cursor text)} (h : KeepsAgreement g P (s.entered id) t)
    (ho : ∀ d, o ≠ .inProgress d) (hno : ∀ r, ¬ Settled g P id s.cursor r) :
    KeepsAgreement g P s (t.settle (id, s.cursor) o) :=
  ⟨h.agrees.setOutcome fun r hr => absurd hr (hno r), h.closes.settle ho⟩

theorem Clear.entered {s : State Ctx text} {id : RuleId}
    (hc : Clear g P s.memo) (hno : ∀ r, ¬ Settled g P id s.cursor r) :
    Clear g P (s.entered id).memo := by
  intro v hv r hr
  rcases Memo.open_enter_iff.1 hv with rfl | hv
  · exact hno r hr
  · exact hc v hv r hr

/-- Applying a rule that has a meaning. -/
theorem Settled.keepsAgreement {id : RuleId} {s t : State Ctx text}
    {r : RuleResult text} (h : Settled g P id s.cursor r)
    {v : Option (Value (Cursor text))} (he : Evaluates g (.apply id) s v t)
    (ha : Agrees g P s.memo) (hc : Clear g P s.memo) :
    KeepsAgreement g P s t := by
  obtain ⟨n, hn⟩ := h
  have hr := Settles.refines n id s v t r hn he ha (hc.to n)
  exact ⟨hr.agrees, hr.grows.ended⟩

/-- A match is only grown for a visit that has no meaning. -/
def Task.Unsettled (g : Grammar Ctx) (P : RuleId → Prop) :
    Task Ctx text → Prop
  | .grow id _ start _ _ => ∀ r, ¬ Settled g P id start r
  | _ => True

/-- Whatever is evaluated, the table goes on agreeing, and no visit is left
under way that was not so before. -/
theorem Evaluates.keepsAgreement {task : Task Ctx text} {s t : State Ctx text}
    {v : Option (Value (Cursor text))} (he : Evaluates g task s v t)
    (htask : task.Unsettled g P) (ha : Agrees g P s.memo)
    (hc : Clear g P s.memo) : KeepsAgreement g P s t := by
  induction he with
  | literal_some _ | literal_none _ | pattern_some _ | pattern_none _
  | predicate_true _ | predicate_false _ | all_nil | first_nil
  | apply_unknown _ _ => exact ⟨ha, .refl _⟩
  | sequence_some _ ih | sequence_none _ ih | choice _ ih | many_idle _ _ ih
  | many_none _ ih | optional_some _ ih | optional_none _ ih | not_some _ ih
  | not_none _ ih | label_some _ ih | label_none _ ih | rule _ ih
  | all_none _ ih | first_some _ ih | invoke_value _ _ ih
  | invoke_action _ _ ih =>
    have := ih trivial ha hc
    exact ⟨this.agrees, this.closes⟩
  | many_more _ _ _ ih ih' | all_cons _ _ ih ih' | first_none _ _ ih ih' =>
    have h := ih trivial ha hc
    have h' := ih' trivial h.agrees (hc.closes h.closes)
    exact ⟨h'.agrees, h.closes.trans h'.closes⟩
  | apply_open hl ho =>
    obtain ⟨h, hsame⟩ := Memo.outcome?_of_lookup? hl
    exact .markDetected ha hsame ⟨_, h.trans (congrArg some ho)⟩
  | apply_failed hl _ =>
    refine .of_sameOutcomes ha ?_
    rw [State.memo_recordFailure]
    exact (Memo.outcome?_of_lookup? hl).2
  | apply_matched hl _ => exact .of_sameOutcomes ha (Memo.outcome?_of_lookup? hl).2
  -- A rule that has a meaning is known already; for any other rule the table
  -- may say what it likes, as long as the visit is ended.
  | @apply_none id s _ _ hl hr he ih =>
    by_cases hset : ∃ r, Settled g P id s.cursor r
    · obtain ⟨r, hset⟩ := hset
      exact hset.keepsAgreement (.apply_none hl hr he) ha hc
    · have hno := not_exists.1 hset
      exact (ih trivial (ha.enter _) (hc.entered hno)).settle
        (by rintro d ⟨⟩) hno
  | @apply_some id s _ _ _ hl hr he hd ih =>
    by_cases hset : ∃ r, Settled g P id s.cursor r
    · obtain ⟨r, hset⟩ := hset
      exact hset.keepsAgreement (.apply_some hl hr he hd) ha hc
    · have hno := not_exists.1 hset
      exact (ih trivial (ha.enter _) (hc.entered hno)).settle
        (by rintro d ⟨⟩) hno
  | @apply_grown id s _ v t _ _ hl hr he hd hgrow ih ih' =>
    by_cases hset : ∃ r, Settled g P id s.cursor r
    · obtain ⟨r, hset⟩ := hset
      exact hset.keepsAgreement (.apply_grown hl hr he hd hgrow) ha hc
    · have hno := not_exists.1 hset
      -- The first match is entered before it is grown.
      have h : KeepsAgreement g P s
          (t.settle (id, s.cursor) (.success t.cursor v)) :=
        (ih trivial (ha.enter _) (hc.entered hno)).settle
          (by rintro d ⟨⟩) hno
      exact h.trans (ih' hno h.agrees (hc.closes h.closes))
  | invoke_none _ ih =>
    have h := ih trivial ha hc
    refine ⟨?_, ?_⟩
    · rw [State.memo_recordFailure]
      exact h.agrees
    · rw [State.memo_recordFailure]
      exact h.closes
  | grow_none _ ih | grow_idle _ _ ih =>
    have h := ih trivial ha hc
    exact ⟨h.agrees, h.closes⟩
  | @grow_more id _ start _ _ s v t _ _ _ _ _ ih ih' =>
    have h := ih trivial ha hc
    have h' : KeepsAgreement g P s
        (t.settle (id, start) (.success t.cursor v)) :=
      ⟨h.agrees.setOutcome fun r hr => absurd hr (htask r),
        h.closes.trans (Memo.closes_setOutcome (by rintro d ⟨⟩))⟩
    exact h'.trans (ih' htask h'.agrees (hc.closes h'.closes))

end

end RubyIndent.Peg
