import Mathlib.Data.List.Induction
import RubyIndent.Proofs.Peg.Bindings
import RubyIndent.Proofs.Peg.Counters
import RubyIndent.Proofs.Text.Slices

/-!
# Which failure is reported

A parse keeps one failure for its diagnostic. The reference is the list of all
failures in the order in which they happen, over a whole backtracking run
(`Failing`) and over calls in a row (`Failures`). An event of that list is a rule
whose body has ended without a match, be it to grow a match, or a rule of which the
table says that it failed here before; under a negation there are none, and a rule
that is met while it is under way is none either (`Config.reported`). The failure
that is kept is a fold over this list (`Recorded`), hence the latest of those
furthest to the right (`latest_foldl_later`).

The record is written and never read: runs of states that differ in it only are
alike in everything else, step by step (`Steps.silenced`).
-/

namespace RubyIndent.Peg

open RubyIndent.Text

variable {Ctx : Type} {text : List Char} {g : Grammar Ctx}

/-! ## The latest of the furthest -/

/-- What is kept of two failures: the one further to the right, and of two at one
place the second. -/
def later (far : Option (Visit (Cursor text))) (f : Visit (Cursor text)) :
    Option (Visit (Cursor text)) :=
  match far with
  | some far => if f.2.offset < far.2.offset then some far else some f
  | none => some f

/-- No other failure is further to the right, and those at the same place came
before. -/
def Latest (fs : List (Visit (Cursor text))) (f : Visit (Cursor text)) : Prop :=
  ∃ before after, fs = before ++ f :: after ∧
    (∀ e ∈ before, e.2.offset ≤ f.2.offset) ∧ ∀ e ∈ after, e.2.offset < f.2.offset

theorem Latest.mem {fs : List (Visit (Cursor text))} {f : Visit (Cursor text)}
    (h : Latest fs f) : f ∈ fs := by
  obtain ⟨before, after, rfl, -⟩ := h
  exact List.mem_append_right before List.mem_cons_self

/-- What is kept is not before either of the two. -/
theorem exists_later (far : Option (Visit (Cursor text)))
    (f : Visit (Cursor text)) : ∃ kept, later far f = some kept ∧
      f.2.offset ≤ kept.2.offset ∧
      ∀ old, far = some old → old.2.offset ≤ kept.2.offset := by
  cases far with
  | none => exact ⟨f, rfl, Nat.le_refl _, by rintro _ ⟨⟩⟩
  | some old =>
    simp only [later, Option.some.injEq, forall_eq']
    split
    · rename_i hlt
      exact ⟨old, rfl, Nat.le_of_lt hlt, Nat.le_refl _⟩
    · rename_i hge
      exact ⟨f, rfl, Nat.le_refl _, Nat.le_of_not_lt hge⟩

/-- What is kept only moves to the right. -/
theorem foldl_later_some (fs : List (Visit (Cursor text)))
    (far : Visit (Cursor text)) : ∃ f, fs.foldl later (some far) = some f ∧
      far.2.offset ≤ f.2.offset := by
  induction fs generalizing far with
  | nil => exact ⟨far, rfl, Nat.le_refl _⟩
  | cons e fs ih =>
    obtain ⟨f, hf, -, hle⟩ := exists_later (some far) e
    obtain ⟨f', hf', hle'⟩ := ih f
    refine ⟨f', ?_, Nat.le_trans (hle far rfl) hle'⟩
    rw [List.foldl_cons, hf, hf']

/-- What is kept of all failures is the latest of the furthest. -/
theorem latest_foldl_later (fs : List (Visit (Cursor text))) :
    fs = [] ∧ fs.foldl later none = none ∨
      ∃ f, fs.foldl later none = some f ∧ Latest fs f := by
  induction fs using List.reverseRecOn with
  | nil => exact .inl ⟨rfl, rfl⟩
  | append_singleton fs e ih =>
    right
    rw [List.foldl_append, List.foldl_cons, List.foldl_nil]
    rcases ih with ⟨rfl, -⟩ | ⟨f, hf, before, after, rfl, hbefore, hafter⟩
    · exact ⟨e, rfl, [], [], rfl, List.forall_mem_nil _, List.forall_mem_nil _⟩
    · rw [hf]
      simp only [later]
      split
      · rename_i hlt
        refine ⟨f, rfl, before, after ++ [e], by simp, hbefore, ?_⟩
        exact List.forall_mem_append.2 ⟨hafter, by simpa using hlt⟩
      · rename_i hle
        refine ⟨e, rfl, before ++ f :: after, [], rfl, ?_, List.forall_mem_nil _⟩
        have hle : f.2.offset ≤ e.2.offset := Nat.le_of_not_lt hle
        simp only [List.forall_mem_append, List.forall_mem_cons]
        exact ⟨fun x hx => Nat.le_trans (hbefore x hx) hle, hle,
          fun x hx => Nat.le_trans (Nat.le_of_lt (hafter x hx)) hle⟩

/-! ## Failures along a run -/

def Pending.negates : Pending Ctx text → Bool
  | .not _ => true
  | _ => false

def negations (k : List (Pending Ctx text)) : Nat :=
  k.countP Pending.negates

theorem negations_not (p : View text) (k : List (Pending Ctx text)) :
    negations (.not p :: k) = negations k + 1 :=
  List.countP_cons_of_pos rfl

/-- What fails in the next step, if anything: a rule whose body has ended without
a match, the first time or to grow a match, or a rule that has failed at the cursor
before. -/
def Config.failed? : Config Ctx text → Option (Visit (Cursor text))
  | ⟨.apply id, s, _⟩ =>
    match s.memo.outcome? (id, s.cursor) with
    | some .failure => some (id, s.cursor)
    | _ => none
  | ⟨.done none, _, .seed id _ p :: _⟩ => some (id, p.cursor)
  | ⟨.done none, _, .grow id _ p _ _ :: _⟩ => some (id, p.cursor)
  | _ => none

def Config.reported (c : Config Ctx text) : List (Visit (Cursor text)) :=
  if negations c.stack = 0 then c.failed?.toList else []

inductive Failing (g : Grammar Ctx) : Config Ctx text →
    List (Visit (Cursor text)) → Config Ctx text → Prop where
  | refl (c : Config Ctx text) : Failing g c [] c
  | head {a b c : Config Ctx text} {es : List (Event text)}
      {fs : List (Visit (Cursor text))} (h : step g a = some (es, b))
      (hrest : Failing g b fs c) : Failing g a (a.reported ++ fs) c

theorem Steps.failing {c d : Config Ctx text} {log : List (Event text)}
    (h : Steps g c log d) : ∃ fs, Failing g c fs d := by
  induction h with
  | refl c => exact ⟨[], .refl c⟩
  | head hstep _ ih =>
    obtain ⟨fs, h⟩ := ih
    exact ⟨_, .head hstep h⟩

theorem Failing.steps {c d : Config Ctx text} {fs : List (Visit (Cursor text))}
    (h : Failing g c fs d) : ∃ log, Steps g c log d := by
  induction h with
  | refl c => exact ⟨[], .refl c⟩
  | head hstep _ ih =>
    obtain ⟨log, h⟩ := ih
    exact ⟨_, .head hstep h⟩

/-! ## What a step does to the record -/

theorem State.furthest_recordFailure (s : State Ctx text) (id : RuleId)
    (c : Cursor text) : (s.recordFailure id c).furthest
      = if s.quiet = 0 then later s.furthest (id, c) else s.furthest := by
  unfold State.recordFailure later
  by_cases hquiet : s.quiet = 0
  · rw [if_neg (by omega), if_pos hquiet]
    split
    · rename_i far hfar
      simp only [hfar, Cursor.offset_lt_offset_iff]
      split
      · exact hfar
      · rfl
    · rename_i hnone
      simp only [hnone]
  · rw [if_pos (by omega), if_neg hquiet]

/-- A step notes what fails in it, unless the parse is inside of a negation, and
keeps count of the negations. -/
structure Notes (c d : Config Ctx text) : Prop where
  furthest : d.state.furthest
    = if c.state.quiet = 0 then c.failed?.toList.foldl later c.state.furthest
      else c.state.furthest
  quiet : c.state.quiet = negations c.stack → d.state.quiet = negations d.stack

section

variable {c d : Config Ctx text} {s u : State Ctx text}
  {k : List (Pending Ctx text)} {id : RuleId} {rule : Rule Ctx} {p : View text}
  {w : Option (Value (Cursor text))}

/-- A step in which nothing fails. -/
theorem Notes.of_none (hfailed : c.failed? = none)
    (hfurthest : d.state.furthest = c.state.furthest)
    (hquiet : c.state.quiet = negations c.stack →
      d.state.quiet = negations d.stack) : Notes c d := by
  refine ⟨?_, hquiet⟩
  rw [hfailed, hfurthest, Option.toList_none, List.foldl_nil, ite_self]

/-- A step in which a rule fails. -/
theorem Notes.of_some {c₀ : Cursor text} (hfailed : c.failed? = some (id, c₀))
    (hfar : s.furthest = c.state.furthest) (hquiet : s.quiet = c.state.quiet)
    (hfurthest : d.state.furthest = (s.recordFailure id c₀).furthest)
    (hdepth : d.state.quiet = c.state.quiet ∧
      negations d.stack = negations c.stack) : Notes c d := by
  refine ⟨?_, fun h => hdepth.1.trans (h.trans hdepth.2.symm)⟩
  rw [hfurthest, State.furthest_recordFailure, hfailed, hfar, hquiet]
  rfl

theorem Expr.notes_enter (e : Expr Ctx) : Notes ⟨.expr e, s, k⟩ (e.enter s k) := by
  cases e with
  | literal _ | pattern _ | predicate _ =>
    simp only [Expr.enter]
    split <;> exact .of_none rfl rfl id
  | not e =>
    refine .of_none rfl rfl fun h => ?_
    show s.quiet + 1 = negations (.not s.view :: k)
    rw [negations_not]
    exact congrArg (· + 1) h
  | _ => exact .of_none rfl rfl id

theorem State.notes_call (g : Grammar Ctx) (id : RuleId) (s : State Ctx text)
    (k : List (Pending Ctx text)) : Notes ⟨.apply id, s, k⟩ (s.call g id k).2 := by
  have failed : ∀ {o}, s.memo.outcome? (id, s.cursor) = o → o ≠ some .failure →
      Config.failed? ⟨.apply id, s, k⟩ = none := by
    intro o ho hne
    simp only [Config.failed?, ho]
  unfold State.call
  dsimp only
  split
  · rename_i entry memo hl
    have hout := (Memo.outcome?_of_lookup? hl).1
    split
    · rename_i ho
      have hnone := failed (hout.trans (congrArg some ho)) (by rintro ⟨⟩)
      exact .of_none hnone rfl fun h => h
    · rename_i ho
      have hfailed : Config.failed? ⟨.apply id, s, k⟩ = some (id, s.cursor) := by
        simp only [Config.failed?, hout, ho]
      exact .of_some (s := { s with memo }) hfailed rfl rfl rfl
        ⟨State.quiet_recordFailure .., rfl⟩
    · rename_i ho
      have hnone := failed (hout.trans (congrArg some ho)) (by rintro ⟨⟩)
      exact .of_none hnone rfl fun h => h
  · rename_i hl
    have hnone := failed (Memo.lookup?_eq_none_iff.1 hl) (by rintro ⟨⟩)
    split
    · exact .of_none hnone rfl fun h => h
    · exact .of_none hnone rfl fun h => h

/-- The end of a rule: its failure is recorded, or nothing. -/
theorem Rule.record_of_close {x : Option (Value (Cursor text))} {t : State Ctx text}
    (h : rule.close id p w u = (x, t)) : t.quiet = u.quiet ∧
      (w = none ∧ x = none ∧
          t.furthest = (u.backTo p |>.recordFailure id p.cursor).furthest ∨
        (∃ v, w = some v) ∧ (∃ v, x = some v) ∧ t.furthest = u.furthest) := by
  cases w with
  | none =>
    cases h
    exact ⟨State.quiet_recordFailure .., .inl ⟨rfl, rfl, rfl⟩⟩
  | some v =>
    cases h
    exact ⟨rfl, .inr ⟨⟨v, rfl⟩, ⟨_, rfl⟩, rfl⟩⟩

theorem Rule.notes_endSeed (rule : Rule Ctx) (id : RuleId) (p : View text)
    (w : Option (Value (Cursor text))) (u : State Ctx text)
    (k : List (Pending Ctx text)) :
    Notes ⟨.done w, u, .seed id rule p :: k⟩ (rule.endSeed id p w u k).2 := by
  cases hclose : rule.close id p w u with
  | mk x t =>
    obtain ⟨hquiet, ⟨rfl, rfl, hfar⟩ | ⟨⟨v, rfl⟩, ⟨x, rfl⟩, hfar⟩⟩ :=
      Rule.record_of_close hclose
    · rw [Rule.endSeed_none hclose]
      exact .of_some (s := u.backTo p) rfl rfl rfl hfar ⟨hquiet, rfl⟩
    · cases hd : t.memo.detected (id, p.cursor) with
      | false =>
        rw [Rule.endSeed_some hclose hd]
        exact .of_none rfl hfar hquiet.trans
      | true =>
        rw [Rule.endSeed_grown hclose hd]
        exact .of_none rfl hfar hquiet.trans

theorem Rule.notes_endGrow (rule : Rule Ctx) (id : RuleId) (p : View text)
    (stop : Cursor text) (best : Value (Cursor text))
    (w : Option (Value (Cursor text))) (u : State Ctx text)
    (k : List (Pending Ctx text)) :
    Notes ⟨.done w, u, .grow id rule p stop best :: k⟩
      (rule.endGrow id p stop best w u k).2 := by
  cases hclose : rule.close id p w u with
  | mk x t =>
    obtain ⟨hquiet, ⟨rfl, rfl, hfar⟩ | ⟨⟨v, rfl⟩, ⟨x, rfl⟩, hfar⟩⟩ :=
      Rule.record_of_close hclose
    · rw [Rule.endGrow_none hclose]
      exact .of_some (s := u.backTo p) rfl rfl rfl hfar ⟨hquiet, rfl⟩
    · by_cases hlt : stop.index < t.cursor.index
      · rw [Rule.endGrow_more hclose hlt]
        exact .of_none rfl hfar hquiet.trans
      · rw [Rule.endGrow_idle hclose hlt]
        exact .of_none rfl hfar hquiet.trans

theorem Pending.notes_resume (q : Pending Ctx text)
    (w : Option (Value (Cursor text))) (s : State Ctx text)
    (k : List (Pending Ctx text)) :
    Notes ⟨.done w, s, q :: k⟩ (q.resume w s k).2 := by
  cases q with
  | seed id rule p => exact rule.notes_endSeed id p w s k
  | grow id rule p stop best => exact rule.notes_endGrow id p stop best w s k
  | not p =>
    have hquiet : s.quiet = negations (.not p :: k) → s.quiet - 1 = negations k := by
      rw [negations_not]
      exact Nat.sub_eq_of_eq_add
    cases w <;> exact .of_none rfl rfl hquiet
  | many start p e =>
    cases w with
    | none => exact .of_none rfl rfl fun h => h
    | some v =>
      simp only [Pending.resume]
      split <;> exact .of_none rfl rfl fun h => h
  | _ => cases w <;> exact .of_none rfl rfl fun h => h

theorem step_notes {es : List (Event text)} (h : step g c = some (es, d)) :
    Notes c d := by
  obtain ⟨focus, s, k⟩ := c
  cases focus with
  | expr e =>
    cases h
    exact e.notes_enter
  | all es =>
    cases es <;> cases h <;> exact .of_none rfl rfl fun h => h
  | first es =>
    cases es <;> cases h <;> exact .of_none rfl rfl fun h => h
  | apply id =>
    have hcall := State.notes_call g id s k
    rwa [Option.some.inj h] at hcall
  | done v =>
    cases k with
    | nil => cases h
    | cons q k =>
      have hresume := q.notes_resume v s k
      rwa [Option.some.inj h] at hresume

end

/-- The offset on record never decreases. -/
theorem Steps.furthest_some {c d : Config Ctx text} {log : List (Event text)}
    (h : Steps g c log d) {far : Visit (Cursor text)}
    (hfar : c.state.furthest = some far) : ∃ far', d.state.furthest = some far' ∧
      far.2.offset ≤ far'.2.offset := by
  induction h generalizing far with
  | refl c => exact ⟨far, hfar, Nat.le_refl _⟩
  | head hstep _ ih =>
    have hnext := (step_notes hstep).furthest
    rw [hfar] at hnext
    split at hnext
    · obtain ⟨far', hfar', hle⟩ := foldl_later_some _ far
      obtain ⟨far'', hend, hle'⟩ := ih (hnext.trans hfar')
      exact ⟨far'', hend, Nat.le_trans hle hle'⟩
    · exact ih hnext

/-! ## The record of a run -/

/-- The record is made of these failures, which are failures of rules. The books and
the stack are in order, which is how the rules are known. -/
structure Recorded (g : Grammar Ctx) (fs : List (Visit (Cursor text)))
    (s : State Ctx text) (k : List (Pending Ctx text)) : Prop where
  furthest : s.furthest = fs.foldl later none
  quiet : s.quiet = negations k
  rules : ∀ f ∈ fs, ∃ rule, g.rule? f.1 = some rule
  known : ∀ q ∈ k, q.Known g
  balanced : ∃ log, Ledger.Balanced g log ⟨s.memo, marks k, s.growthRounds⟩

section

variable {c d : Config Ctx text} {fs : List (Visit (Cursor text))}

/-- What fails is a rule. -/
theorem Recorded.rule_of_failed (h : Recorded g fs c.state c.stack)
    {f : Visit (Cursor text)} (hf : c.failed? = some f) :
    ∃ rule, g.rule? f.1 = some rule := by
  obtain ⟨log, hbalanced⟩ := h.balanced
  unfold Config.failed? at hf
  split at hf
  · rename_i id s k
    split at hf
    · rename_i ho
      cases hf
      have hmem := hbalanced.known _ (Memo.visited_iff.2 ⟨_, ho⟩)
      obtain ⟨id', hid, hpair⟩ := List.mem_flatMap.1 hmem
      obtain ⟨c, -, heq⟩ := List.mem_map.1 hpair
      cases heq
      exact ⟨_, Array.getElem?_eq_getElem (List.mem_range.1 hid)⟩
    · cases hf
  · cases hf
    exact ⟨_, h.known _ List.mem_cons_self⟩
  · cases hf
    exact ⟨_, h.known _ List.mem_cons_self⟩
  · cases hf

theorem Recorded.step {es : List (Event text)} (hstep : step g c = some (es, d))
    (h : Recorded g fs c.state c.stack) :
    Recorded g (fs ++ c.reported) d.state d.stack where
  furthest := by
    rw [(step_notes hstep).furthest, List.foldl_append, ← h.furthest, h.quiet]
    unfold Config.reported
    split <;> rfl
  quiet := (step_notes hstep).quiet h.quiet
  rules := by
    refine List.forall_mem_append.2 ⟨h.rules, ?_⟩
    intro f hf
    unfold Config.reported at hf
    split at hf
    · exact h.rule_of_failed (Option.mem_toList.1 hf)
    · cases hf
  known := (step_carries hstep).known h.known
  balanced := by
    obtain ⟨log, hbalanced⟩ := h.balanced
    exact ⟨_, (step_moves hstep).balanced hbalanced⟩

theorem Failing.recorded {fs' : List (Visit (Cursor text))} (hrun : Failing g c fs' d)
    (h : Recorded g fs c.state c.stack) :
    Recorded g (fs ++ fs') d.state d.stack := by
  induction hrun generalizing fs with
  | refl c =>
    rw [List.append_nil]
    exact h
  | head hstep _ ih =>
    rw [← List.append_assoc]
    exact ih (h.step hstep)

end

/-- Top-level calls from one state to another, with the failures in them. The context
may be changed from outside in between. -/
inductive Failures (g : Grammar Ctx) : State Ctx text →
    List (Visit (Cursor text)) → State Ctx text → Prop where
  | refl (s : State Ctx text) : Failures g s [] s
  | apply {s t : State Ctx text} {fs fs' : List (Visit (Cursor text))} (id : RuleId)
      (h : Failures g s fs t) (hcall : Failing g ⟨.apply id, t, []⟩ fs'
        ⟨.done (t.apply g id).value, (t.apply g id).state, []⟩) :
    Failures g s (fs ++ fs') (t.apply g id).state
  | parse {s t : State Ctx text} {fs fs' : List (Visit (Cursor text))} (root : RuleId)
      (h : Failures g s fs t) (hcall : Failing g ⟨.apply root, t, []⟩ fs'
        ⟨.done (t.apply g root).value, (t.apply g root).state, []⟩) :
    Failures g s (fs ++ fs') (t.parse g root).2
  | context {s t : State Ctx text} {fs : List (Visit (Cursor text))} (context : Ctx)
      (h : Failures g s fs t) : Failures g s fs { t with context }

section

variable {s t : State Ctx text} {fs fs' : List (Visit (Cursor text))}

theorem State.exists_failing (g : Grammar Ctx) (id : RuleId) (s : State Ctx text) :
    ∃ fs, Failing g ⟨.apply id, s, []⟩ fs
      ⟨.done (s.apply g id).value, (s.apply g id).state, []⟩ := by
  obtain ⟨log, hcall⟩ := s.apply_steps g id
  exact (hcall []).failing

/-- Whatever calls can lead to, they lead to with some failures. -/
theorem State.Reachable.failures (h : s.Reachable g) :
    ∃ context fs, Failures g (.start text context) fs s := by
  induction h with
  | start context => exact ⟨context, [], .refl _⟩
  | @apply s id _ ih =>
    obtain ⟨context, fs, ih⟩ := ih
    obtain ⟨fs', hcall⟩ := s.exists_failing g id
    exact ⟨context, _, .apply id ih hcall⟩
  | @parse s root _ ih =>
    obtain ⟨context, fs, ih⟩ := ih
    obtain ⟨fs', hcall⟩ := s.exists_failing g root
    exact ⟨context, _, .parse root ih hcall⟩
  | context c _ ih =>
    obtain ⟨context, fs, ih⟩ := ih
    exact ⟨context, fs, .context c ih⟩

theorem State.recorded_start (g : Grammar Ctx) (context : Ctx) :
    Recorded g [] (State.start text context) [] :=
  ⟨rfl, rfl, List.forall_mem_nil _, List.forall_mem_nil _, [],
    State.balanced_start g context⟩

theorem Failures.recorded (h : Failures g s fs' t) (hs : Recorded g fs s []) :
    Recorded g (fs ++ fs') t [] := by
  induction h with
  | refl =>
    rw [List.append_nil]
    exact hs
  | apply id _ hcall ih =>
    rw [← List.append_assoc]
    exact hcall.recorded ih
  | parse root _ hcall ih =>
    rw [← List.append_assoc, State.parse_state]
    exact hcall.recorded ih
  | context _ _ ih => exact ⟨ih.furthest, ih.quiet, ih.rules, ih.known, ih.balanced⟩

/-- The diagnostic is about the latest of the failures that are furthest to the right,
and names its rule; it is missing only if nothing has failed. -/
def State.Explains (g : Grammar Ctx) (fs : List (Visit (Cursor text)))
    (s : State Ctx text) : Prop :=
  fs = [] ∧ s.failure? g = none ∨
    ∃ id rule c, Latest fs (id, c) ∧ g.rule? id = some rule ∧
      s.failure? g = some (.atOffset text rule.name c.offset)

/-- The diagnostic is about what is on record. -/
theorem Recorded.failure?_eq {k : List (Pending Ctx text)} (h : Recorded g fs s k)
    {far : Visit (Cursor text)} (hfar : s.furthest = some far) :
    Latest fs far ∧ ∃ rule, g.rule? far.1 = some rule ∧
      s.failure? g = some (.atOffset text rule.name far.2.offset) := by
  have hkept := h.furthest.symm.trans hfar
  rcases latest_foldl_later fs with ⟨-, hnone⟩ | ⟨f, hf, hlatest⟩
  · cases hnone.symm.trans hkept
  · cases hf.symm.trans hkept
    obtain ⟨rule, hrule⟩ := h.rules far hlatest.mem
    refine ⟨hlatest, rule, hrule, ?_⟩
    simp only [State.failure?, hfar, Option.map_some, Grammar.name, hrule,
      Option.getD_some]

theorem Recorded.explains {k : List (Pending Ctx text)} (h : Recorded g fs s k) :
    s.Explains g fs := by
  rcases latest_foldl_later fs with ⟨hnil, hnone⟩ | ⟨f, hf, -⟩
  · left
    refine ⟨hnil, ?_⟩
    rw [State.failure?, h.furthest, hnone]
    rfl
  · right
    obtain ⟨hlatest, rule, hrule, hfailure⟩ := h.failure?_eq (h.furthest.trans hf)
    exact ⟨f.1, rule, f.2, hlatest, hrule, hfailure⟩

end

/-! ## The record has no influence -/

def State.silenced (s : State Ctx text) : State Ctx text :=
  { s with furthest := none, quiet := 0 }

@[simp] theorem State.cursor_silenced (s : State Ctx text) :
    s.silenced.cursor = s.cursor :=
  rfl

@[simp] theorem State.memo_silenced (s : State Ctx text) :
    s.silenced.memo = s.memo :=
  rfl

def Config.silenced (c : Config Ctx text) : Config Ctx text :=
  { c with state := c.state.silenced }

/-- The conditions are the same, and so are the outcomes but for the record. -/
theorem Config.silenced_ite {P Q : Prop} [Decidable P] [Decidable Q]
    {a b a' b' : Config Ctx text} (h : P ↔ Q) (ha : a.silenced = a'.silenced)
    (hb : b.silenced = b'.silenced) :
    (if P then a else b).silenced = (if Q then a' else b').silenced := by
  by_cases hP : P
  · rw [if_pos hP, if_pos (h.1 hP), ha]
  · rw [if_neg hP, if_neg (mt h.2 hP), hb]

/-- Two steps that do the same and lead to the same, but for the record. -/
structure SameStep (r r' : List (Event text) × Config Ctx text) : Prop where
  events : r.1 = r'.1
  config : r.2.silenced = r'.2.silenced

namespace SameStep

variable {r r' r'' : List (Event text) × Config Ctx text}

theorem symm (h : SameStep r r') : SameStep r' r :=
  ⟨h.events.symm, h.config.symm⟩

theorem trans (h : SameStep r r') (h' : SameStep r' r'') : SameStep r r'' :=
  ⟨h.events.trans h'.events, h.config.trans h'.config⟩

end SameStep

@[simp] theorem State.silenced_recordFailure (s : State Ctx text) (id : RuleId)
    (c : Cursor text) : (s.recordFailure id c).silenced = s.silenced := by
  unfold State.recordFailure
  repeat' split
  all_goals rfl

section

variable {s t u : State Ctx text} {k : List (Pending Ctx text)} {id : RuleId}
  {rule : Rule Ctx} {p : View text} {w x : Option (Value (Cursor text))}

theorem Expr.sameStep_enter (e : Expr Ctx) (s : State Ctx text)
    (k : List (Pending Ctx text)) :
    SameStep ([], e.enter s k) ([], e.enter s.silenced k) := by
  refine ⟨rfl, ?_⟩
  cases e with
  | literal _ | predicate _ => exact Config.silenced_ite Iff.rfl rfl rfl
  | pattern _ =>
    simp only [Expr.enter, State.cursor_silenced]
    split <;> rfl
  | _ => rfl

theorem State.sameStep_call (g : Grammar Ctx) (id : RuleId) (s : State Ctx text)
    (k : List (Pending Ctx text)) :
    SameStep (s.call g id k) (s.silenced.call g id k) := by
  unfold State.call
  dsimp only [State.memo_silenced, State.cursor_silenced]
  split
  · split
    · exact ⟨rfl, rfl⟩
    · refine ⟨rfl, congrArg (Config.mk _ · k) ?_⟩
      simp only [State.silenced_recordFailure]
      rfl
    · exact ⟨rfl, rfl⟩
  · split
    · exact ⟨rfl, rfl⟩
    · exact ⟨rfl, rfl⟩

/-- The end of a rule is the same but for the record. -/
theorem Rule.close_silenced (h : rule.close id p w u = (x, t)) :
    ∃ t', rule.close id p w u.silenced = (x, t') ∧ t'.silenced = t.silenced := by
  cases w with
  | none =>
    cases h
    refine ⟨_, rfl, ?_⟩
    simp only [State.silenced_recordFailure]
    rfl
  | some v =>
    cases h
    exact ⟨_, rfl, rfl⟩

theorem Rule.silenced_regrow (rule : Rule Ctx) {best : Value (Cursor text)}
    (h : s.silenced = t.silenced) : (rule.regrow id p best s k).silenced
      = (rule.regrow id p best t k).silenced := by
  have hregrow := congrArg (fun s => (rule.regrow id p best s k).silenced) h
  exact hregrow

theorem Rule.sameStep_endSeed (rule : Rule Ctx) (id : RuleId) (p : View text)
    (w : Option (Value (Cursor text))) (u : State Ctx text)
    (k : List (Pending Ctx text)) :
    SameStep (rule.endSeed id p w u k) (rule.endSeed id p w u.silenced k) := by
  cases hclose : rule.close id p w u with
  | mk x t =>
    obtain ⟨t', hclose', hsame⟩ := Rule.close_silenced hclose
    have hmemo : t'.silenced.memo = t.silenced.memo := congrArg State.memo hsame
    have hcursor : t'.silenced.cursor = t.silenced.cursor :=
      congrArg State.cursor hsame
    simp only [State.memo_silenced, State.cursor_silenced] at hmemo hcursor
    have hsettle (o) : (t'.settle (id, p.cursor) o).silenced
        = (t.settle (id, p.cursor) o).silenced :=
      congrArg (State.settle · (id, p.cursor) o) hsame
    cases x with
    | none =>
      rw [Rule.endSeed_none hclose, Rule.endSeed_none hclose']
      exact ⟨rfl, congrArg (Config.mk _ · k) (hsettle .failure).symm⟩
    | some v =>
      cases hd : t.memo.detected (id, p.cursor) with
      | false =>
        rw [Rule.endSeed_some hclose hd, Rule.endSeed_some hclose' (hmemo ▸ hd),
          hcursor]
        exact ⟨rfl, congrArg (Config.mk _ · k) (hsettle _).symm⟩
      | true =>
        rw [Rule.endSeed_grown hclose hd, Rule.endSeed_grown hclose' (hmemo ▸ hd)]
        exact ⟨rfl, rule.silenced_regrow hsame.symm⟩

theorem Rule.sameStep_endGrow (rule : Rule Ctx) (id : RuleId) (p : View text)
    (stop : Cursor text) (best : Value (Cursor text))
    (w : Option (Value (Cursor text))) (u : State Ctx text)
    (k : List (Pending Ctx text)) :
    SameStep (rule.endGrow id p stop best w u k)
      (rule.endGrow id p stop best w u.silenced k) := by
  cases hclose : rule.close id p w u with
  | mk x t =>
    obtain ⟨t', hclose', hsame⟩ := Rule.close_silenced hclose
    have hcursor : t'.silenced.cursor = t.silenced.cursor :=
      congrArg State.cursor hsame
    simp only [State.cursor_silenced] at hcursor
    have hback : (t.moveTo stop).silenced = (t'.moveTo stop).silenced := by
      have hmoved := congrArg (State.moveTo · stop) hsame.symm
      exact hmoved
    cases x with
    | none =>
      rw [Rule.endGrow_none hclose, Rule.endGrow_none hclose']
      exact ⟨rfl, congrArg (Config.mk _ · k) hback⟩
    | some v =>
      by_cases hlt : stop.index < t.cursor.index
      · rw [Rule.endGrow_more hclose hlt, Rule.endGrow_more hclose' (hcursor ▸ hlt)]
        exact ⟨rfl, rule.silenced_regrow hsame.symm⟩
      · rw [Rule.endGrow_idle hclose hlt, Rule.endGrow_idle hclose' (hcursor ▸ hlt)]
        exact ⟨rfl, congrArg (Config.mk _ · k) hback⟩

theorem Pending.sameStep_resume (q : Pending Ctx text)
    (w : Option (Value (Cursor text))) (s : State Ctx text)
    (k : List (Pending Ctx text)) :
    SameStep (q.resume w s k) (q.resume w s.silenced k) := by
  cases q with
  | seed id rule p => exact rule.sameStep_endSeed id p w s k
  | grow id rule p stop best => exact rule.sameStep_endGrow id p stop best w s k
  | many start p e =>
    cases w with
    | none => exact ⟨rfl, rfl⟩
    | some v =>
      have hcursor : p.cursor.index < s.silenced.cursor.index
          ↔ p.cursor.index < s.cursor.index := Iff.rfl
      simp only [Pending.resume]
      by_cases hlt : p.cursor.index < s.cursor.index
      · rw [if_pos hlt, if_pos (hcursor.2 hlt)]
        exact ⟨rfl, rfl⟩
      · rw [if_neg hlt, if_neg (mt hcursor.1 hlt)]
        exact ⟨rfl, rfl⟩
  | _ => cases w <;> exact ⟨rfl, rfl⟩

/-- A step takes no notice of the record. -/
theorem step_silenced {c d : Config Ctx text} {es : List (Event text)}
    (h : step g c = some (es, d)) :
    ∃ r, step g c.silenced = some r ∧ SameStep (es, d) r := by
  obtain ⟨focus, s, k⟩ := c
  cases focus with
  | expr e =>
    cases h
    exact ⟨_, rfl, e.sameStep_enter s k⟩
  | all es => cases es <;> cases h <;> exact ⟨_, rfl, rfl, rfl⟩
  | first es => cases es <;> cases h <;> exact ⟨_, rfl, rfl, rfl⟩
  | apply id =>
    refine ⟨_, rfl, ?_⟩
    rw [← Option.some.inj h]
    exact s.sameStep_call g id k
  | done v =>
    cases k with
    | nil => cases h
    | cons q k =>
      refine ⟨_, rfl, ?_⟩
      rw [← Option.some.inj h]
      exact q.sameStep_resume v s k

theorem step_eq_none_silenced {c : Config Ctx text} (h : step g c = none) :
    step g c.silenced = none := by
  obtain ⟨focus, s, k⟩ := c
  cases focus with
  | expr e => cases h
  | all es => cases es <;> cases h
  | first es => cases es <;> cases h
  | apply id => cases h
  | done v =>
    cases k with
    | nil => rfl
    | cons q k => cases h

end

/-- Runs from configurations that differ in the record only do the same and end
alike. -/
theorem Steps.silenced {c c' d : Config Ctx text} {log : List (Event text)}
    (h : Steps g c log d) (hsame : c'.silenced = c.silenced) :
    ∃ d', Steps g c' log d' ∧ d'.silenced = d.silenced := by
  induction h generalizing c' with
  | refl c => exact ⟨c', .refl c', hsame⟩
  | @head a b c es log hstep _ ih =>
    obtain ⟨r, hr, hstep'⟩ := step_silenced hstep
    rw [← hsame] at hr
    cases hc' : step g c' with
    | none => cases (step_eq_none_silenced hc').symm.trans hr
    | some r' =>
      obtain ⟨es', b'⟩ := r'
      obtain ⟨r'', hr'', hstep''⟩ := step_silenced hc'
      cases hr.symm.trans hr''
      obtain ⟨rfl, hb⟩ := hstep''.trans hstep'.symm
      obtain ⟨d', hsteps, hd⟩ := ih hb
      exact ⟨d', .head hc' hsteps, hd⟩

section

variable {s s' : State Ctx text}

/-- What the machine makes of two states that differ in the record only. -/
theorem ends_alike {f : Focus Ctx text} {v v' : Option (Value (Cursor text))}
    {t t' : State Ctx text} {log log' : List (Event text)}
    (hsame : s.silenced = s'.silenced) (h : Steps g ⟨f, s, []⟩ log ⟨.done v, t, []⟩)
    (h' : Steps g ⟨f, s', []⟩ log' ⟨.done v', t', []⟩) :
    v = v' ∧ t.silenced = t'.silenced := by
  have hstart : (⟨f, s, []⟩ : Config Ctx text).silenced
      = (⟨f, s', []⟩ : Config Ctx text).silenced := congrArg (Config.mk f · []) hsame
  obtain ⟨d, hd, hsame'⟩ := h'.silenced hstart
  obtain ⟨focus, u, k⟩ := d
  obtain ⟨rfl, hstate, rfl⟩ := Config.mk.inj hsame'
  -- There is one way to the end only.
  obtain ⟨rest, -, hrest⟩ := h.before_end hd rfl
  cases hrest with
  | refl _ => exact ⟨rfl, hstate⟩
  | head hstep _ => cases hstep

/-- Whether a rule matches, and how, does not depend on the record. -/
theorem State.apply_silenced (g : Grammar Ctx) (id : RuleId)
    (hsame : s.silenced = s'.silenced) :
    (s.apply g id).value = (s'.apply g id).value ∧
      (s.apply g id).state.silenced = (s'.apply g id).state.silenced := by
  obtain ⟨log, h⟩ := s.apply_steps g id
  obtain ⟨log', h'⟩ := s'.apply_steps g id
  exact ends_alike hsame (h []) (h' [])

theorem State.eval_silenced (g : Grammar Ctx) (e : Expr Ctx)
    (hsame : s.silenced = s'.silenced) :
    (s.eval g e).value = (s'.eval g e).value ∧
      (s.eval g e).state.silenced = (s'.eval g e).state.silenced := by
  obtain ⟨log, h, -⟩ :=
    (s.eval_evaluates g e).performs g.closed_true e.within_true
  obtain ⟨log', h', -⟩ :=
    (s'.eval_evaluates g e).performs g.closed_true e.within_true
  exact ends_alike hsame (h.runs []) (h'.runs [])

end

/-! ## What is known after a rule has failed -/

theorem State.furthest_after (s : State Ctx text) (id : RuleId) (c : Cursor text)
    (h : s.quiet = 0) : ∃ far, (s.recordFailure id c).furthest = some far ∧
      c.offset ≤ far.2.offset := by
  obtain ⟨far, hfar, hle, -⟩ := exists_later s.furthest (id, c)
  rw [State.furthest_recordFailure, if_pos h]
  exact ⟨far, hfar, hle⟩

/-- A rule that fails leaves a record that is not before its start. -/
theorem Evaluates.furthest_of_none {id : RuleId} {rule : Rule Ctx}
    {s t : State Ctx text} (h : Evaluates g (.apply id) s none t)
    (hr : g.rule? id = some rule) (hopen : ¬ s.memo.Open (id, s.cursor))
    (hquiet : s.quiet = 0) :
    ∃ far, t.furthest = some far ∧ s.cursor.offset ≤ far.2.offset := by
  cases h with
  | apply_open hl ho =>
    have hout := (Memo.outcome?_of_lookup? hl).1
    exact absurd ⟨_, hout.trans (congrArg some ho)⟩ hopen
  | apply_failed _ _ => exact State.furthest_after _ id s.cursor hquiet
  | apply_unknown _ hnone => cases hr.symm.trans hnone
  | apply_none _ _ h =>
    cases h with
    | invoke_none h =>
      exact State.furthest_after _ id s.cursor (h.quiet_eq.trans hquiet)
  | apply_grown _ _ _ _ hgrow => exact absurd rfl hgrow.grow_ne_none

/-! ## The record as a whole -/

/-- The offset of the diagnostic, if there is one, is not before that of another
state. -/
def State.NotBeyond (g : Grammar Ctx) (s t : State Ctx text) : Prop :=
  ∀ e, s.failure? g = some e → ∃ e', t.failure? g = some e' ∧ e.offset ≤ e'.offset

section

variable {s t u : State Ctx text}

theorem State.NotBeyond.refl (s : State Ctx text) : s.NotBeyond g s :=
  fun e he => ⟨e, he, Nat.le_refl _⟩

theorem State.NotBeyond.trans (h : s.NotBeyond g t) (h' : t.NotBeyond g u) :
    s.NotBeyond g u := by
  intro e he
  obtain ⟨e', he', hle⟩ := h e he
  obtain ⟨e'', he'', hle'⟩ := h' e' he'
  exact ⟨e'', he'', Nat.le_trans hle hle'⟩

theorem Steps.notBeyond {c d : Config Ctx text} {log : List (Event text)}
    (h : Steps g c log d) : c.state.NotBeyond g d.state := by
  intro e he
  obtain ⟨far, hfar, rfl⟩ := Option.map_eq_some_iff.1 he
  obtain ⟨far', hfar', hle⟩ := h.furthest_some hfar
  exact ⟨_, congrArg (Option.map _) hfar', hle⟩

theorem Failing.notBeyond {c d : Config Ctx text} {fs : List (Visit (Cursor text))}
    (h : Failing g c fs d) : c.state.NotBeyond g d.state := by
  obtain ⟨log, hsteps⟩ := h.steps
  exact hsteps.notBeyond

theorem Failures.notBeyond {fs : List (Visit (Cursor text))}
    (h : Failures g s fs t) : s.NotBeyond g t := by
  induction h with
  | refl => exact .refl _
  | apply id _ hcall ih => exact ih.trans hcall.notBeyond
  | parse root _ hcall ih =>
    rw [State.parse_state]
    exact ih.trans hcall.notBeyond
  | context _ _ ih => exact ih

end

/-- What can be relied on about the diagnostics of a grammar. -/
structure Grammar.Diagnoses (g : Grammar Ctx) (text : List Char) : Prop where
  /-- Whatever calls lead to, they lead to with a list of failures. -/
  reachable : ∀ s : State Ctx text, s.Reachable g →
    ∃ context fs, Failures g (.start text context) fs s
  between : ∀ context fs (s : State Ctx text),
    Failures g (.start text context) fs s → s.Explains g fs
  during : ∀ context fs (s : State Ctx text),
    Failures g (.start text context) fs s → ∀ id,
      (∀ log c, Steps g ⟨.apply id, s, []⟩ log c →
        ∃ fs', Failing g ⟨.apply id, s, []⟩ fs' c) ∧
      ∀ fs' c, Failing g ⟨.apply id, s, []⟩ fs' c → c.state.Explains g (fs ++ fs')
  advances : (∀ fs (s t : State Ctx text), Failures g s fs t → s.NotBeyond g t) ∧
    ∀ log (c d : Config Ctx text), Steps g c log d → c.state.NotBeyond g d.state
  /-- The record has no influence on anything but itself. -/
  unread : ∀ s s' : State Ctx text, s.silenced = s'.silenced →
    (∀ id, (s.apply g id).value = (s'.apply g id).value ∧
      (s.apply g id).state.silenced = (s'.apply g id).state.silenced) ∧
    ∀ e, (s.eval g e).value = (s'.eval g e).value ∧
      (s.eval g e).state.silenced = (s'.eval g e).state.silenced

theorem Grammar.diagnoses (g : Grammar Ctx) (text : List Char) : g.Diagnoses text where
  reachable _ h := h.failures
  between context _ _ h := (h.recorded (State.recorded_start g context)).explains
  during := by
    intro context fs s h id
    have hs := h.recorded (State.recorded_start g context)
    refine ⟨fun log c hsteps => hsteps.failing, ?_⟩
    intro fs' c hfailing
    exact (hfailing.recorded (c := ⟨.apply id, s, []⟩) hs).explains
  advances := ⟨fun _ _ _ h => h.notBeyond, fun _ _ _ h => h.notBeyond⟩
  unread s s' hsame :=
    ⟨fun id => State.apply_silenced g id hsame, fun e => State.eval_silenced g e hsame⟩

end RubyIndent.Peg
