import RubyIndent.Proofs.Peg.Machine

/-!
# The books of a parse

What the machine does to the table, over whole runs. Of a configuration only the
table, the growth counter and the rules on the stack matter here; they make up
its ledger, and `Moves` says in which ways one step changes a ledger. The rules
on the stack are what explains the table half way through a call: the visits
under way are those of the rules that wait for their first result, and a rule
whose match is being grown has its best match in the table (`Ledger.Sound`).
Everything else follows from the moves one by one, and then along a run.
-/

namespace RubyIndent.Peg

open RubyIndent.Text

variable {Ctx : Type} {text : List Char}

/-! ## Ledgers -/

/-- A rule on the stack: it waits for its first result, or for a longer match
than the best so far. -/
inductive Mark (text : List Char) where
  | seed (v : Visit (Cursor text))
  | growth (v : Visit (Cursor text)) (stop : Cursor text)
      (best : Value (Cursor text))

def Mark.visit : Mark text → Visit (Cursor text)
  | .seed v | .growth v _ _ => v

def Pending.mark? : Pending Ctx text → Option (Mark text)
  | .seed id _ p => some (.seed (id, p.cursor))
  | .grow id _ p stop best => some (.growth (id, p.cursor) stop best)
  | _ => none

def marks (k : List (Pending Ctx text)) : List (Mark text) :=
  k.filterMap Pending.mark?

/-- The table, the rules on the stack, and the number of growth rounds. -/
structure Ledger (text : List Char) where
  memo : Memo (Cursor text)
  marks : List (Mark text)
  rounds : Nat

def Config.ledger (c : Config Ctx text) : Ledger text :=
  ⟨c.state.memo, marks c.stack, c.state.growthRounds⟩

def Acted (v : Visit (Cursor text)) (again : Bool) (es : List (Event text)) :
    Prop :=
  es = [] ∨ ∃ caps, es = [.action v again caps]

inductive Moves (g : Grammar Ctx) :
    Ledger text → List (Event text) → Ledger text → Prop where
  | still {l} : Moves g l [] l
  | found {m ms n v e m'} (hl : m.lookup? v = some (e, m')) :
    Moves g ⟨m, ms, n⟩ [] ⟨m', ms, n⟩
  | met {m ms n v e m' d} (hl : m.lookup? v = some (e, m'))
      (ho : e.outcome = .inProgress d) :
    Moves g ⟨m, ms, n⟩ [] ⟨m'.markDetected v, ms, n⟩
  | entered {m ms n v} (hl : m.lookup? v = none) (hv : v ∈ g.visits text) :
    Moves g ⟨m, ms, n⟩ [.body v false] ⟨m.enter v, .seed v :: ms, n⟩
  | settled {m ms n v o es} (ho : ∀ d, o ≠ .inProgress d)
      (hes : Acted v false es) :
    Moves g ⟨m, .seed v :: ms, n⟩ es ⟨m.setOutcome v o, ms, n⟩
  | seeded {m ms n v stop best es} (hes : Acted v false es) :
    Moves g ⟨m, .seed v :: ms, n⟩ (es ++ [.body v true])
      ⟨m.setOutcome v (.success stop best), .growth v stop best :: ms, n + 1⟩
  | grown {m ms n v stop best stop' best' es}
      (hlt : stop.index < stop'.index) (hes : Acted v true es) :
    Moves g ⟨m, .growth v stop best :: ms, n⟩ (es ++ [.body v true])
      ⟨m.setOutcome v (.success stop' best'), .growth v stop' best' :: ms, n + 1⟩
  | ended {m ms n v stop best es} (hes : Acted v true es) :
    Moves g ⟨m, .growth v stop best :: ms, n⟩ es ⟨m, ms, n⟩

theorem Rule.acted (rule : Rule Ctx) (v : Visit (Cursor text)) (again : Bool)
    (w : Option (Value (Cursor text))) (s : State Ctx text) :
    Acted v again (rule.acts v again w s) := by
  unfold Rule.acts
  split
  · exact .inr ⟨_, rfl⟩
  · exact .inl rfl

@[simp] theorem State.growthRounds_recordFailure (s : State Ctx text)
    (id : RuleId) (c : Cursor text) :
    (s.recordFailure id c).growthRounds = s.growthRounds := by
  unfold State.recordFailure
  repeat' split
  all_goals rfl

/-- Ending a rule does nothing to the books. -/
theorem Rule.books_of_close {rule : Rule Ctx} {id : RuleId} {p : View text}
    {w x : Option (Value (Cursor text))} {u t : State Ctx text}
    (h : rule.close id p w u = (x, t)) :
    t.memo = u.memo ∧ t.growthRounds = u.growthRounds := by
  cases w with
  | none =>
    cases h
    exact ⟨State.memo_recordFailure .., State.growthRounds_recordFailure ..⟩
  | some w =>
    cases h
    exact ⟨rfl, rfl⟩

/-! ## Every step is a move -/

variable {g : Grammar Ctx}

theorem Expr.ledger_enter (e : Expr Ctx) (s : State Ctx text)
    (k : List (Pending Ctx text)) :
    (e.enter s k).ledger = ⟨s.memo, marks k, s.growthRounds⟩ := by
  cases e <;> simp only [Expr.enter]
  case literal w => split <;> rfl
  case pattern p => split <;> rfl
  case predicate check => split <;> rfl
  all_goals rfl

theorem State.call_moves (id : RuleId) (s : State Ctx text)
    (k : List (Pending Ctx text)) :
    Moves g ⟨s.memo, marks k, s.growthRounds⟩ (s.call g id k).1
      (s.call g id k).2.ledger := by
  unfold State.call
  dsimp only
  split
  · rename_i entry memo hl
    split
    · exact .met hl (by assumption)
    · simp only [Config.ledger, State.memo_recordFailure,
        State.growthRounds_recordFailure]
      exact .found hl
    · exact .found hl
  · rename_i hl
    split
    · exact .still
    · rename_i rule hr
      exact .entered hl (Grammar.mem_visits hr s.cursor)

theorem Rule.endSeed_moves (rule : Rule Ctx) (id : RuleId) (p : View text)
    (w : Option (Value (Cursor text))) (u : State Ctx text)
    (k : List (Pending Ctx text)) :
    Moves g ⟨u.memo, .seed (id, p.cursor) :: marks k, u.growthRounds⟩
      (rule.endSeed id p w u k).1 (rule.endSeed id p w u k).2.ledger := by
  have hacted := rule.acted (id, p.cursor) false w u
  cases hclose : rule.close id p w u with
  | mk x t =>
    obtain ⟨hmemo, hrounds⟩ := Rule.books_of_close hclose
    rw [← hmemo, ← hrounds]
    cases x with
    | none =>
      rw [Rule.endSeed_none hclose]
      exact .settled nofun hacted
    | some v =>
      cases hd : t.memo.detected (id, p.cursor) with
      | false =>
        rw [Rule.endSeed_some hclose hd]
        exact .settled nofun hacted
      | true =>
        rw [Rule.endSeed_grown hclose hd]
        exact .seeded hacted

theorem Rule.endGrow_moves (rule : Rule Ctx) (id : RuleId) (p : View text)
    (stop : Cursor text) (best : Value (Cursor text))
    (w : Option (Value (Cursor text))) (u : State Ctx text)
    (k : List (Pending Ctx text)) :
    Moves g ⟨u.memo, .growth (id, p.cursor) stop best :: marks k, u.growthRounds⟩
      (rule.endGrow id p stop best w u k).1
      (rule.endGrow id p stop best w u k).2.ledger := by
  have hacted := rule.acted (id, p.cursor) true w u
  cases hclose : rule.close id p w u with
  | mk x t =>
    obtain ⟨hmemo, hrounds⟩ := Rule.books_of_close hclose
    rw [← hmemo, ← hrounds]
    cases x with
    | none =>
      rw [Rule.endGrow_none hclose]
      exact .ended hacted
    | some v =>
      by_cases hlt : stop.index < t.cursor.index
      · rw [Rule.endGrow_more hclose hlt]
        exact .grown hlt hacted
      · rw [Rule.endGrow_idle hclose hlt]
        exact .ended hacted

theorem Pending.resume_moves (q : Pending Ctx text)
    (w : Option (Value (Cursor text))) (s : State Ctx text)
    (k : List (Pending Ctx text)) :
    Moves g ⟨s.memo, marks (q :: k), s.growthRounds⟩ (q.resume w s k).1
      (q.resume w s k).2.ledger := by
  cases q with
  | seed id rule p => exact rule.endSeed_moves id p w s k
  | grow id rule p stop best => exact rule.endGrow_moves id p stop best w s k
  | many start p e =>
    cases w with
    | none => exact .still
    | some v =>
      simp only [Pending.resume]
      split <;> exact .still
  | _ => cases w <;> exact .still

/-- Every step is a move. -/
theorem step_moves {c d : Config Ctx text} {es : List (Event text)}
    (h : step g c = some (es, d)) : Moves g c.ledger es d.ledger := by
  obtain ⟨focus, s, k⟩ := c
  cases focus with
  | expr e =>
    cases h
    rw [Expr.ledger_enter]
    exact .still
  | all es =>
    cases es <;> cases h <;> exact .still
  | first es =>
    cases es <;> cases h <;> exact .still
  | apply id =>
    have hmoves := s.call_moves (g := g) id k
    rw [Option.some.inj h] at hmoves
    exact hmoves
  | done v =>
    cases k with
    | nil => cases h
    | cons q k =>
      have hmoves := q.resume_moves (g := g) v s k
      rw [Option.some.inj h] at hmoves
      exact hmoves

/-! ## The rules on the stack explain the table -/

namespace Memo

variable {m m' : Memo (Cursor text)} {v w : Visit (Cursor text)}

theorem visited_iff : m.visited v = true ↔ ∃ o, m.outcome? v = some o := by
  rw [visited, Std.TreeMap.contains_eq_isSome_getElem?, Option.isSome_iff_exists]
  constructor
  · rintro ⟨e, he⟩
    exact ⟨e.outcome, by rw [outcome?, get?, he]; rfl⟩
  · rintro ⟨o, ho⟩
    obtain ⟨e, he, -⟩ := Option.map_eq_some_iff.1 ho
    exact ⟨e, he⟩

theorem Open.visited (h : m.Open v) : m.visited v = true :=
  visited_iff.2 ⟨_, h.choose_spec⟩

end Memo

/-- The visits under way are those of the rules that wait for their first
result, a match that is being grown is in the table, and no visit is on the
stack twice. -/
structure Ledger.Sound (l : Ledger text) : Prop where
  open_iff : ∀ v, l.memo.Open v ↔ .seed v ∈ l.marks
  growth : ∀ v stop best, .growth v stop best ∈ l.marks →
    l.memo.outcome? v = some (.success stop best)
  nodup : (l.marks.map Mark.visit).Nodup

/-- What is on the stack is in the table. -/
theorem Ledger.Sound.visited {l : Ledger text} (h : l.Sound) {mark : Mark text}
    (hmark : mark ∈ l.marks) : l.memo.visited mark.visit = true := by
  cases mark with
  | seed v => exact ((h.open_iff v).2 hmark).visited
  | growth v stop best => exact Memo.visited_iff.2 ⟨_, h.growth v stop best hmark⟩

section

variable {m : Memo (Cursor text)} {mark : Mark text} {ms : List (Mark text)}
  {n n' : Nat} {o : Outcome (Cursor text)}

/-- Only the topmost mark has its visit. -/
theorem Ledger.Sound.ne_of_mem (h : Ledger.Sound ⟨m, mark :: ms, n⟩)
    {mark' : Mark text} (hmark' : mark' ∈ ms) : mark'.visit ≠ mark.visit := by
  intro heq
  exact (List.nodup_cons.1 h.nodup).1 (heq ▸ List.mem_map_of_mem hmark')

/-- The topmost rule leaves the stack with an outcome. -/
theorem Ledger.Sound.settle (h : Ledger.Sound ⟨m, mark :: ms, n⟩)
    (ho : ∀ d, o ≠ .inProgress d) :
    Ledger.Sound ⟨m.setOutcome mark.visit o, ms, n'⟩ := by
  refine ⟨fun w => ?_, fun w stop best hw => ?_, (List.nodup_cons.1 h.nodup).2⟩
  · rw [Memo.open_setOutcome_iff ho, h.open_iff]
    constructor
    · rintro ⟨hne, hw⟩
      rcases List.mem_cons.1 hw with rfl | hw
      · exact absurd rfl hne
      · exact hw
    · intro hw
      exact ⟨h.ne_of_mem hw, List.mem_cons_of_mem _ hw⟩
  · exact (Memo.outcome?_setOutcome_ne m (h.ne_of_mem hw).symm _).trans
      (h.growth w stop best (List.mem_cons_of_mem _ hw))

/-- The topmost rule stays on the stack with a match that is to be grown. -/
theorem Ledger.Sound.regrow (h : Ledger.Sound ⟨m, mark :: ms, n⟩)
    (stop : Cursor text) (best : Value (Cursor text)) :
    Ledger.Sound ⟨m.setOutcome mark.visit (.success stop best),
      .growth mark.visit stop best :: ms, n'⟩ := by
  have hrest : Ledger.Sound ⟨m.setOutcome mark.visit (.success stop best), ms, n'⟩ :=
    h.settle nofun
  refine ⟨fun w => ?_, fun w stop' best' hw => ?_, h.nodup⟩
  · rw [hrest.open_iff]
    simp
  · rcases List.mem_cons.1 hw with heq | hw
    · cases heq
      exact Memo.outcome?_setOutcome_self ..
    · exact hrest.growth w stop' best' hw

end

theorem Moves.sound {l l' : Ledger text} {es : List (Event text)}
    (h : Moves g l es l') (hl : l.Sound) : l'.Sound := by
  cases h with
  | still => exact hl
  | found hlook =>
    have hsame := (Memo.outcome?_of_lookup? hlook).2
    exact ⟨fun v => hsame.open_iff.trans (hl.open_iff v),
      fun v stop best hv => (hsame v).trans (hl.growth v stop best hv), hl.nodup⟩
  | @met m ms n v e m' d hlook ho =>
    obtain ⟨hout, hsame⟩ := Memo.outcome?_of_lookup? hlook
    have hopen : m'.Open v := ⟨d, (hsame v).trans (hout.trans (congrArg some ho))⟩
    refine ⟨fun w => (Memo.open_markDetected_iff hopen).trans
      (hsame.open_iff.trans (hl.open_iff w)), fun w stop best hw => ?_, hl.nodup⟩
    -- A match that is being grown is not under way, so it is not marked here.
    have hne : v ≠ w := by
      rintro rfl
      cases (hl.growth v stop best hw).symm.trans (hout.trans (congrArg some ho))
    exact (Memo.outcome?_setOutcome_ne m' hne _).trans
      ((hsame w).trans (hl.growth w stop best hw))
  | @entered m ms n v hlook hv =>
    have hnew := Memo.not_visited_of_lookup? hlook
    have hne : ∀ mark ∈ ms, mark.visit ≠ v := by
      rintro mark hmark rfl
      cases (hl.visited hmark).symm.trans hnew
    refine ⟨fun w => ?_, fun w stop best hw => ?_, ?_⟩
    · rw [Memo.open_enter_iff, hl.open_iff]
      simp
    · have hw' : Mark.growth w stop best ∈ ms := by simpa using hw
      exact (Memo.outcome?_enter_ne m (hne _ hw').symm).trans
        (hl.growth w stop best hw')
    · refine List.nodup_cons.2 ⟨fun hmem => ?_, hl.nodup⟩
      obtain ⟨mark, hmark, heq⟩ := List.mem_map.1 hmem
      exact hne mark hmark heq
  | settled ho _ => exact hl.settle ho
  | seeded _ => exact hl.regrow _ _
  | grown _ _ => exact hl.regrow _ _
  | ended _ =>
    refine ⟨fun w => ?_, fun w stop best hw => ?_, (List.nodup_cons.1 hl.nodup).2⟩
    · rw [hl.open_iff]
      simp
    · exact hl.growth w stop best (List.mem_cons_of_mem _ hw)

/-! ## What is settled stays settled -/

def Memo.Ended (m : Memo (Cursor text)) (v : Visit (Cursor text)) : Prop :=
  m.visited v = true ∧ ¬ m.Open v

/-- An outcome can only be replaced by a longer match, of a rule that is being
grown. -/
theorem Moves.replaces {l l' : Ledger text} {es : List (Event text)}
    (h : Moves g l es l') (hl : l.Sound) {v : Visit (Cursor text)}
    {o : Outcome (Cursor text)} (hv : l.memo.outcome? v = some o)
    (ho : ∀ d, o ≠ .inProgress d) :
    l'.memo.outcome? v = some o ∨ ∃ stop best stop' best',
      o = .success stop best ∧
      l'.memo.outcome? v = some (.success stop' best') ∧
      stop.index < stop'.index ∧ .growth v stop best ∈ l.marks := by
  -- The visit is not under way, so it is not one that is about to end.
  have hclosed : ¬ l.memo.Open v := by
    rintro ⟨d, hd⟩
    exact ho d (Option.some.inj (hv.symm.trans hd))
  cases h with
  | still => exact .inl hv
  | found hlook => exact .inl (((Memo.outcome?_of_lookup? hlook).2 v).trans hv)
  | @met m ms n w e m' d hlook hout =>
    obtain ⟨hw, hsame⟩ := Memo.outcome?_of_lookup? hlook
    have hne : w ≠ v := by
      rintro rfl
      exact hclosed ⟨d, hw.trans (congrArg some hout)⟩
    exact .inl ((Memo.outcome?_setOutcome_ne m' hne _).trans ((hsame v).trans hv))
  | @entered m ms n w hlook _ =>
    have hne : w ≠ v := by
      rintro rfl
      cases (Memo.lookup?_eq_none_iff.1 hlook).symm.trans hv
    exact .inl ((Memo.outcome?_enter_ne m hne).trans hv)
  | @settled m ms n w _ _ _ _ | @seeded m ms n w _ _ _ _ =>
    have hne : w ≠ v := by
      rintro rfl
      exact hclosed ((hl.open_iff w).2 List.mem_cons_self)
    exact .inl ((Memo.outcome?_setOutcome_ne m hne _).trans hv)
  | @grown m ms n w stop best stop' best' _ hlt _ =>
    by_cases hw : w = v
    · subst hw
      have hbest := hl.growth w stop best List.mem_cons_self
      refine .inr ⟨stop, best, stop', best', Option.some.inj (hv.symm.trans hbest),
        Memo.outcome?_setOutcome_self .., hlt, List.mem_cons_self⟩
    · exact .inl ((Memo.outcome?_setOutcome_ne m hw _).trans hv)
  | ended _ => exact .inl hv

/-- The outcome of a visit that is not on the stack stays as it is. -/
theorem Moves.keeps {l l' : Ledger text} {es : List (Event text)}
    (h : Moves g l es l') (hl : l.Sound) {v : Visit (Cursor text)}
    {o : Outcome (Cursor text)} (hv : l.memo.outcome? v = some o)
    (hmarks : ∀ mark ∈ l.marks, mark.visit ≠ v) :
    l'.memo.outcome? v = some o ∧ ∀ mark ∈ l'.marks, mark.visit ≠ v := by
  have hclosed : ∀ d, o ≠ .inProgress d := by
    rintro d rfl
    exact hmarks _ ((hl.open_iff v).1 ⟨d, hv⟩) rfl
  constructor
  · rcases h.replaces hl hv hclosed with h | ⟨stop, best, _, _, _, _, _, hmark⟩
    · exact h
    · exact absurd rfl (hmarks _ hmark)
  · cases h with
    | entered hlook _ =>
      refine List.forall_mem_cons.2 ⟨?_, hmarks⟩
      rintro rfl
      cases (Memo.lookup?_eq_none_iff.1 hlook).symm.trans hv
    | seeded _ | grown _ _ =>
      exact List.forall_mem_cons.2 (List.forall_mem_cons.1 hmarks)
    | settled _ _ | ended _ => exact (List.forall_mem_cons.1 hmarks).2
    | _ => exact hmarks

end RubyIndent.Peg
