import Mathlib.Algebra.GroupWithZero.Nat
import Mathlib.Data.List.Nodup
import Mathlib.Data.List.Perm.Basic
import RubyIndent.Proofs.Peg.Ledger
import RubyIndent.Proofs.Peg.Memoization

/-!
# The counters of a parse

How often rule bodies are evaluated, entries are asked for and matches are
grown, and what the table says about it. The books are kept along every run
(`Ledger.Balanced`): each body that is evaluated for the first time makes one
entry, each further evaluation is one growth round, and each time that an entry
is asked for again is one hit. `Calls` strings top-level calls together, and
`reachable_keeps_books` is what holds between them and during them.
-/

namespace RubyIndent.Peg

open RubyIndent.Text

variable {Ctx : Type} {text : List Char}

/-! ## Sums over a table -/

namespace Memo

def total (m : Memo (Cursor text)) (f : Entry (Cursor text) → Nat) : Nat :=
  (m.entries.toList.map fun p => f p.2).sum

/-- Entering something changes the sum by what is entered and what was there
before. -/
theorem total_insert (m : Memo (Cursor text)) (v : Visit (Cursor text))
    (e : Entry (Cursor text)) (n : Nat) (f : Entry (Cursor text) → Nat) :
    total ⟨m.entries.insert v e, n⟩ f + ((m.get? v).map f).getD 0
      = m.total f + f e := by
  classical
  have hinsert : ∀ e', total ⟨m.entries.insert v e', n⟩ f = f e' +
      ((m.entries.toList.filter fun p => decide ¬ (v == p.1) = true).map
        fun p => f p.2).sum := by
    intro e'
    have hperm :=
      Std.TreeMap.toList_insert_perm (t := m.entries) (k := v) (v := e')
    exact (hperm.map fun p => f p.2).sum_nat
  rw [hinsert e]
  cases hv : m.get? v with
  | none =>
    have hfilter : m.entries.toList.filter (fun p => decide ¬ (v == p.1) = true)
        = m.entries.toList := by
      refine List.filter_eq_self.2 fun p hp => decide_eq_true fun heq => ?_
      rw [beq_iff_eq] at heq
      subst heq
      cases hv.symm.trans (Std.TreeMap.mem_toList_iff_getElem?_eq_some.1 hp)
    rw [hfilter, Option.map_none, Option.getD_none, Nat.add_zero]
    exact Nat.add_comm _ _
  | some e' =>
    -- Entering what is there already changes nothing.
    have hsame : (m.entries.insert v e').Equiv m.entries := by
      refine .of_forall_constGet?_eq fun w => ?_
      by_cases hw : v = w
      · subst hw
        exact (get?_insert_self m v e' n).trans hv.symm
      · exact get?_insert_ne m hw e' n
    have hbefore := hinsert e'
    rw [total, hsame.toList_eq] at hbefore
    rw [Option.map_some, Option.getD_some, total, hbefore]
    omega

/-- Every time that an entry was asked for, after the first, is a hit. -/
structure Tallied (m : Memo (Cursor text)) : Prop where
  used : ∀ v e, m.get? v = some e → 1 ≤ e.uses
  hits : m.hits = m.total fun e => e.uses - 1

theorem tallied_empty : Tallied ({} : Memo (Cursor text)) := by
  refine ⟨fun v e h => ?_, rfl⟩
  simp [get?] at h

/-- An entry is made or replaced. -/
theorem Tallied.insert {m : Memo (Cursor text)} (h : m.Tallied)
    {v : Visit (Cursor text)} {e : Entry (Cursor text)} {n : Nat} (he : 1 ≤ e.uses)
    (hn : n + ((m.get? v).map fun e => e.uses - 1).getD 0
      = m.hits + (e.uses - 1)) : Tallied ⟨m.entries.insert v e, n⟩ := by
  constructor
  · intro w e' hw
    by_cases heq : v = w
    · subst heq
      rw [get?_insert_self] at hw
      exact Option.some.inj hw ▸ he
    · rw [get?_insert_ne m heq] at hw
      exact h.used w e' hw
  · have htotal := m.total_insert v e n fun e => e.uses - 1
    rw [← h.hits] at htotal
    exact Nat.add_right_cancel (hn.trans htotal.symm)

theorem Tallied.lookup? {m m' : Memo (Cursor text)} (h : m.Tallied)
    {v : Visit (Cursor text)} {e : Entry (Cursor text)}
    (hl : m.lookup? v = some (e, m')) : m'.Tallied := by
  obtain ⟨e', he', heq⟩ := Option.map_eq_some_iff.1 hl
  cases heq
  have hused := h.used v e' he'
  refine h.insert (Nat.le_add_left 1 _) ?_
  rw [he', Option.map_some, Option.getD_some]
  dsimp only
  omega

theorem Tallied.enter {m : Memo (Cursor text)} (h : m.Tallied)
    {v : Visit (Cursor text)} (hl : m.lookup? v = none) : (m.enter v).Tallied := by
  refine h.insert (Nat.le_refl 1) ?_
  rw [Option.map_eq_none_iff.1 hl]
  rfl

theorem visited_eq_isSome (m : Memo (Cursor text)) (v : Visit (Cursor text)) :
    m.visited v = (m.get? v).isSome :=
  Std.TreeMap.contains_eq_isSome_getElem?

theorem Tallied.setOutcome {m : Memo (Cursor text)} (h : m.Tallied)
    {v : Visit (Cursor text)} (hv : m.visited v = true)
    (o : Outcome (Cursor text)) : (m.setOutcome v o).Tallied := by
  rw [visited_eq_isSome, Option.isSome_iff_exists] at hv
  obtain ⟨e, he⟩ := hv
  unfold Memo.setOutcome
  dsimp only
  rw [he]
  refine h.insert (h.used v e he) ?_
  rw [he]
  rfl

/-! ## Sizes -/

theorem SameOutcomes.visited {m m' : Memo (Cursor text)}
    (h : m.SameOutcomes m') (w : Visit (Cursor text)) :
    m'.visited w = m.visited w := by
  rw [Bool.eq_iff_iff, visited_iff, visited_iff, h w]

theorem visited_enter_iff (m : Memo (Cursor text)) {v w : Visit (Cursor text)} :
    (m.enter v).visited w = true ↔ w = v ∨ m.visited w = true := by
  by_cases h : v = w
  · subst h
    simp [visited_enter]
  · simp [visited_iff, outcome?_enter_ne m h, Ne.symm h]

theorem visited_setOutcome {m : Memo (Cursor text)} {v : Visit (Cursor text)}
    (hv : m.visited v = true) (o : Outcome (Cursor text))
    (w : Visit (Cursor text)) : (m.setOutcome v o).visited w = m.visited w := by
  by_cases h : v = w
  · subst h
    rw [hv]
    exact extends_setOutcome m v o v hv
  · rw [Bool.eq_iff_iff, visited_iff, visited_iff, outcome?_setOutcome_ne m h]

theorem Ended.of_outcome? {m : Memo (Cursor text)} {v : Visit (Cursor text)}
    {o : Outcome (Cursor text)} (h : m.outcome? v = some o)
    (ho : ∀ d, o ≠ .inProgress d) : m.Ended v := by
  refine ⟨visited_iff.2 ⟨o, h⟩, ?_⟩
  rintro ⟨d, hd⟩
  exact ho d (Option.some.inj (h.symm.trans hd))

theorem size_insert (m : Memo (Cursor text)) (v : Visit (Cursor text))
    (e : Entry (Cursor text)) (n : Nat) :
    size ⟨m.entries.insert v e, n⟩ = if m.visited v then m.size else m.size + 1 :=
  Std.TreeMap.size_insert

theorem size_enter {m : Memo (Cursor text)} {v : Visit (Cursor text)}
    (hl : m.lookup? v = none) : (m.enter v).size = m.size + 1 := by
  rw [enter, size_insert, not_visited_of_lookup? hl]
  rfl

theorem size_setOutcome {m : Memo (Cursor text)} {v : Visit (Cursor text)}
    (hv : m.visited v = true) (o : Outcome (Cursor text)) :
    (m.setOutcome v o).size = m.size := by
  rw [setOutcome, size_insert, hv]
  rfl

theorem size_of_lookup? {m m' : Memo (Cursor text)} {v : Visit (Cursor text)}
    {e : Entry (Cursor text)} (hl : m.lookup? v = some (e, m')) :
    m'.size = m.size := by
  obtain ⟨e', he', heq⟩ := Option.map_eq_some_iff.1 hl
  cases heq
  rw [size_insert, visited_eq_isSome, he']
  rfl

end Memo

/-! ## Events -/

namespace Event

def isBody : Event text → Bool
  | .body _ _ => true
  | .action _ _ _ => false

/-- The visit whose body is evaluated, other than to grow a match. -/
def firstBody? : Event text → Option (Visit (Cursor text))
  | .body v false => some v
  | _ => none

/-- The visit whose action runs, other than to grow a match. -/
def firstAction? : Event text → Option (Visit (Cursor text))
  | .action v false _ => some v
  | _ => none

end Event

theorem Acted.bodies {v : Visit (Cursor text)} {again : Bool}
    {es : List (Event text)} (h : Acted v again es) :
    es.countP Event.isBody = 0 ∧ es.filterMap Event.firstBody? = [] := by
  rcases h with rfl | ⟨caps, rfl⟩
  · exact ⟨rfl, rfl⟩
  · exact ⟨rfl, rfl⟩

theorem Acted.again {v : Visit (Cursor text)} {es : List (Event text)}
    (h : Acted v true es) : es.filterMap Event.firstAction? = [] := by
  rcases h with rfl | ⟨caps, rfl⟩
  · rfl
  · rfl

theorem Acted.first {v : Visit (Cursor text)} {es : List (Event text)}
    (h : Acted v false es) : es.filterMap Event.firstAction? = [] ∨
      es.filterMap Event.firstAction? = [v] := by
  rcases h with rfl | ⟨caps, rfl⟩
  · exact .inl rfl
  · exact .inr rfl

/-! ## The books along a run -/

variable {g : Grammar Ctx} {l l' : Ledger text} {es : List (Event text)}

/-- Every body that is evaluated makes an entry or is a growth round. -/
theorem Moves.bodies (h : Moves g l es l') (hl : l.Sound) :
    l'.memo.size + l'.rounds
      = l.memo.size + l.rounds + es.countP Event.isBody := by
  cases h with
  | still => rfl
  | found hlook => exact congrArg (· + _) (Memo.size_of_lookup? hlook)
  | met hlook ho =>
    obtain ⟨hout, hsame⟩ := Memo.outcome?_of_lookup? hlook
    have hv := Memo.visited_iff.2 ⟨_, (hsame _).trans hout⟩
    have hsize := Memo.size_setOutcome hv (.inProgress true)
    exact congrArg (· + _) (hsize.trans (Memo.size_of_lookup? hlook))
  | @entered m ms n v hlook _ =>
    have hsize := Memo.size_enter hlook
    show (m.enter v).size + n = m.size + n + 1
    omega
  | settled _ hes =>
    have hv := hl.visited List.mem_cons_self
    rw [hes.bodies.1]
    exact congrArg (· + _) (Memo.size_setOutcome hv _)
  | @seeded m ms n v stop best es hes | @grown m ms n v _ _ stop best es _ hes =>
    have hsize : (m.setOutcome v (.success stop best)).size = m.size :=
      Memo.size_setOutcome (hl.visited List.mem_cons_self) _
    rw [List.countP_append, hes.bodies.1]
    show (m.setOutcome v (.success stop best)).size + (n + 1)
      = m.size + n + (0 + 1)
    omega
  | ended hes => rw [hes.bodies.1]; rfl

theorem Moves.tallied (h : Moves g l es l') (hl : l.Sound)
    (ht : l.memo.Tallied) : l'.memo.Tallied := by
  cases h with
  | still | ended _ => exact ht
  | found hlook => exact ht.lookup? hlook
  | met hlook _ =>
    obtain ⟨hout, hsame⟩ := Memo.outcome?_of_lookup? hlook
    have hv := Memo.visited_iff.2 ⟨_, (hsame _).trans hout⟩
    exact (ht.lookup? hlook).setOutcome hv _
  | entered hlook _ => exact ht.enter hlook
  | settled _ _ | seeded _ | grown _ _ =>
    exact ht.setOutcome (hl.visited List.mem_cons_self) _

/-- A visit gets its entry when its body is first evaluated, and keeps it. -/
theorem Moves.firstBodies (h : Moves g l es l') (hl : l.Sound) :
    (es.filterMap Event.firstBody? = [] ∧
      ∀ w, l'.memo.visited w = l.memo.visited w) ∨
    ∃ v, es.filterMap Event.firstBody? = [v] ∧ v ∈ g.visits text ∧
      l.memo.visited v = false ∧
      ∀ w, l'.memo.visited w = true ↔ w = v ∨ l.memo.visited w = true := by
  cases h with
  | still => exact .inl ⟨rfl, fun w => rfl⟩
  | found hlook => exact .inl ⟨rfl, (Memo.outcome?_of_lookup? hlook).2.visited⟩
  | met hlook _ =>
    obtain ⟨hout, hsame⟩ := Memo.outcome?_of_lookup? hlook
    have hv := Memo.visited_iff.2 ⟨_, (hsame _).trans hout⟩
    exact .inl ⟨rfl, fun w =>
      (Memo.visited_setOutcome hv _ w).trans (hsame.visited w)⟩
  | @entered m ms n v hlook hv =>
    exact .inr ⟨v, rfl, hv, Memo.not_visited_of_lookup? hlook,
      fun w => m.visited_enter_iff⟩
  | settled _ hes =>
    exact .inl ⟨hes.bodies.2,
      Memo.visited_setOutcome (hl.visited List.mem_cons_self) _⟩
  | seeded hes | grown _ hes =>
    refine .inl ⟨?_, Memo.visited_setOutcome (hl.visited List.mem_cons_self) _⟩
    rw [List.filterMap_append, hes.bodies.2]
    rfl
  | ended hes => exact .inl ⟨hes.bodies.2, fun w => rfl⟩

/-- An action runs, other than to grow a match, when its visit ends. -/
theorem Moves.firstActions (h : Moves g l es l') (hl : l.Sound) :
    es.filterMap Event.firstAction? = [] ∨
    ∃ v, es.filterMap Event.firstAction? = [v] ∧ l.memo.Open v ∧
      l'.memo.Ended v := by
  cases h with
  | still | found _ | met _ _ | entered _ _ => exact .inl rfl
  | settled ho hes =>
    rcases hes.first with hes | hes
    · exact .inl hes
    · exact .inr ⟨_, hes, (hl.open_iff _).2 List.mem_cons_self,
        .of_outcome? (Memo.outcome?_setOutcome_self ..) ho⟩
  | seeded hes =>
    rw [List.filterMap_append]
    rcases hes.first with hes | hes
    · exact .inl (by rw [hes]; rfl)
    · exact .inr ⟨_, by rw [hes]; rfl, (hl.open_iff _).2 List.mem_cons_self,
        .of_outcome? (Memo.outcome?_setOutcome_self ..) nofun⟩
  | grown _ hes =>
    rw [List.filterMap_append, hes.again]
    exact .inl rfl
  | ended hes => exact .inl hes.again

theorem Moves.ended_of_ended (h : Moves g l es l') (hl : l.Sound)
    {v : Visit (Cursor text)} (hv : l.memo.Ended v) : l'.memo.Ended v := by
  obtain ⟨o, ho⟩ := Memo.visited_iff.1 hv.1
  have hclosed : ∀ d, o ≠ .inProgress d := by
    rintro d rfl
    exact hv.2 ⟨d, ho⟩
  rcases h.replaces hl ho hclosed with ho' | ⟨_, _, _, _, _, ho', _, _⟩
  · exact .of_outcome? ho' hclosed
  · exact .of_outcome? ho' nofun

/-- What happens once for a visit, and has not happened before, has happened
once. -/
theorem nodup_filterMap_append {f : Event text → Option (Visit (Cursor text))}
    {log : List (Event text)} {v : Visit (Cursor text)}
    (hlog : (log.filterMap f).Nodup) (hes : es.filterMap f = [v])
    (hv : v ∉ log.filterMap f) : ((log ++ es).filterMap f).Nodup := by
  rw [List.filterMap_append, hes]
  exact List.nodup_append_comm.2 (List.nodup_cons.2 ⟨hv, hlog⟩)

/-- The books agree with what has happened so far. -/
structure Ledger.Balanced (g : Grammar Ctx) (log : List (Event text))
    (l : Ledger text) : Prop where
  sound : l.Sound
  tallied : l.memo.Tallied
  known : ∀ v, l.memo.visited v = true → v ∈ g.visits text
  bodies : log.countP Event.isBody = l.memo.size + l.rounds
  visited : ∀ v ∈ log.filterMap Event.firstBody?, l.memo.visited v = true
  bodies_nodup : (log.filterMap Event.firstBody?).Nodup
  ended : ∀ v ∈ log.filterMap Event.firstAction?, l.memo.Ended v
  actions_nodup : (log.filterMap Event.firstAction?).Nodup

section

variable {log : List (Event text)}

theorem Moves.visits (h : Moves g l es l') (hl : l.Balanced g log) :
    (∀ v, l'.memo.visited v = true → v ∈ g.visits text) ∧
    (∀ v ∈ (log ++ es).filterMap Event.firstBody?, l'.memo.visited v = true) ∧
    ((log ++ es).filterMap Event.firstBody?).Nodup := by
  rcases h.firstBodies hl.sound with ⟨hes, hsame⟩ | ⟨v, hes, hv, hnew, hiff⟩
  · rw [List.filterMap_append, hes, List.append_nil]
    simp only [hsame]
    exact ⟨hl.known, hl.visited, hl.bodies_nodup⟩
  · refine ⟨fun w hw => ?_, fun w hw => ?_,
      nodup_filterMap_append hl.bodies_nodup hes fun hmem => ?_⟩
    · rcases (hiff w).1 hw with rfl | hw
      · exact hv
      · exact hl.known w hw
    · rw [List.filterMap_append, hes, List.mem_append, List.mem_singleton] at hw
      exact (hiff w).2 (hw.symm.imp_right (hl.visited w))
    · cases (hl.visited v hmem).symm.trans hnew

theorem Moves.actions (h : Moves g l es l') (hl : l.Balanced g log) :
    (∀ v ∈ (log ++ es).filterMap Event.firstAction?, l'.memo.Ended v) ∧
    ((log ++ es).filterMap Event.firstAction?).Nodup := by
  have hkept : ∀ v ∈ log.filterMap Event.firstAction?, l'.memo.Ended v :=
    fun v hv => h.ended_of_ended hl.sound (hl.ended v hv)
  rcases h.firstActions hl.sound with hes | ⟨v, hes, hopen, hended⟩
  · rw [List.filterMap_append, hes, List.append_nil]
    exact ⟨hkept, hl.actions_nodup⟩
  · refine ⟨fun w hw => ?_, nodup_filterMap_append hl.actions_nodup hes
      fun hmem => (hl.ended v hmem).2 hopen⟩
    rw [List.filterMap_append, hes, List.mem_append, List.mem_singleton] at hw
    rcases hw with hw | rfl
    · exact hkept w hw
    · exact hended

/-- A step keeps the books. -/
theorem Moves.balanced (h : Moves g l es l') (hl : l.Balanced g log) :
    l'.Balanced g (log ++ es) := by
  have hbodies : (log ++ es).countP Event.isBody = l'.memo.size + l'.rounds := by
    rw [List.countP_append, hl.bodies, h.bodies hl.sound]
  obtain ⟨hknown, hvisited, honce⟩ := h.visits hl
  obtain ⟨hended, honce'⟩ := h.actions hl
  exact ⟨h.sound hl.sound, h.tallied hl.sound hl.tallied, hknown, hbodies,
    hvisited, honce, hended, honce'⟩

/-- A run keeps the books. -/
theorem Steps.balanced {c d : Config Ctx text} {before : List (Event text)}
    (h : Steps g c log d) (hc : c.ledger.Balanced g before) :
    d.ledger.Balanced g (before ++ log) := by
  induction h generalizing before with
  | refl c =>
    rw [List.append_nil]
    exact hc
  | head hstep _ ih =>
    rw [← List.append_assoc]
    exact ih ((step_moves hstep).balanced hc)

end

/-- A run leaves the outcome of a visit alone that was not on the stack. -/
theorem Steps.keeps {c d : Config Ctx text} {log : List (Event text)}
    (h : Steps g c log d) (hc : c.ledger.Sound) {v : Visit (Cursor text)}
    {o : Outcome (Cursor text)} (hv : c.state.memo.outcome? v = some o)
    (hmarks : ∀ mark ∈ marks c.stack, mark.visit ≠ v) :
    d.state.memo.outcome? v = some o := by
  induction h with
  | refl c => exact hv
  | head hstep _ ih =>
    have hmoves := step_moves hstep
    obtain ⟨hv', hmarks'⟩ := hmoves.keeps hc hv hmarks
    exact ih (hmoves.sound hc) hv' hmarks'

/-! ## Calls in a row -/

/-- Top-level calls from one state to another, with all that happens in them.
The context may be changed from outside in between. -/
inductive Calls (g : Grammar Ctx) : State Ctx text → List (Event text) →
    State Ctx text → Prop where
  | refl (s : State Ctx text) : Calls g s [] s
  | apply {s t : State Ctx text} {log log' : List (Event text)} (id : RuleId)
      (h : Calls g s log t) (hcall : Steps g ⟨.apply id, t, []⟩ log'
        ⟨.done (t.apply g id).value, (t.apply g id).state, []⟩) :
    Calls g s (log ++ log') (t.apply g id).state
  | parse {s t : State Ctx text} {log log' : List (Event text)} (root : RuleId)
      (h : Calls g s log t) (hcall : Steps g ⟨.apply root, t, []⟩ log'
        ⟨.done (t.apply g root).value, (t.apply g root).state, []⟩) :
    Calls g s (log ++ log') (t.parse g root).2
  | context {s t : State Ctx text} {log : List (Event text)} (context : Ctx)
      (h : Calls g s log t) : Calls g s log { t with context }

/-- Whatever calls can lead to, they lead to step by step. -/
theorem State.Reachable.calls {s : State Ctx text} (h : s.Reachable g) :
    ∃ context log, Calls g (.start text context) log s := by
  induction h with
  | start context => exact ⟨context, [], .refl _⟩
  | @apply s id _ ih =>
    obtain ⟨context, log, ih⟩ := ih
    obtain ⟨log', hcall⟩ := s.apply_steps g id
    exact ⟨context, _, .apply id ih (hcall [])⟩
  | @parse s root _ ih =>
    obtain ⟨context, log, ih⟩ := ih
    obtain ⟨log', hcall⟩ := s.apply_steps g root
    exact ⟨context, _, .parse root ih (hcall [])⟩
  | context c _ ih =>
    obtain ⟨context, log, ih⟩ := ih
    exact ⟨context, log, .context c ih⟩

/-- The ledger between calls. -/
def State.ledger (s : State Ctx text) : Ledger text :=
  ⟨s.memo, [], s.growthRounds⟩

theorem State.balanced_start (g : Grammar Ctx) (context : Ctx) :
    (State.start text context).ledger.Balanced g [] := by
  refine ⟨⟨fun v => ?_, nofun, .nil⟩, Memo.tallied_empty, fun v hv => ?_, rfl,
    nofun, .nil, nofun, .nil⟩
  · constructor
    · exact fun hopen => absurd hopen (Memo.not_open_empty v)
    · exact nofun
  · obtain ⟨o, ho⟩ := Memo.visited_iff.1 hv
    cases (Memo.outcome?_empty v).symm.trans ho

theorem Calls.balanced {s t : State Ctx text} {before log : List (Event text)}
    (h : Calls g s log t) (hs : s.ledger.Balanced g before) :
    t.ledger.Balanced g (before ++ log) := by
  induction h with
  | refl =>
    rw [List.append_nil]
    exact hs
  | apply id _ hcall ih =>
    rw [← List.append_assoc]
    exact hcall.balanced (c := ⟨_, _, []⟩) ih
  | parse root _ hcall ih =>
    rw [← List.append_assoc, State.parse_state]
    exact hcall.balanced (c := ⟨_, _, []⟩) ih
  | context _ _ ih => exact ih

theorem Calls.keeps {s t : State Ctx text} {before log : List (Event text)}
    (h : Calls g s log t) (hs : s.ledger.Balanced g before)
    {v : Visit (Cursor text)} {o : Outcome (Cursor text)}
    (hv : s.memo.outcome? v = some o) : t.memo.outcome? v = some o := by
  induction h with
  | refl => exact hv
  | apply id h hcall ih =>
    exact hcall.keeps (c := ⟨_, _, []⟩) (h.balanced hs).sound ih nofun
  | parse root h hcall ih =>
    rw [State.parse_state]
    exact hcall.keeps (c := ⟨_, _, []⟩) (h.balanced hs).sound ih nofun
  | context _ _ ih => exact ih

theorem Grammar.length_visits (g : Grammar Ctx) (text : List Char) :
    (g.visits text).length = g.size * (text.length + 1) := by
  simp [Grammar.visits, Cursor.all, List.length_flatMap]

theorem Memo.size_le {m : Memo (Cursor text)}
    (h : ∀ v, m.visited v = true → v ∈ g.visits text) :
    m.size ≤ g.size * (text.length + 1) := by
  have hsub : m.entries.keys ⊆ g.visits text := fun v hv =>
    h v (Std.TreeMap.mem_keys.1 hv)
  have hle := (List.subperm_of_subset Std.TreeMap.nodup_keys hsub).length_le
  rwa [Std.TreeMap.length_keys, g.length_visits] at hle

/-- What holds of the table over any number of calls. Between calls no visit is
under way. What a call finds in the table it leaves alone, and what it has entered
itself it only replaces by a longer match, while it grows that match. Every body
that was evaluated made an entry or was a growth round, so without growth each
body and each action runs once for a visit. Every request for an entry beyond its
first was a hit, and there are no more entries than rules times places. -/
theorem reachable_keeps_books {s : State Ctx text} (h : s.Reachable g) :
    (∀ v, ¬ s.memo.Open v) ∧
    (∀ log t, Calls g s log t → ∀ v o, s.memo.outcome? v = some o →
      t.memo.outcome? v = some o) ∧
    (∀ id log c, Steps g ⟨.apply id, s, []⟩ log c →
      (∀ v o, s.memo.outcome? v = some o → c.state.memo.outcome? v = some o) ∧
      ∀ es d, step g c = some (es, d) →
        ∀ v o, c.state.memo.outcome? v = some o → (∀ b, o ≠ .inProgress b) →
        d.state.memo.outcome? v = some o ∨ ∃ stop best stop' best',
          o = .success stop best ∧
          d.state.memo.outcome? v = some (.success stop' best') ∧
          stop.index < stop'.index ∧ .growth v stop best ∈ marks c.stack) ∧
    (∃ context log, Calls g (.start text context) log s) ∧
    (∀ context log, Calls g (.start text context) log s →
      log.countP Event.isBody = s.memo.size + s.growthRounds ∧
      (log.filterMap Event.firstBody?).Nodup ∧
      (log.filterMap Event.firstAction?).Nodup) ∧
    (∀ v e, s.memo.get? v = some e → 1 ≤ e.uses) ∧
    s.memo.hits = s.memo.total (fun e => e.uses - 1) ∧
    s.memo.size ≤ g.size * (text.length + 1) := by
  obtain ⟨context, log, hcalls⟩ := h.calls
  have hs : s.ledger.Balanced g log :=
    hcalls.balanced (State.balanced_start g context)
  refine ⟨fun v hv => ?_, fun log t ht v o => ht.keeps hs,
    fun id log c hc => ⟨?_, ?_⟩, ⟨context, log, hcalls⟩,
    fun context log hcalls => ?_, hs.tallied.used, hs.tallied.hits,
    Memo.size_le hs.known⟩
  · cases (hs.sound.open_iff v).1 hv
  · intro v o hv
    exact hc.keeps (c := ⟨_, _, []⟩) hs.sound hv nofun
  · intro es d hstep v o hv ho
    have hsound := (hc.balanced (c := ⟨_, _, []⟩) hs).sound
    exact (step_moves hstep).replaces hsound hv ho
  · have hs := hcalls.balanced (State.balanced_start g context)
    exact ⟨hs.bodies, hs.bodies_nodup, hs.actions_nodup⟩

/-- `chain = chain "-" one | one`, where `one` counts how often it runs. -/
def chainGrammar : Grammar Nat where
  rules := #[
    { name := "one", body := .literal "1",
      action := some fun caps => do modify (· + 1); return caps.text },
    { name := "chain", body := .choice [
        .sequence [.rule 1, .literal "-", .rule 0], .rule 0] }]

/-- On `"1-1"` the chain is grown twice, the second time in vain. Three visits are
entered, and five bodies are evaluated. -/
theorem reachable_keeps_books_chain :
    ∃ context log, Calls chainGrammar (.start ['1', '-', '1'] context) log
        ((State.start ['1', '-', '1'] 0).apply chainGrammar 1).state ∧
      log.countP Event.isBody = 5 ∧ (log.filterMap Event.firstAction?).Nodup := by
  have hs : ((State.start ['1', '-', '1'] 0).apply chainGrammar 1).state.Reachable
      chainGrammar := .apply 1 (.start 0)
  obtain ⟨_, _, _, ⟨context, log, hcalls⟩, hbooks, _⟩ := reachable_keeps_books hs
  obtain ⟨hbodies, _, hactions⟩ := hbooks context log hcalls
  refine ⟨context, log, hcalls, hbodies.trans ?_, hactions⟩
  decide +kernel

end RubyIndent.Peg
