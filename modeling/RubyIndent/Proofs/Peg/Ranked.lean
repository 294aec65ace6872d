import RubyIndent.Proofs.Peg.Ledger

/-!
# Grammars without left recursion

A rule is left recursive if it can come to itself again before it has taken any
text. A grammar has no such rule if its rules can be ranked so that every rule
comes, before it takes text, only to rules of lower rank (`Grammar.Ranked`). In
such a grammar no rule is applied at a place where it is under way, and no match
is ever grown.

The proof follows the machine. While it stands at a place, the rules that wait
on the stack for a result from there have greater ranks than any rule that can
be applied next; rules that began further left do not matter. `Waits` says this
of a stack and `Config.Orderly` of a configuration, and every step keeps it.
-/

namespace RubyIndent.Peg

open RubyIndent.Text

variable {Ctx : Type} {text : List Char}

/-! ## The rules at the head of an expression -/

mutual

/-- The expression takes text whenever it matches, as far as its literals
tell. -/
def Expr.advances : Expr Ctx → Bool
  | .literal w => !w.isEmpty
  | .sequence es => anyAdvances es
  | .choice es => allAdvance es
  | .label _ e => e.advances
  | .pattern _ | .many _ | .optional _ | .not _ | .predicate _ | .rule _ => false

def anyAdvances : List (Expr Ctx) → Bool
  | [] => false
  | e :: es => e.advances || anyAdvances es

def allAdvance : List (Expr Ctx) → Bool
  | [] => true
  | e :: es => e.advances && allAdvance es

end

mutual

/-- The rules that the expression can come to before it takes text. -/
def Expr.heads : Expr Ctx → List RuleId
  | .literal _ | .pattern _ | .predicate _ => []
  | .sequence es => headsAll es
  | .choice es => headsEach es
  | .many e | .optional e | .not e | .label _ e => e.heads
  | .rule id => [id]

def headsAll : List (Expr Ctx) → List RuleId
  | [] => []
  | e :: es => e.heads ++ (if e.advances then [] else headsAll es)

def headsEach : List (Expr Ctx) → List RuleId
  | [] => []
  | e :: es => e.heads ++ headsEach es

end

/-- Every rule comes to rules of lower rank only, before it takes text. -/
def Grammar.Ranked (g : Grammar Ctx) (rank : RuleId → Nat) : Prop :=
  ∀ id rule, g.rule? id = some rule → ∀ j ∈ rule.body.heads, rank j < rank id

/-! ## Stacks -/

/-- A rule may be applied at a place: the rules that wait for their first result
from there all have greater ranks. -/
def Free (rank : RuleId → Nat) (k : List (Pending Ctx text)) (c : Cursor text)
    (id : RuleId) : Prop :=
  ∀ i, .seed (i, c) ∈ marks k → rank id < rank i

/-- Something that began at `p` ends at `c`, and if `b` then it takes text. -/
structure Passes (p c : Cursor text) (b : Bool) : Prop where
  le : p.index ≤ c.index
  lt : b = true → p.index < c.index

/-- The stack waits for something that began at a place and that takes text, if
the flag is set, whenever it matches. What the stack does next, should no text
be taken, may be done at that place. -/
inductive Waits (rank : RuleId → Nat) :
    List (Pending Ctx text) → Cursor text → Bool → Prop where
  | nil {p b} : Waits rank [] p b
  | sequence {v k b} (h : Waits rank k v.cursor b) :
    Waits rank (.sequence v :: k) v.cursor b
  | all {es k p c b b'} (hp : Passes p c b)
      (hes : b' = true ∨ ∀ id ∈ headsAll es, Free rank k c id)
      (h : Waits rank k p (b || (b' || anyAdvances es))) :
    Waits rank (.all es :: k) c b'
  | first {v es k b} (hes : ∀ id ∈ headsEach es, Free rank k v.cursor id)
      (h : Waits rank k v.cursor (b && allAdvance es)) :
    Waits rank (.first v es :: k) v.cursor b
  | many {start v e k b} (hle : start.index ≤ v.cursor.index)
      (h : Waits rank k start false) :
    Waits rank (.many start v e :: k) v.cursor b
  | optional {v k b} (h : Waits rank k v.cursor false) :
    Waits rank (.optional v :: k) v.cursor b
  | not {v k b} (h : Waits rank k v.cursor false) :
    Waits rank (.not v :: k) v.cursor b
  | label {name k p b} (h : Waits rank k p b) :
    Waits rank (.label name :: k) p b
  | seed {id rule v k b} (h : Waits rank k v.cursor false) :
    Waits rank (.seed id rule v :: k) v.cursor b

section

variable {rank : RuleId → Nat} {k : List (Pending Ctx text)}
  {p c : Cursor text} {b b' : Bool}

theorem Passes.refl (c : Cursor text) : Passes c c false :=
  ⟨Nat.le_refl _, nofun⟩

theorem Passes.of_le (h : p.index ≤ c.index) : Passes p c false :=
  ⟨h, nofun⟩

theorem Passes.weaken (h : Passes p c b) : Passes p c false :=
  ⟨h.le, nofun⟩

theorem Passes.trans {d : Cursor text} (h : Passes p c b) (h' : Passes c d b') :
    Passes p d (b || b') := by
  refine ⟨Nat.le_trans h.le h'.le, fun hb => ?_⟩
  rcases Bool.or_eq_true_iff.1 hb with hb | hb
  · exact Nat.lt_of_lt_of_le (h.lt hb) h'.le
  · exact Nat.lt_of_le_of_lt h.le (h'.lt hb)

/-- Going on by characters goes forward. -/
theorem passes_skip (n : Nat) (c : Cursor text) : Passes c (c.skip n) false := by
  have hc := c.index_add_length_rest
  have hd := (c.skip n).index_add_length_rest
  rw [rest_skip, List.length_drop] at hd
  exact ⟨by omega, nofun⟩

theorem passes_literal {w : String} {c : Cursor text}
    (h : w.toList.isPrefixOf c.rest = true) :
    Passes c (c.skip w.length) (!w.isEmpty) := by
  refine ⟨(passes_skip _ c).le, fun hw => ?_⟩
  have hlen := (List.isPrefixOf_iff_prefix.1 h).length_le
  have hpos : 0 < w.length := by
    refine Nat.pos_of_ne_zero fun hzero => ?_
    rw [String.length_eq_zero_iff.1 hzero] at hw
    cases hw
  have hc := c.index_add_length_rest
  have hd := (c.skip w.length).index_add_length_rest
  rw [String.length_toList] at hlen
  rw [rest_skip, List.length_drop] at hd
  omega

/-- More may be promised than is asked for. -/
theorem Waits.mono (h : Waits rank k p b) (hb : b = true → b' = true) :
    Waits rank k p b' := by
  induction h generalizing b' with
  | nil => exact .nil
  | sequence _ ih => exact .sequence (ih hb)
  | @all es k p c b b₁ hp hes _ ih =>
    refine .all hp (hes.imp_left hb) (ih ?_)
    simp only [Bool.or_eq_true]
    rintro (h | h | h)
    · exact .inl h
    · exact .inr (.inl (hb h))
    · exact .inr (.inr h)
  | first hes _ ih =>
    refine .first hes (ih ?_)
    simp only [Bool.and_eq_true]
    exact fun h => ⟨hb h.1, h.2⟩
  | many hle h _ => exact .many hle h
  | optional h _ => exact .optional h
  | not h _ => exact .not h
  | label _ ih => exact .label (ih hb)
  | seed h _ => exact .seed h

/-- No rule on the stack began further right. -/
theorem Waits.behind (h : Waits rank k p b) {v : Visit (Cursor text)}
    (hv : .seed v ∈ marks k) : v.2.index ≤ p.index := by
  induction h with
  | nil => cases hv
  | sequence _ ih | first _ _ ih | optional _ ih | not _ ih | label _ ih =>
    exact ih hv
  | all hp _ _ ih => exact Nat.le_trans (ih hv) hp.le
  | many hle _ ih => exact Nat.le_trans (ih hv) hle
  | @seed id rule w k _ _ ih =>
    rcases List.mem_cons.1 (show Mark.seed v ∈ .seed (id, w.cursor) :: marks k
      from hv) with heq | hv
    · cases heq
      exact Nat.le_refl _
    · exact ih hv

/-- No match on the stack is being grown. -/
theorem Waits.not_growth (h : Waits rank k p b) {v : Visit (Cursor text)}
    {stop : Cursor text} {best : Value (Cursor text)} :
    .growth v stop best ∉ marks k := by
  intro hv
  induction h with
  | nil => cases hv
  | sequence _ ih | all _ _ _ ih | first _ _ ih | many _ _ ih | optional _ ih
  | not _ ih | label _ ih => exact ih hv
  | @seed id rule w k _ _ ih =>
    rcases List.mem_cons.1 (show Mark.growth v stop best ∈
      .seed (id, w.cursor) :: marks k from hv) with heq | hv
    · cases heq
    · exact ih hv

/-- Further right every rule may be applied. -/
theorem Waits.free (h : Waits rank k p b) (hlt : p.index < c.index)
    (id : RuleId) : Free rank k c id :=
  fun _ hi => absurd (h.behind hi) (Nat.not_le_of_lt hlt)

end

/-! ## Configurations -/

def Focus.Fits (rank : RuleId → Nat) (c : Cursor text)
    (k : List (Pending Ctx text)) : Focus Ctx text → Prop
  | .expr e => (∀ id ∈ e.heads, Free rank k c id) ∧ Waits rank k c e.advances
  | .all es => (∀ id ∈ headsAll es, Free rank k c id) ∧
    ∃ p b, Passes p c b ∧ Waits rank k p (b || anyAdvances es)
  | .first es => (∀ id ∈ headsEach es, Free rank k c id) ∧
    Waits rank k c (allAdvance es)
  | .apply id => Free rank k c id ∧ Waits rank k c false
  | .done (some _) => ∃ p b, Passes p c b ∧ Waits rank k p b
  | .done none => ∃ p b, Waits rank k p b

/-- Matches in the table end where they began or further right, and no rule was
reached again at its own place. -/
structure Memo.Straight (m : Memo (Cursor text)) : Prop where
  forward : m.Forward
  undetected : m.Every fun _ o => o ≠ .inProgress true

namespace Memo.Straight

variable {m m' : Memo (Cursor text)} {v : Visit (Cursor text)}

theorem of_sameOutcomes (h : m.Straight) (hsame : m.SameOutcomes m') :
    m'.Straight :=
  ⟨h.forward.of_sameOutcomes hsame, h.undetected.of_sameOutcomes hsame⟩

theorem enter (h : m.Straight) : (m.enter v).Straight :=
  ⟨h.forward.enter trivial, h.undetected.enter nofun⟩

theorem setOutcome {o : Outcome (Cursor text)} (h : m.Straight)
    (hforward : o.OnSuccess fun stop _ => v.2.index ≤ stop.index)
    (ho : o ≠ .inProgress true) : (m.setOutcome v o).Straight :=
  ⟨h.forward.setOutcome hforward, h.undetected.setOutcome ho⟩

end Memo.Straight

/-- A configuration in which no rule is under way at a place where it could be
applied again. -/
structure Config.Orderly (rank : RuleId → Nat) (c : Config Ctx text) : Prop where
  sound : c.ledger.Sound
  straight : c.state.memo.Straight
  fits : c.focus.Fits rank c.state.cursor c.stack

variable {g : Grammar Ctx} {rank : RuleId → Nat}

/-- A rule that is applied is not under way at the same place. -/
theorem Config.Orderly.not_open {c : Config Ctx text} (h : c.Orderly rank)
    {id : RuleId} (hfocus : c.focus = .apply id) :
    ¬ c.state.memo.Open (id, c.state.cursor) := by
  intro hopen
  have hfits := h.fits
  rw [hfocus] at hfits
  exact Nat.lt_irrefl _ (hfits.1 id ((h.sound.open_iff _).1 hopen))

/-! ## Every step keeps the order -/

/-- An expression is entered where its rules may be applied. -/
theorem Expr.fits_enter (e : Expr Ctx) (s : State Ctx text)
    (k : List (Pending Ctx text)) (h : (Focus.expr e).Fits rank s.cursor k) :
    (e.enter s k).focus.Fits rank (e.enter s k).state.cursor
      (e.enter s k).stack ∧ (e.enter s k).state.memo = s.memo := by
  obtain ⟨hheads, hwaits⟩ := h
  cases e with
  | literal w =>
    simp only [Expr.enter]
    split
    · exact ⟨⟨_, _, passes_literal (by assumption), hwaits⟩, rfl⟩
    · exact ⟨⟨_, _, hwaits⟩, rfl⟩
  | pattern r =>
    simp only [Expr.enter]
    split
    · exact ⟨⟨_, _, passes_skip _ _, hwaits⟩, rfl⟩
    · exact ⟨⟨_, _, hwaits⟩, rfl⟩
  | predicate check =>
    simp only [Expr.enter]
    split
    · exact ⟨⟨_, _, .refl _, hwaits⟩, rfl⟩
    · exact ⟨⟨_, _, hwaits⟩, rfl⟩
  | sequence es =>
    exact ⟨⟨hheads, s.cursor, false, .refl _, .sequence (v := s.view) hwaits⟩, rfl⟩
  | choice es => exact ⟨⟨hheads, hwaits⟩, rfl⟩
  | many e =>
    exact ⟨⟨hheads, .many (v := s.view) (Nat.le_refl _) hwaits⟩, rfl⟩
  | optional e => exact ⟨⟨hheads, .optional (v := s.view) hwaits⟩, rfl⟩
  | not e => exact ⟨⟨hheads, .not (v := s.view) hwaits⟩, rfl⟩
  | label name e => exact ⟨⟨hheads, .label hwaits⟩, rfl⟩
  | rule id => exact ⟨⟨hheads id List.mem_cons_self, hwaits⟩, rfl⟩

/-- A rule that may be applied is found in the table or begins; it is not under
way. -/
theorem State.fits_call (hg : g.Ranked rank) {id : RuleId} {s : State Ctx text}
    {k : List (Pending Ctx text)}
    (h : Config.Orderly rank ⟨.apply id, s, k⟩) :
    (s.call g id k).2.focus.Fits rank (s.call g id k).2.state.cursor
      (s.call g id k).2.stack ∧ (s.call g id k).2.state.memo.Straight := by
  obtain ⟨hfree, hwaits⟩ := h.fits
  unfold State.call
  dsimp only
  split
  · rename_i entry memo hl
    obtain ⟨hout, hsame⟩ := Memo.outcome?_of_lookup? hl
    have hmemo := h.straight.of_sameOutcomes hsame
    split
    · rename_i d ho
      exact absurd ⟨d, hout.trans (congrArg some ho)⟩ (h.not_open rfl)
    · exact ⟨⟨_, _, hwaits⟩, by rwa [State.memo_recordFailure]⟩
    · rename_i stop value ho
      have hle := h.straight.forward _ _ (hout.trans (congrArg some ho))
      exact ⟨⟨_, _, .of_le hle, hwaits⟩, hmemo⟩
  · split
    · exact ⟨⟨_, _, hwaits⟩, h.straight⟩
    · rename_i rule hr
      refine ⟨⟨fun j hj i hi => ?_, .seed (v := s.view) hwaits⟩, h.straight.enter⟩
      have hlt := hg id rule hr j hj
      rcases List.mem_cons.1 (show Mark.seed (i, s.cursor) ∈
        .seed (id, s.cursor) :: marks k from hi) with heq | hi
      · cases heq
        exact hlt
      · exact Nat.lt_trans hlt (hfree i hi)

theorem Rule.cursor_of_close {rule : Rule Ctx} {id : RuleId} {p : View text}
    {w x : Option (Value (Cursor text))} {u t : State Ctx text}
    (h : rule.close id p w u = (x, t)) :
    (x = none ∧ t.cursor = p.cursor) ∨
      ∃ v v', w = some v ∧ x = some v' ∧ t.cursor = u.cursor := by
  cases w with
  | none =>
    cases h
    exact .inl ⟨rfl,
      congrArg View.cursor (State.view_recordFailure (u.backTo p) id p.cursor)⟩
  | some w =>
    cases h
    exact .inr ⟨_, _, rfl, rfl, rfl⟩

/-- A rule that ends was not reached again, so its match is not grown. -/
theorem Rule.fits_endSeed {rule : Rule Ctx} {id : RuleId} {p : View text}
    {w : Option (Value (Cursor text))} {s : State Ctx text}
    {k : List (Pending Ctx text)}
    (h : Config.Orderly rank ⟨.done w, s, .seed id rule p :: k⟩) :
    (rule.endSeed id p w s k).2.focus.Fits rank
        (rule.endSeed id p w s k).2.state.cursor
        (rule.endSeed id p w s k).2.stack ∧
      (rule.endSeed id p w s k).2.state.memo.Straight := by
  cases hclose : rule.close id p w s with
  | mk x t =>
    have hmemo : t.memo = s.memo := (Rule.books_of_close hclose).1
    have hstraight : t.memo.Straight := hmemo ▸ h.straight
    rcases Rule.cursor_of_close hclose with ⟨rfl, _⟩ | ⟨v, v', rfl, rfl, hcursor⟩
    · rw [Rule.endSeed_none hclose]
      refine ⟨?_, hstraight.setOutcome trivial nofun⟩
      cases w with
      | none =>
        obtain ⟨_, _, hwaits⟩ := h.fits
        cases hwaits with
        | seed hwaits => exact ⟨_, _, hwaits⟩
      | some v =>
        obtain ⟨_, _, _, hwaits⟩ := h.fits
        cases hwaits with
        | seed hwaits => exact ⟨_, _, hwaits⟩
    · have hd : t.memo.detected (id, p.cursor) = false :=
        Bool.eq_false_iff.2 fun hd =>
          hstraight.undetected _ _ (Memo.detected_eq_true_iff.1 hd) rfl
      obtain ⟨q, b, hpass, hwaits⟩ := h.fits
      cases hwaits with
      | seed hwaits =>
        rw [Rule.endSeed_some hclose hd]
        have hpass' : Passes p.cursor t.cursor false := hcursor ▸ hpass.weaken
        exact ⟨⟨_, _, hpass', hwaits⟩, hstraight.setOutcome hpass'.le nofun⟩

/-- A result is handed on to what waits for it. -/
theorem Pending.fits_resume {q : Pending Ctx text}
    {w : Option (Value (Cursor text))} {s : State Ctx text}
    {k : List (Pending Ctx text)}
    (h : Config.Orderly rank ⟨.done w, s, q :: k⟩) :
    (q.resume w s k).2.focus.Fits rank (q.resume w s k).2.state.cursor
      (q.resume w s k).2.stack ∧ (q.resume w s k).2.state.memo.Straight := by
  have hmemo := h.straight
  cases w with
  | none =>
    obtain ⟨_, _, hwaits⟩ := h.fits
    cases hwaits with
    | sequence hk | all _ _ hk => exact ⟨⟨_, _, hk⟩, hmemo⟩
    | label hk => exact ⟨⟨_, _, hk⟩, hmemo⟩
    | first hes hk =>
      exact ⟨⟨hes, hk.mono fun hb => (Bool.and_eq_true_iff.1 hb).2⟩, hmemo⟩
    | many hle hk => exact ⟨⟨_, _, .of_le hle, hk⟩, hmemo⟩
    | optional hk | not hk => exact ⟨⟨_, _, .refl _, hk⟩, hmemo⟩
    | seed hk => exact Rule.fits_endSeed h
  | some v =>
    obtain ⟨p, b, hpass, hwaits⟩ := h.fits
    cases hwaits with
    | sequence hk | label hk => exact ⟨⟨_, _, hpass, hk⟩, hmemo⟩
    | @all es k p₀ _ b₀ _ hp hes hk =>
      refine ⟨⟨fun id hid => ?_, p₀, _, hp.trans hpass, ?_⟩, hmemo⟩
      · -- Where no text was taken, the rest of the row may be met here too.
        rcases Nat.lt_or_eq_of_le hpass.le with hlt | heq
        · exact hk.free (Nat.lt_of_le_of_lt hp.le hlt) id
        · cases Cursor.ext_index heq
          exact hes.resolve_left (fun hb => Nat.lt_irrefl _ (hpass.lt hb)) id hid
      · rwa [Bool.or_assoc]
    | @first _ es k _ hes hk =>
      exact ⟨⟨_, _, ⟨hpass.le, fun hb => hpass.lt (Bool.and_eq_true_iff.1 hb).1⟩,
        hk⟩, hmemo⟩
    | @many start v e k _ hle hk =>
      simp only [Pending.resume]
      split
      · rename_i hlt
        have hfar := Nat.lt_of_le_of_lt hle hlt
        exact ⟨⟨fun id _ => hk.free hfar id,
          .many (v := s.view) (Nat.le_of_lt hfar) hk⟩, hmemo⟩
      · exact ⟨⟨_, _, .of_le (Nat.le_trans hle hpass.le), hk⟩, hmemo⟩
    | optional hk => exact ⟨⟨_, _, hpass.weaken, hk⟩, hmemo⟩
    | not hk => exact ⟨⟨_, _, hk⟩, hmemo⟩
    | seed hk => exact Rule.fits_endSeed h

/-- A step keeps the order. -/
theorem Config.Orderly.step (hg : g.Ranked rank) {c d : Config Ctx text}
    {es : List (Event text)} (h : c.Orderly rank)
    (hstep : Peg.step g c = some (es, d)) : d.Orderly rank := by
  have hsound := (step_moves hstep).sound h.sound
  suffices hfits : d.focus.Fits rank d.state.cursor d.stack ∧
      d.state.memo.Straight from ⟨hsound, hfits.2, hfits.1⟩
  obtain ⟨focus, s, k⟩ := c
  cases focus with
  | expr e =>
    obtain ⟨hfits, hmemo⟩ := e.fits_enter s k h.fits
    cases hstep
    exact ⟨hfits, hmemo ▸ h.straight⟩
  | all es =>
    obtain ⟨hheads, p, b, hpass, hwaits⟩ := h.fits
    cases es with
    | nil =>
      cases hstep
      rw [anyAdvances, Bool.or_false] at hwaits
      exact ⟨⟨p, b, hpass, hwaits⟩, h.straight⟩
    | cons e es =>
      cases hstep
      refine ⟨⟨fun id hid => hheads id (List.mem_append_left _ hid),
        .all hpass ?_ hwaits⟩, h.straight⟩
      cases hadv : e.advances with
      | true => exact .inl rfl
      | false =>
        refine .inr fun id hid => hheads id (List.mem_append_right _ ?_)
        rwa [hadv]
  | first es =>
    obtain ⟨hheads, hwaits⟩ := h.fits
    cases es with
    | nil =>
      cases hstep
      exact ⟨⟨_, _, hwaits⟩, h.straight⟩
    | cons e es =>
      cases hstep
      exact ⟨⟨fun id hid => hheads id (List.mem_append_left _ hid),
        .first (v := s.view) (fun id hid => hheads id (List.mem_append_right _ hid))
          hwaits⟩, h.straight⟩
  | apply id =>
    have hcall := State.fits_call hg h
    rw [Option.some.inj hstep] at hcall
    exact hcall
  | done w =>
    cases k with
    | nil => cases hstep
    | cons q k =>
      have hresume := Pending.fits_resume h
      rw [Option.some.inj hstep] at hresume
      exact hresume

/-- Without matches that are grown, the growth rounds stay the same. -/
theorem Config.Orderly.rounds {c d : Config Ctx text} {es : List (Event text)}
    (h : d.Orderly rank) (hstep : Peg.step g c = some (es, d)) :
    d.state.growthRounds = c.state.growthRounds := by
  have hgrowth : ∀ v stop best, .growth v stop best ∉ d.ledger.marks := by
    intro v stop best
    have hfits := h.fits
    obtain ⟨focus, s, k⟩ := d
    cases focus with
    | expr e | first es | apply id => exact hfits.2.not_growth
    | all es =>
      obtain ⟨_, _, _, _, hwaits⟩ := hfits
      exact hwaits.not_growth
    | done w =>
      cases w with
      | none =>
        obtain ⟨_, _, hwaits⟩ := hfits
        exact hwaits.not_growth
      | some v =>
        obtain ⟨_, _, _, hwaits⟩ := hfits
        exact hwaits.not_growth
  have hmoves := step_moves hstep
  change d.ledger.rounds = c.ledger.rounds
  generalize d.ledger = l' at hgrowth hmoves
  generalize c.ledger = l at hmoves
  cases hmoves with
  | seeded _ | grown _ _ => exact absurd List.mem_cons_self (hgrowth _ _ _)
  | _ => rfl

/-- A run keeps the order and the growth rounds. -/
theorem Steps.orderly (hg : g.Ranked rank) {c d : Config Ctx text}
    {log : List (Event text)} (h : Steps g c log d) (hc : c.Orderly rank) :
    d.Orderly rank ∧ d.state.growthRounds = c.state.growthRounds := by
  induction h with
  | refl => exact ⟨hc, rfl⟩
  | head hstep _ ih =>
    have hnext := hc.step hg hstep
    obtain ⟨hd, hrounds⟩ := ih hnext
    exact ⟨hd, hrounds.trans (hnext.rounds hstep)⟩

/-! ## Calls -/

/-- A state between calls: nothing is under way, and matches go forward. -/
structure State.AtRest (s : State Ctx text) : Prop where
  ended : ∀ v, ¬ s.memo.Open v
  forward : s.memo.Forward

theorem State.AtRest.orderly {s : State Ctx text} (h : s.AtRest) (id : RuleId) :
    Config.Orderly rank ⟨.apply id, s, []⟩ where
  sound := ⟨fun v => ⟨fun hv => absurd hv (h.ended v), nofun⟩, nofun, .nil⟩
  straight := by
    refine ⟨h.forward, ?_⟩
    rintro v _ hv rfl
    exact h.ended v ⟨true, hv⟩
  fits := ⟨nofun, .nil⟩

/-- Applying a rule in a grammar without left recursion leaves nothing under way
and grows nothing. -/
theorem State.AtRest.apply (hg : g.Ranked rank) {s : State Ctx text}
    (h : s.AtRest) (id : RuleId) : (s.apply g id).state.AtRest ∧
      (s.apply g id).state.growthRounds = s.growthRounds := by
  obtain ⟨log, hsteps⟩ := s.apply_steps g id
  obtain ⟨hend, hrounds⟩ := (hsteps []).orderly hg (h.orderly id)
  refine ⟨⟨fun v hv => ?_, hend.straight.forward⟩, hrounds⟩
  cases (hend.sound.open_iff v).1 hv

end RubyIndent.Peg
