import RubyIndent.Proofs.Peg.Counters
import RubyIndent.Proofs.Peg.Growing
import RubyIndent.Proofs.Text.Slices

/-!
# Values stand for the text that was consumed

A value that is not made by an action says from where to where it reaches, and
it is passed on by choices, labels, references, the table and the growing of
matches without being looked at. It always reaches from the place where what it
is the value of began to the cursor (`Value.Covers`). In particular its two
places are in order, which is all that is needed to slice the text between them
(`Captures.Placed.readable`).

Half way through a call values and places wait on the stack, so the invariant is
one of configurations (`Config.Placed`): the table, the bindings and what waits
are each in order with the place where they began. Every step keeps it.
-/

namespace RubyIndent.Peg

open RubyIndent.Text

variable {Ctx : Type} {text : List Char}

/-! ## Values and bindings in order -/

/-- The value is the text between two places, unless an action made it. -/
def Value.Covers (start stop : Cursor text) : Value (Cursor text) → Prop
  | .span a b => a = start ∧ b = stop
  | .text _ => True

/-- The value is some text between two places, unless an action made it. -/
def Value.Within (start stop : Cursor text) : Value (Cursor text) → Prop
  | .span a b => start.index ≤ a.index ∧ a.index ≤ b.index ∧ b.index ≤ stop.index
  | .text _ => True

theorem Value.Covers.within {start c stop : Cursor text} {v : Value (Cursor text)}
    (h : v.Covers c stop) (hstart : start.index ≤ c.index)
    (hstop : c.index ≤ stop.index) : v.Within start stop := by
  cases v with
  | text s => trivial
  | span a b =>
    obtain ⟨rfl, rfl⟩ := h
    exact ⟨hstart, hstop, Nat.le_refl _⟩

theorem Value.Within.mono {start stop stop' : Cursor text}
    {v : Value (Cursor text)} (h : v.Within start stop)
    (hle : stop.index ≤ stop'.index) : v.Within start stop' := by
  cases v with
  | text s => trivial
  | span a b => exact ⟨h.1, h.2.1, Nat.le_trans h.2.2 hle⟩

/-- What a rule has matched and bound so far lies between its start and the
cursor. -/
structure Captures.Placed (caps : Captures) : Prop where
  start_le : caps.start.index ≤ caps.stop.index
  labels : ∀ b ∈ caps.labels, b.2.Within caps.start caps.stop

/-- Every match in the table reaches from its place to its end. -/
def Memo.Exact (m : Memo (Cursor text)) : Prop :=
  m.Every fun v o => o.OnSuccess fun stop value =>
    v.2.index ≤ stop.index ∧ value.Covers v.2 stop

/-! ## What can be sliced -/

/-- The text of a value, sliced out of the input by its byte offsets. -/
def Value.text? : Value (Cursor text) → Option (List Char)
  | .span a b => slice? text a.offset b.offset
  | .text s => some s.toList

theorem Value.Within.text?_eq {start stop : Cursor text} {v : Value (Cursor text)}
    (h : v.Within start stop) : v.text? = some v.toString.toList := by
  cases v with
  | text s => rfl
  | span a b => simp [Value.text?, Value.toString, Cursor.slice?_offset, h.2.1]

/-- All that an action or a predicate can ask for can be sliced out of the
input: the text of the match, and that of every value that is bound. -/
structure Captures.Readable (caps : Captures) : Prop where
  text : slice? caps.input caps.start.offset caps.stop.offset
    = some caps.text.toList
  get? : ∀ name v, caps.labels.lookup name = some v →
    v.text? = (caps.get? name).map String.toList ∧ v.text?.isSome = true

theorem Captures.Placed.readable {caps : Captures} (h : caps.Placed) :
    caps.Readable := by
  constructor
  · simp [Cursor.slice?_offset, h.start_le, Captures.text]
  · intro name v hv
    have hmem : ∃ n, (n, v) ∈ caps.labels := by
      obtain ⟨l, r, heq, -⟩ := List.lookup_eq_some_iff.1 hv
      exact ⟨name, heq ▸ List.mem_append_right l List.mem_cons_self⟩
    obtain ⟨n, hmem⟩ := hmem
    have htext := (h.labels _ hmem).text?_eq
    simp [Captures.get?, hv, htext]

/-! ## What waits on the stack -/

/-- A view to go back to, in a rule that began at `f`. -/
def View.Saved (p : View text) (f : Cursor text) : Prop :=
  p.captures.Placed ∧ p.frame.start = f

/-- The stack can take a value that reaches from `c` to the cursor, in a rule that
began at `f`, and in the end hands on one that reaches from `origin`. -/
def Awaits (origin : Cursor text) :
    List (Pending Ctx text) → Cursor text → Cursor text → Prop
  | [], c, _ => c = origin
  | .sequence p :: k, c, f =>
    p.Saved f ∧ p.cursor.index ≤ c.index ∧ Awaits origin k p.cursor f
  -- The values in a row are dropped, so where an item began does not matter.
  | .all _ :: k, c, f => ∀ d : Cursor text, c.index ≤ d.index → Awaits origin k d f
  | .first p _ :: k, c, f | .optional p :: k, c, f | .not p :: k, c, f =>
    p.Saved f ∧ p.cursor = c ∧ Awaits origin k c f
  | .many start p _ :: k, c, f =>
    p.Saved f ∧ p.cursor = c ∧ start.index ≤ c.index ∧ Awaits origin k start f
  | .label _ :: k, c, f => f.index ≤ c.index ∧ Awaits origin k c f
  | .seed _ _ p :: k, c, f =>
    p.captures.Placed ∧ p.cursor = c ∧ f = c ∧ Awaits origin k c p.frame.start
  | .grow _ _ p stop best :: k, c, f =>
    p.captures.Placed ∧ p.cursor = c ∧ f = c ∧ c.index ≤ stop.index ∧
      best.Covers c stop ∧ Awaits origin k c p.frame.start

/-- What is at hand is what the stack waits for. -/
def Config.Fits (origin : Cursor text) (c : Config Ctx text) : Prop :=
  match c.focus with
  | .expr _ | .first _ | .apply _ =>
    Awaits origin c.stack c.state.cursor c.state.frame.start
  | .all _ => ∀ d : Cursor text, c.state.cursor.index ≤ d.index →
    Awaits origin c.stack d c.state.frame.start
  | .done none => ∃ d, Awaits origin c.stack d c.state.frame.start
  | .done (some v) => ∃ d : Cursor text, d.index ≤ c.state.cursor.index ∧
    v.Covers d c.state.cursor ∧ Awaits origin c.stack d c.state.frame.start

structure Config.Placed (origin : Cursor text) (c : Config Ctx text) : Prop where
  memo : c.state.memo.Exact
  captures : c.state.captures.Placed
  fits : c.Fits origin

structure State.Placed (s : State Ctx text) : Prop where
  memo : s.memo.Exact
  captures : s.captures.Placed

/-- A step that leaves all in order; the action that it runs, if any, sees a match
and bindings in order. -/
structure KeepsOrder (origin : Cursor text)
    (r : List (Event text) × Config Ctx text) : Prop where
  captures : ∀ v again caps, .action v again caps ∈ r.1 →
    caps.input = text ∧ caps.Placed
  placed : r.2.Placed origin

/-- A step in which nothing runs. -/
theorem KeepsOrder.silent {origin : Cursor text} {d : Config Ctx text}
    (h : d.Placed origin) : KeepsOrder origin ([], d) where
  captures := by
    intro v again caps hmem
    cases hmem
  placed := h

namespace State

variable {s : State Ctx text} {c : Cursor text}

/-- Bindings that were in order are so further right. -/
theorem captures_of_frame {p : View text} (hp : p.captures.Placed)
    (hframe : s.frame = p.frame) (hle : p.cursor.index ≤ s.cursor.index) :
    s.captures.Placed := by
  obtain ⟨hstart, hlabels⟩ := hp
  constructor
  · show s.frame.start.index ≤ s.cursor.index
    rw [hframe]
    exact Nat.le_trans hstart hle
  · show ∀ b ∈ s.frame.labels, b.2.Within s.frame.start s.cursor
    rw [hframe]
    intro b hb
    exact (hlabels b hb).mono hle

theorem captures_moveTo (h : s.captures.Placed) (hle : s.cursor.index ≤ c.index) :
    { s with cursor := c }.captures.Placed :=
  captures_of_frame (p := s.view) h rfl hle

theorem captures_bindLabel {name : String} {v : Value (Cursor text)}
    (h : s.captures.Placed) (hv : v.Within s.frame.start s.cursor) :
    (s.bindLabel name v).captures.Placed := by
  refine ⟨h.start_le, ?_⟩
  intro b hb
  rcases List.mem_cons.1 hb with rfl | hb
  · exact hv
  · exact h.labels b hb

/-- A rule that starts at the cursor has nothing bound. -/
theorem captures_opened (s : State Ctx text) : s.opened.captures.Placed :=
  ⟨Nat.le_refl _, List.forall_mem_nil _⟩

@[simp] theorem cursor_recordFailure (s : State Ctx text) (id : RuleId)
    (c : Cursor text) : (s.recordFailure id c).cursor = s.cursor :=
  congrArg View.cursor (s.view_recordFailure id c)

end State

/-! ## Every step keeps the order -/

section

variable {g : Grammar Ctx} {origin : Cursor text} {s u : State Ctx text}
  {k : List (Pending Ctx text)} {id : RuleId} {rule : Rule Ctx} {p : View text}
  {w : Option (Value (Cursor text))}

/-- The text from the cursor to a place behind it matches. -/
theorem State.placed_accept {stop : Cursor text} (hm : s.memo.Exact)
    (hs : s.captures.Placed) (hle : s.cursor.index ≤ stop.index)
    (hk : Awaits origin k s.cursor s.frame.start) :
    ((s.accept stop).config k).Placed origin :=
  ⟨hm, State.captures_moveTo hs hle, s.cursor, hle, ⟨rfl, rfl⟩, hk⟩

theorem State.placed_refuse (hm : s.memo.Exact) (hs : s.captures.Placed)
    (hk : Awaits origin k s.cursor s.frame.start) :
    (s.refuse.config k).Placed origin :=
  ⟨hm, hs, s.cursor, hk⟩

theorem Expr.placed_enter (e : Expr Ctx) (hm : s.memo.Exact)
    (hs : s.captures.Placed) (hk : Awaits origin k s.cursor s.frame.start) :
    (e.enter s k).Placed origin := by
  have hsaved : s.view.Saved s.frame.start := ⟨hs, rfl⟩
  cases e with
  | literal w =>
    simp only [Expr.enter]
    split
    · exact s.placed_accept hm hs (index_le_skip ..) hk
    · exact s.placed_refuse hm hs hk
  | pattern r =>
    simp only [Expr.enter]
    split
    · exact s.placed_accept hm hs (index_le_skip ..) hk
    · exact s.placed_refuse hm hs hk
  | predicate check =>
    simp only [Expr.enter]
    split
    · exact s.placed_accept hm hs (Nat.le_refl _) hk
    · exact s.placed_refuse hm hs hk
  | sequence es => exact ⟨hm, hs, fun d hd => ⟨hsaved, hd, hk⟩⟩
  | choice es => exact ⟨hm, hs, hk⟩
  | many e => exact ⟨hm, hs, hsaved, rfl, Nat.le_refl _, hk⟩
  | optional e => exact ⟨hm, hs, hsaved, rfl, hk⟩
  | not e => exact ⟨hm, hs, hsaved, rfl, hk⟩
  | label name e => exact ⟨hm, hs, hs.start_le, hk⟩
  | rule id => exact ⟨hm, hs, hk⟩

theorem State.call_keepsOrder (id : RuleId) (hm : s.memo.Exact)
    (hs : s.captures.Placed) (hk : Awaits origin k s.cursor s.frame.start) :
    KeepsOrder origin (s.call g id k) := by
  unfold State.call
  dsimp only
  split
  · rename_i entry memo hl
    obtain ⟨hout, hsame⟩ := Memo.outcome?_of_lookup? hl
    have hm' : memo.Exact := hm.of_sameOutcomes hsame
    split
    · exact .silent ⟨hm'.setOutcome trivial, hs, s.cursor, hk⟩
    · have hview := State.view_recordFailure { s with memo } id s.cursor
      refine .silent ⟨?_, ?_, s.cursor, ?_⟩
      · simpa using hm'
      · exact State.captures_of_frame (p := s.view) hs (congrArg View.frame hview)
          (Nat.le_of_eq (congrArg (fun p => p.cursor.index) hview).symm)
      · simpa using hk
    · rename_i stop v ho
      obtain ⟨hle, hv⟩ := hm (id, s.cursor) _ (hout.trans (congrArg some ho))
      exact .silent ⟨hm', State.captures_moveTo hs hle, s.cursor, hle, hv, hk⟩
  · split
    · exact .silent (s.placed_refuse hm hs hk)
    · refine ⟨?_, hm.enter trivial, (s.entered id).captures_opened, hs, rfl, rfl, hk⟩
      intro v again caps hmem
      cases List.mem_singleton.1 hmem

/-- The action at the end of a rule sees what its body has matched and bound. -/
theorem Rule.acts_placed (rule : Rule Ctx) (v : Visit (Cursor text))
    (again : Bool) (hu : u.captures.Placed) :
    ∀ v' again' caps, .action v' again' caps ∈ rule.acts v again w u →
      caps.input = text ∧ caps.Placed := by
  intro v' again' caps h
  unfold Rule.acts at h
  split at h
  · cases List.mem_singleton.1 h
    exact ⟨rfl, hu⟩
  · cases h

/-- A value of a rule covers what the value of its body covered. -/
theorem Rule.conclude_covers (rule : Rule Ctx) {start stop : Cursor text}
    {v : Value (Cursor text)} (hv : v.Covers start stop) :
    (rule.conclude v u).1.Covers start stop := by
  unfold Rule.conclude
  split
  · exact hv
  · trivial

/-- The end of a rule: it is as far as its body, or back at its start. -/
theorem Rule.of_close {x : Option (Value (Cursor text))} {t : State Ctx text}
    (h : rule.close id p w u = (x, t)) :
    t.memo = u.memo ∧ t.frame = p.frame ∧
      (w = none ∧ x = none ∧ t.cursor = p.cursor ∨
        ∃ v, w = some v ∧ x = some (rule.conclude v u).1 ∧ t.cursor = u.cursor) := by
  refine ⟨(Rule.books_of_close h).1, Rule.frame_of_close h, ?_⟩
  cases w with
  | none =>
    cases h
    exact .inl ⟨rfl, rfl, State.cursor_recordFailure ..⟩
  | some v =>
    cases h
    exact .inr ⟨v, rfl, rfl, rfl⟩

/-- The next attempt to grow a match starts in order. -/
theorem Rule.placed_regrow (rule : Rule Ctx) (id : RuleId) {t : State Ctx text}
    {best : Value (Cursor text)} (hm : t.memo.Exact) (hp : p.captures.Placed)
    (hle : p.cursor.index ≤ t.cursor.index) (hbest : best.Covers p.cursor t.cursor)
    (hk : Awaits origin k p.cursor p.frame.start) :
    (rule.regrow id p best t k).Placed origin :=
  ⟨hm.setOutcome ⟨hle, hbest⟩, State.captures_opened _, hp,
    rfl, rfl, hle, hbest, hk⟩

/-- What happens in a row is in order if its parts are. -/
theorem KeepsOrder.after_acts {es : List (Event text)} {v : Visit (Cursor text)}
    {d : Config Ctx text}
    (hes : ∀ v again caps, .action v again caps ∈ es →
      caps.input = text ∧ caps.Placed)
    (hd : d.Placed origin) : KeepsOrder origin (es ++ [.body v true], d) := by
  refine ⟨?_, hd⟩
  intro v' again caps h
  rcases List.mem_append.1 h with h | h
  · exact hes v' again caps h
  · cases List.mem_singleton.1 h

theorem Rule.endSeed_keepsOrder (hm : u.memo.Exact) (hu : u.captures.Placed)
    (hfits : Config.Fits origin ⟨.done w, u, .seed id rule p :: k⟩) :
    KeepsOrder origin (rule.endSeed id p w u k) := by
  have hacts := rule.acts_placed (w := w) (id, p.cursor) false hu
  cases hclose : rule.close id p w u with
  | mk x t =>
    obtain ⟨hmemo, hframe, hcases⟩ := Rule.of_close hclose
    rw [← hmemo] at hm
    rcases hcases with ⟨rfl, rfl, hcursor⟩ | ⟨v, rfl, rfl, hcursor⟩
    · obtain ⟨c, hp, rfl, -, hk⟩ := hfits
      rw [Rule.endSeed_none hclose]
      exact ⟨hacts, hm.setOutcome trivial, State.captures_of_frame hp hframe
        (Nat.le_of_eq (congrArg Cursor.index hcursor).symm), p.cursor,
        hframe.symm ▸ hk⟩
    · obtain ⟨c, hle, hv, hp, rfl, -, hk⟩ := hfits
      have hcover := rule.conclude_covers (u := u) hv
      have hle : p.cursor.index ≤ u.cursor.index := hle
      rw [← hcursor] at hle hcover
      cases hd : t.memo.detected (id, p.cursor) with
      | false =>
        rw [Rule.endSeed_some hclose hd]
        exact ⟨hacts, hm.setOutcome ⟨hle, hcover⟩,
          State.captures_of_frame hp hframe hle, p.cursor, hle, hcover,
          hframe.symm ▸ hk⟩
      | true =>
        rw [Rule.endSeed_grown hclose hd]
        exact .after_acts hacts (rule.placed_regrow id hm hp hle hcover hk)

theorem Rule.endGrow_keepsOrder {stop : Cursor text} {best : Value (Cursor text)}
    (hm : u.memo.Exact) (hu : u.captures.Placed)
    (hfits : Config.Fits origin ⟨.done w, u, .grow id rule p stop best :: k⟩) :
    KeepsOrder origin (rule.endGrow id p stop best w u k) := by
  have hacts := rule.acts_placed (w := w) (id, p.cursor) true hu
  cases hclose : rule.close id p w u with
  | mk x t =>
    obtain ⟨hmemo, hframe, hcases⟩ := Rule.of_close hclose
    rw [← hmemo] at hm
    -- If the attempt is in vain, the best match so far is the result.
    have hback (hp : p.captures.Placed) (hle : p.cursor.index ≤ stop.index)
        (hbest : best.Covers p.cursor stop)
        (hk : Awaits origin k p.cursor p.frame.start) :
        Config.Placed origin ⟨.done (some best), { t with cursor := stop }, k⟩ :=
      ⟨hm, State.captures_of_frame hp hframe hle, p.cursor, hle, hbest,
        hframe.symm ▸ hk⟩
    rcases hcases with ⟨rfl, rfl, -⟩ | ⟨v, rfl, rfl, hcursor⟩
    · obtain ⟨c, hp, rfl, -, hle, hbest, hk⟩ := hfits
      rw [Rule.endGrow_none hclose]
      exact ⟨hacts, hback hp hle hbest hk⟩
    · obtain ⟨c, hle', hv, hp, rfl, -, hle, hbest, hk⟩ := hfits
      have hcover := rule.conclude_covers (u := u) hv
      have hle' : p.cursor.index ≤ u.cursor.index := hle'
      rw [← hcursor] at hle' hcover
      by_cases hlt : stop.index < t.cursor.index
      · rw [Rule.endGrow_more hclose hlt]
        exact .after_acts hacts (rule.placed_regrow id hm hp hle' hcover hk)
      · rw [Rule.endGrow_idle hclose hlt]
        exact ⟨hacts, hback hp hle hbest hk⟩

theorem Pending.resume_keepsOrder (q : Pending Ctx text) (hm : s.memo.Exact)
    (hs : s.captures.Placed) (hfits : Config.Fits origin ⟨.done w, s, q :: k⟩) :
    KeepsOrder origin (q.resume w s k) := by
  cases q with
  | seed id rule p => exact rule.endSeed_keepsOrder hm hs hfits
  | grow id rule p stop best => exact rule.endGrow_keepsOrder hm hs hfits
  | sequence p =>
    cases w with
    | none =>
      obtain ⟨c, ⟨hp, hf⟩, -, hk⟩ := hfits
      exact .silent ⟨hm, hp, p.cursor, hf ▸ hk⟩
    | some v =>
      obtain ⟨c, hle, -, -, hle', hk⟩ := hfits
      exact .silent ⟨hm, hs, p.cursor, Nat.le_trans hle' hle, ⟨rfl, rfl⟩, hk⟩
  | all es =>
    cases w with
    | none =>
      obtain ⟨c, hk⟩ := hfits
      exact .silent ⟨hm, hs, c, hk c (Nat.le_refl _)⟩
    | some v =>
      obtain ⟨c, hle, -, hk⟩ := hfits
      exact .silent ⟨hm, hs, fun d hd => hk d (Nat.le_trans hle hd)⟩
  | first p es =>
    cases w with
    | none =>
      obtain ⟨c, ⟨hp, hf⟩, rfl, hk⟩ := hfits
      have hk : Awaits origin k p.cursor p.frame.start := hf ▸ hk
      exact .silent ⟨hm, hp, hk⟩
    | some v =>
      obtain ⟨c, hle, hv, -, -, hk⟩ := hfits
      exact .silent ⟨hm, hs, c, hle, hv, hk⟩
  | many start p e =>
    cases w with
    | none =>
      obtain ⟨c, ⟨hp, hf⟩, rfl, hle, hk⟩ := hfits
      exact .silent ⟨hm, hp, start, hle, ⟨rfl, rfl⟩, hf ▸ hk⟩
    | some v =>
      obtain ⟨c, hle, -, -, rfl, hle', hk⟩ := hfits
      have hstart := Nat.le_trans hle' hle
      simp only [Pending.resume]
      split
      · exact .silent ⟨hm, hs, ⟨hs, rfl⟩, rfl, hstart, hk⟩
      · exact .silent ⟨hm, hs, start, hstart, ⟨rfl, rfl⟩, hk⟩
  | optional p =>
    cases w with
    | none =>
      obtain ⟨c, ⟨hp, hf⟩, rfl, hk⟩ := hfits
      exact .silent ⟨hm, hp, p.cursor, Nat.le_refl _, ⟨rfl, rfl⟩, hf ▸ hk⟩
    | some v =>
      obtain ⟨c, hle, -, -, rfl, hk⟩ := hfits
      exact .silent ⟨hm, hs, p.cursor, hle, ⟨rfl, rfl⟩, hk⟩
  | not p =>
    cases w with
    | none =>
      obtain ⟨c, ⟨hp, hf⟩, rfl, hk⟩ := hfits
      exact .silent ⟨hm, hp, p.cursor, Nat.le_refl _, ⟨rfl, rfl⟩, hf ▸ hk⟩
    | some v =>
      obtain ⟨c, -, -, ⟨hp, hf⟩, rfl, hk⟩ := hfits
      exact .silent ⟨hm, hp, p.cursor, hf ▸ hk⟩
  | label name =>
    cases w with
    | none =>
      obtain ⟨c, -, hk⟩ := hfits
      exact .silent ⟨hm, hs, c, hk⟩
    | some v =>
      obtain ⟨c, hle, hv, hle', hk⟩ := hfits
      exact .silent ⟨hm, State.captures_bindLabel hs (hv.within hle' hle), c, hle,
        hv, hk⟩

/-- Every step keeps the order. -/
theorem step_keepsOrder {c d : Config Ctx text} {es : List (Event text)}
    (h : step g c = some (es, d)) (hc : c.Placed origin) :
    KeepsOrder origin (es, d) := by
  obtain ⟨focus, s, k⟩ := c
  obtain ⟨hm, hs, hfits⟩ := hc
  cases focus with
  | expr e =>
    cases h
    exact .silent (e.placed_enter hm hs hfits)
  | all es =>
    cases es <;> cases h
    · exact .silent ⟨hm, State.captures_moveTo hs (Nat.le_refl _), s.cursor,
        Nat.le_refl _, ⟨rfl, rfl⟩, hfits s.cursor (Nat.le_refl _)⟩
    · exact .silent ⟨hm, hs, hfits⟩
  | first es =>
    cases es <;> cases h
    · exact .silent (s.placed_refuse hm hs hfits)
    · exact .silent ⟨hm, hs, ⟨hs, rfl⟩, rfl, hfits⟩
  | apply id =>
    have hcall := s.call_keepsOrder (g := g) id hm hs hfits
    rwa [Option.some.inj h] at hcall
  | done v =>
    cases k with
    | nil => cases h
    | cons q k =>
      have hresume := q.resume_keepsOrder hm hs hfits
      rwa [Option.some.inj h] at hresume

/-- A run keeps the order, and every action in it sees a match and bindings in
order. -/
theorem Steps.keepsOrder {c d : Config Ctx text} {log : List (Event text)}
    (h : Steps g c log d) (hc : c.Placed origin) : KeepsOrder origin (log, d) := by
  induction h with
  | refl c => exact .silent hc
  | head hstep _ ih =>
    have hfirst := step_keepsOrder hstep hc
    have hrest := ih hfirst.placed
    refine ⟨?_, hrest.placed⟩
    intro v again caps h
    rcases List.mem_append.1 h with h | h
    · exact hfirst.captures v again caps h
    · exact hrest.captures v again caps h

end

/-! ## Between calls and during them -/

variable {g : Grammar Ctx} {s : State Ctx text} {id : RuleId}

/-- Anything that is started without a stack starts in order. -/
theorem State.Placed.start (h : s.Placed) {f : Focus Ctx text}
    (hf : (∃ e, f = .expr e) ∨ ∃ id, f = .apply id) :
    Config.Placed s.cursor ⟨f, s, []⟩ := by
  refine ⟨h.memo, h.captures, ?_⟩
  rcases hf with ⟨e, rfl⟩ | ⟨id, rfl⟩
  · exact rfl
  · exact rfl

/-- The end of something that was started without a stack. -/
theorem Config.Placed.done {origin : Cursor text} {t : State Ctx text}
    {w : Option (Value (Cursor text))} (h : Config.Placed origin ⟨.done w, t, []⟩) :
    t.Placed ∧ ∀ v, w = some v → origin.index ≤ t.cursor.index ∧
      v.Covers origin t.cursor := by
  refine ⟨⟨h.memo, h.captures⟩, ?_⟩
  rintro v rfl
  obtain ⟨c, hle, hv, rfl⟩ := h.fits
  exact ⟨hle, hv⟩

theorem State.Placed.apply (h : s.Placed) (g : Grammar Ctx) (id : RuleId) :
    (s.apply g id).state.Placed ∧ ∀ v, (s.apply g id).value = some v →
      s.cursor.index ≤ (s.apply g id).state.cursor.index ∧
      v.Covers s.cursor (s.apply g id).state.cursor := by
  obtain ⟨log, hsteps⟩ := s.apply_steps g id
  have hstart := h.start (f := .apply id) (.inr ⟨id, rfl⟩)
  exact ((hsteps []).keepsOrder hstart).placed.done

theorem State.Placed.eval (h : s.Placed) (g : Grammar Ctx) (e : Expr Ctx) :
    ∀ v, (s.eval g e).value = some v →
      s.cursor.index ≤ (s.eval g e).state.cursor.index ∧
      v.Covers s.cursor (s.eval g e).state.cursor := by
  obtain ⟨log, hperforms, -⟩ :=
    (s.eval_evaluates g e).performs g.closed_true e.within_true
  have hstart := h.start (f := .expr e) (.inl ⟨e, rfl⟩)
  exact ((hperforms.runs []).keepsOrder hstart).placed.done.2

theorem State.Reachable.placed (h : s.Reachable g) : s.Placed := by
  induction h with
  | start context =>
    exact ⟨Memo.Every.empty, Nat.le_refl _, List.forall_mem_nil _⟩
  | apply id _ ih => exact (ih.apply g id).1
  | parse root _ ih =>
    rw [State.parse_state]
    exact (ih.apply g root).1
  | context c _ ih => exact ⟨ih.memo, ih.captures⟩

/-- All places that a state holds are good ones, and everything that can be asked
for is there: the text behind the cursor, the text of each match in the table, and
what a predicate or an action reads. -/
structure State.Sliceable (s : State Ctx text) : Prop where
  cursor : IsBoundary text s.cursor.offset ∧ s.cursor.offset ≤ byteLength text
  rest : slice? text s.cursor.offset (byteLength text) = some s.cursor.rest
  memo : ∀ id c stop v, s.memo.outcome? (id, c) = some (.success stop v) →
    IsBoundary text stop.offset ∧ c.offset ≤ stop.offset ∧
      stop.offset ≤ byteLength text ∧ v.Covers c stop ∧ v.text?.isSome = true
  captures : s.captures.Readable

/-- What is matched, if anything, is the text that was taken. -/
def Step.Exact (r : Step s) : Prop :=
  ∀ v, r.value = some v → s.cursor.offset ≤ r.state.cursor.offset ∧
    v.Covers s.cursor r.state.cursor ∧ v.text?.isSome = true

theorem Value.Covers.isSome_text? {start stop : Cursor text}
    {v : Value (Cursor text)} (h : v.Covers start stop)
    (hle : start.index ≤ stop.index) : v.text?.isSome = true := by
  rw [(h.within (Nat.le_refl _) hle).text?_eq]
  rfl

theorem State.Placed.sliceable (h : s.Placed) : s.Sliceable where
  cursor := ⟨s.cursor.isBoundary_offset, s.cursor.isBoundary_offset.le⟩
  rest := s.cursor.slice?_offset_end
  memo := by
    intro id c stop v hv
    obtain ⟨hle, hcovers⟩ := h.memo (id, c) _ hv
    exact ⟨stop.isBoundary_offset, Cursor.offset_le_offset_iff.2 hle,
      stop.isBoundary_offset.le, hcovers, hcovers.isSome_text? hle⟩
  captures := h.captures.readable

theorem Step.exact_of_covers {r : Step s}
    (h : ∀ v, r.value = some v → s.cursor.index ≤ r.state.cursor.index ∧
      v.Covers s.cursor r.state.cursor) : r.Exact := by
  intro v hv
  obtain ⟨hle, hcovers⟩ := h v hv
  exact ⟨Cursor.offset_le_offset_iff.2 hle, hcovers, hcovers.isSome_text? hle⟩

theorem offset_skip (n : Nat) (c : Cursor text) :
    (c.skip n).offset = c.offset + byteLength (c.rest.take n) := by
  have hle := index_le_skip n c
  have htaken : c.upTo (c.skip n) = c.rest.take n := by
    have hc := c.index_add_length_rest
    have hd := (c.skip n).index_add_length_rest
    rw [rest_skip, List.length_drop] at hd
    have hindex : (c.skip n).index - c.index = min n c.rest.length := by omega
    rw [Cursor.upTo, hindex, ← List.take_take, List.take_length]
  rw [← htaken, Cursor.offset_add_byteLength_upTo hle]

/-- A literal that matches moves the cursor by its length in bytes. -/
theorem State.offset_eval_literal {w : String}
    (h : (s.eval g (.literal w)).value.isSome = true) :
    (s.eval g (.literal w)).state.cursor.offset
      = s.cursor.offset + byteLength w.toList := by
  unfold State.eval Expr.eval at h ⊢
  split at h
  · rename_i hw
    rw [if_pos hw]
    have hprefix := List.isPrefixOf_iff_prefix.1 hw
    have htake := List.prefix_iff_eq_take.1 hprefix
    rw [State.accept, offset_skip, ← String.length_toList, ← htake]
  · cases h

/-- A pattern that matches moves the cursor by the length of its match in bytes. -/
theorem State.offset_eval_pattern {p : Pattern} {n : Nat}
    (h : p.regex.matchLength? s.cursor.rest = some n) :
    (s.eval g (.pattern p)).state.cursor.offset
      = s.cursor.offset + byteLength (s.cursor.rest.take n) := by
  unfold State.eval Expr.eval
  rw [h]
  exact offset_skip n s.cursor

/-- All places are good, between calls and at every moment of a call. The cursor
and the end of each match in the table are boundaries within the text, a match
that was not made by an action is the text that was taken, from where it began to
where it ends, and whatever is sliced out of the text is there: the rest of the
text that a literal or a pattern is compared with, and the match and the bindings
that an action or a predicate reads. -/
theorem reachable_sliceable (h : s.Reachable g) :
    s.Sliceable ∧ ∀ id, (s.apply g id).Exact ∧
      ∀ log c, Steps g ⟨.apply id, s, []⟩ log c → c.state.Sliceable ∧
        (∀ e, (c.state.eval g e).Exact) ∧
        (∀ w, (c.state.eval g (.literal w)).value.isSome = true →
          (c.state.eval g (.literal w)).state.cursor.offset
            = c.state.cursor.offset + byteLength w.toList) ∧
        (∀ p n, p.regex.matchLength? c.state.cursor.rest = some n →
          (c.state.eval g (.pattern p)).state.cursor.offset
            = c.state.cursor.offset + byteLength (c.state.cursor.rest.take n)) ∧
        (∀ v again caps, .action v again caps ∈ log →
          caps.input = text ∧ caps.Readable) := by
  have hs := h.placed
  refine ⟨hs.sliceable, ?_⟩
  intro id
  refine ⟨Step.exact_of_covers (hs.apply g id).2, ?_⟩
  intro log c hsteps
  have hkeeps := hsteps.keepsOrder (hs.start (.inr ⟨id, rfl⟩))
  have hc : c.state.Placed := ⟨hkeeps.placed.memo, hkeeps.placed.captures⟩
  refine ⟨hc.sliceable, ?_, ?_, ?_, ?_⟩
  · exact fun e => Step.exact_of_covers (hc.eval g e)
  · exact fun w => State.offset_eval_literal
  · exact fun p n => State.offset_eval_pattern
  · intro v again caps hmem
    obtain ⟨hinput, hcaps⟩ := hkeeps.captures v again caps hmem
    exact ⟨hinput, hcaps.readable⟩

/-- `terms = terms:l "é" "1" | "1"` -/
def accentGrammar : Grammar Unit where
  rules := #[{ name := "terms", body := .choice [
    .sequence [.label "l" (.rule 0), .literal "é", .literal "1"], .literal "1"] }]

/-- On `"1é1é"` the match is grown once, to the first three characters, which are
four bytes. -/
theorem reachable_sliceable_accent :
    ∃ v, ((State.start ['1', 'é', '1', 'é'] ()).apply accentGrammar 0).value
        = some v ∧ v.text? = some ['1', 'é', '1'] ∧
      v.Covers (.first _)
        ((State.start ['1', 'é', '1', 'é'] ()).apply accentGrammar 0).state.cursor ∧
      ((State.start ['1', 'é', '1', 'é'] ()).apply accentGrammar 0).state.cursor.offset
        = 4 := by
  obtain ⟨-, hcalls⟩ := reachable_sliceable (g := accentGrammar)
    (s := .start ['1', 'é', '1', 'é'] ()) (.start ())
  obtain ⟨hexact, -⟩ := hcalls 0
  have htext : ((State.start ['1', 'é', '1', 'é'] ()).apply accentGrammar
      0).value.bind Value.text? = some ['1', 'é', '1'] := by
    decide +kernel
  obtain ⟨v, hv, htext⟩ := Option.bind_eq_some_iff.1 htext
  obtain ⟨-, hcovers, -⟩ := hexact v hv
  refine ⟨v, hv, htext, hcovers, ?_⟩
  decide +kernel

end RubyIndent.Peg
