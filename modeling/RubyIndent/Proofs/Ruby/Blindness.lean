import RubyIndent.Proofs.Ruby.Layout

/-!
# Reading is blind to indentation

Two texts are alike if they differ in the blanks at the start of lines and in
the blanks around labels that stand on a line of their own. Such texts are read
alike: every reader that starts within a line takes something off both or off
neither, and leaves texts that are alike (`Blind`). Strings and heredocs look
for their ends in the lines below, and pass over what differs there.
-/

namespace RubyIndent.Ruby

open RubyIndent.Peg RubyIndent.Text RubyIndent.Pattern

/-! ## Texts that differ in indentation -/

/-- Both texts are the same but for the blanks at the start of the lines below
and around labels that are lines of their own. -/
inductive Alike : List Char → List Char → Prop where
  | nil : Alike [] []
  | char {c s t} : c ≠ '\n' → Alike s t → Alike (c :: s) (c :: t)
  | newline {b b' s t} : Blanks b → Blanks b' → Alike s t →
    Alike ('\n' :: (b ++ s)) ('\n' :: (b' ++ t))
  | label {l a a' b b' s t} : IsLabel l → Blanks a → Blanks a' → Blanks b →
    Blanks b' → Alike ('\n' :: s) ('\n' :: t) →
    Alike ('\n' :: (a ++ (l ++ (a' ++ '\n' :: s))))
      ('\n' :: (b ++ (l ++ (b' ++ '\n' :: t))))

/-- The same for texts that start with a line. -/
def AlikeLines (s t : List Char) : Prop :=
  Alike ('\n' :: s) ('\n' :: t)

namespace Alike

theorem append {m s t : List Char} (hm : '\n' ∉ m) (h : Alike s t) :
    Alike (m ++ s) (m ++ t) := by
  induction m with
  | nil => exact h
  | cons c m ih =>
    refine .char (fun hc => hm (hc ▸ List.mem_cons_self)) (ih ?_)
    exact fun hmem => hm (List.mem_cons_of_mem c hmem)

/-- The texts are the same up to the end of the line. -/
theorem firstLine {s t : List Char} (h : Alike s t) : ∃ m x y, '\n' ∉ m ∧
    s = m ++ x ∧ t = m ++ y ∧ Alike x y ∧ AtLineEnd x ∧ AtLineEnd y := by
  induction h with
  | nil => exact ⟨[], [], [], nofun, rfl, rfl, .nil, .inl rfl, .inl rfl⟩
  | @char c s t hc _ ih =>
    obtain ⟨m, x, y, hm, rfl, rfl, h⟩ := ih
    refine ⟨c :: m, x, y, ?_, rfl, rfl, h⟩
    exact fun hmem => (List.mem_cons.1 hmem).elim (fun h => hc h.symm) hm
  | newline hb hb' h =>
    exact ⟨[], _, _, nofun, rfl, rfl, .newline hb hb' h, .inr ⟨_, rfl⟩,
      .inr ⟨_, rfl⟩⟩
  | label hl ha ha' hb hb' h =>
    exact ⟨[], _, _, nofun, rfl, rfl, .label hl ha ha' hb hb' h,
      .inr ⟨_, rfl⟩, .inr ⟨_, rfl⟩⟩

/-- The texts have the same number of lines. -/
theorem count_newline {s t : List Char} (h : Alike s t) :
    s.count '\n' = t.count '\n' := by
  induction h with
  | nil => rfl
  | char hc _ ih => rw [List.count_cons, List.count_cons, ih]
  | newline hb hb' _ ih =>
    rw [List.count_cons, List.count_cons, List.count_append, List.count_append,
      hb.count_newline, hb'.count_newline, ih]
  | label hl ha ha' hb hb' _ ih =>
    simp only [List.count_cons, List.count_append, ha.count_newline,
      ha'.count_newline, hb.count_newline, hb'.count_newline] at ih ⊢
    omega

end Alike

/-! ## Readers that are blind -/

/-- Readers agree on texts that are alike. -/
def Blind (f : Reader) : Prop :=
  ∀ s t, Alike s t → Option.Rel Alike (f s) (f t)

/-- Readers agree on whether there is something to take. -/
def Sees (f : Reader) : Prop :=
  ∀ s t, Alike s t → (f s).isSome = (f t).isSome

section

variable {α β : Type} {R : α → α → Prop} {S : β → β → Prop} {a b : Option α}

theorem rel_isSome (h : Option.Rel R a b) : a.isSome = b.isSome := by
  cases h <;> rfl

theorem rel_eq (a : Option α) : Option.Rel Eq a a := by
  cases a with
  | none => exact .none
  | some a => exact .some rfl

theorem rel_imp {R' : α → α → Prop} (h : Option.Rel R a b)
    (himp : ∀ u v, R u v → R' u v) : Option.Rel R' a b := by
  cases h with
  | some h => exact .some (himp _ _ h)
  | none => exact .none

theorem rel_or {a' b' : Option α} (h : Option.Rel R a b)
    (h' : Option.Rel R a' b') : Option.Rel R (a.or a') (b.or b') := by
  cases h with
  | some h => exact .some h
  | none => exact h'

theorem rel_bind {f g : α → Option β} (h : Option.Rel R a b)
    (hfg : ∀ u v, R u v → Option.Rel S (f u) (g v)) :
    Option.Rel S (a.bind f) (b.bind g) := by
  cases h with
  | some h => exact hfg _ _ h
  | none => exact .none

theorem rel_map {f g : α → β} (h : Option.Rel R a b)
    (hfg : ∀ u v, a = some u → b = some v → R u v → S (f u) (g v)) :
    Option.Rel S (a.map f) (b.map g) := by
  cases h with
  | some h => exact .some (hfg _ _ rfl rfl h)
  | none => exact .none

theorem rel_getD {u v : α} (h : Option.Rel R a b) (huv : R u v) :
    R (a.getD u) (b.getD v) := by
  cases h with
  | some h => exact h
  | none => exact huv

theorem rel_findSome? {γ : Type} {f g : γ → Option α}
    (h : ∀ c, Option.Rel R (f c) (g c)) (l : List γ) :
    Option.Rel R (l.findSome? f) (l.findSome? g) := by
  induction l with
  | nil => exact .none
  | cons c l ih =>
    have hc := h c
    rw [List.findSome?_cons, List.findSome?_cons]
    generalize f c = a at hc ⊢
    generalize g c = b at hc ⊢
    cases hc with
    | some h => exact .some h
    | none => exact ih

end

/-! ## Patterns -/

def SameLine (x y s t : List Char) : Prop :=
  ∃ m, '\n' ∉ m ∧ s = m ++ x ∧ t = m ++ y

/-- Two ways to go on agree on lines with the given ends. -/
def Agree (x y : List Char) (k k' : Rest) : Prop :=
  ∀ m, '\n' ∉ m → Option.Rel (SameLine x y) (k (m ++ x)) (k' (m ++ y))

theorem rel_pick {R : List Char → List Char → Prop} {greed : Greed}
    {a b a' b' : Option (List Char)} (h : Option.Rel R a b)
    (h' : Option.Rel R a' b') :
    Option.Rel R (greed.pick a a') (greed.pick b b') := by
  cases greed with
  | greedy => exact rel_or h h'
  | reluctant => exact rel_or h' h

theorem agree_repeatFrom {x y : List Char} {greed : Greed} {round : Rest → Rest}
    (hround : ∀ {k k'}, Agree x y k k' → Agree x y (round k) (round k'))
    {k k' : Rest} (hk : Agree x y k k') :
    Agree x y (repeatFrom greed round k) (repeatFrom greed round k') := by
  intro m hm
  generalize hn : m.length = n
  induction n using Nat.strongRecOn generalizing m with
  | _ n ih =>
    rw [repeatFrom, repeatFrom]
    refine rel_pick (hround ?_ m hm) (hk m hm)
    intro m' hm'
    -- A round takes something of one line exactly if it does of the other.
    have hlen : ∀ z : List Char,
        (m' ++ z).length < (m ++ z).length ↔ m'.length < m.length := by
      intro z
      rw [List.length_append, List.length_append]
      omega
    simp only [hlen]
    split
    · rename_i hlt
      exact ih _ (hn ▸ hlt) m' hm' rfl
    · exact .none

/-- A pattern does not see what stands behind a character that it cannot take. -/
theorem agree_strip {x y : List Char} : ∀ {r : Regex},
    (∀ c ∈ x.head?, avoids c r = true) → (∀ c ∈ y.head?, avoids c r = true) →
      ∀ {k k' : Rest}, Agree x y k k' → Agree x y (r.strip k) (r.strip k')
  | .empty, _, _, _, _, hk => hk
  | .one set, hx, hy, k, k', hk => by
    intro m hm
    cases m with
    | cons c m =>
      rw [List.cons_append, List.cons_append, Regex.strip, Regex.strip]
      split
      · exact hk m fun h => hm (List.mem_cons_of_mem c h)
      · exact .none
    | nil =>
      have stuck : ∀ {z : List Char} {k : Rest},
          (∀ c ∈ z.head?, avoids c (.one set) = true) →
          (Regex.one set).strip k z = none := by
        intro z k hz
        cases z with
        | nil => rfl
        | cons c z =>
          rw [Regex.strip, if_neg (by simpa [avoids] using hz c rfl)]
      rw [List.nil_append, List.nil_append, stuck hx, stuck hy]
      exact .none
  | .seq a b, hx, hy, k, k', hk => by
    simp only [avoids, Bool.and_eq_true] at hx hy
    exact agree_strip (fun c hc => (hx c hc).1) (fun c hc => (hy c hc).1)
      (agree_strip (fun c hc => (hx c hc).2) (fun c hc => (hy c hc).2) hk)
  | .alt a b, hx, hy, k, k', hk => by
    simp only [avoids, Bool.and_eq_true] at hx hy
    exact fun m hm => rel_or
      (agree_strip (fun c hc => (hx c hc).1) (fun c hc => (hy c hc).1) hk m hm)
      (agree_strip (fun c hc => (hx c hc).2) (fun c hc => (hy c hc).2) hk m hm)
  | .opt _ a, hx, hy, k, k', hk => fun m hm =>
    rel_pick (agree_strip (r := a) hx hy hk m hm) (hk m hm)
  | .star _ a, hx, hy, k, k', hk => fun m hm =>
    rel_pick (agree_strip (r := a) hx hy (agree_repeatFrom
      (fun h => agree_strip (r := a) hx hy h) hk) m hm) (hk m hm)
  | .plus _ a, hx, hy, k, k', hk =>
    agree_strip (r := a) hx hy (agree_repeatFrom
      (fun h => agree_strip (r := a) hx hy h) hk)

/-- A pattern without newlines does not see beyond the end of the line. -/
theorem avoids_of_atLineEnd {x : List Char} (hx : AtLineEnd x) {r : Regex}
    (hr : avoids '\n' r = true) : ∀ c ∈ x.head?, avoids c r = true := by
  rcases hx with rfl | ⟨t, rfl⟩
  · nofun
  · intro c hc
    rwa [← Option.mem_some_iff.1 hc]

/-- What a pattern takes of a line that ends with what it cannot take. -/
theorem rel_pattern_line {p : Pattern} {x y : List Char}
    (hx : ∀ c ∈ x.head?, avoids c p.regex = true)
    (hy : ∀ c ∈ y.head?, avoids c p.regex = true) {m : List Char}
    (hm : '\n' ∉ m) :
    Option.Rel (fun u v => ∃ n m', m = n ++ m' ∧
        (∀ c ∈ n, avoids c p.regex = false) ∧ u = m' ++ x ∧ v = m' ++ y)
      (Reader.pattern p (m ++ x)) (Reader.pattern p (m ++ y)) := by
  have hk : Agree x y some some := fun m hm => .some ⟨m, hm, rfl, rfl⟩
  have hrel := agree_strip hx hy hk m hm
  have htakes : ∀ c, avoids c p.regex = true → Takes (· ≠ c) (Reader.pattern p) :=
    fun c hc => Takes.pattern (over_of_avoids hc)
  unfold Reader.pattern at htakes ⊢
  generalize hu : p.regex.strip some (m ++ x) = a at hrel ⊢
  generalize p.regex.strip some (m ++ y) = b at hrel ⊢
  cases hrel with
  | none => exact .none
  | some hsame =>
    obtain ⟨m', _, rfl, rfl⟩ := hsame
    obtain ⟨n, hn, _⟩ := takes_strip (over_true p.regex) Takes.some _ _ hu
    rw [← List.append_assoc] at hn
    refine .some ⟨n, m', List.append_cancel_right hn, fun c hc => ?_, rfl, rfl⟩
    cases havoids : avoids c p.regex with
    | false => rfl
    | true =>
      obtain ⟨n', hn', hne⟩ := htakes c havoids _ _ hu
      rw [hn, List.append_assoc] at hn'
      cases List.append_cancel_right hn'
      exact absurd rfl (hne c hc)

/-- What a pattern takes of a line is the same in both texts. -/
theorem rel_pattern {p : Pattern} (hp : avoids '\n' p.regex = true)
    {s t : List Char} (h : Alike s t) :
    Option.Rel (fun u v => ∃ m, '\n' ∉ m ∧ s = m ++ u ∧ t = m ++ v ∧ Alike u v)
      (Reader.pattern p s) (Reader.pattern p t) := by
  obtain ⟨m, x, y, hm, rfl, rfl, hxy, hx, hy⟩ := h.firstLine
  refine rel_imp (rel_pattern_line (avoids_of_atLineEnd hx hp)
    (avoids_of_atLineEnd hy hp) hm) ?_
  rintro _ _ ⟨n, m', rfl, hn, rfl, rfl⟩
  have hline : '\n' ∉ n := fun h => by cases (hn _ h).symm.trans hp
  have hline' : '\n' ∉ m' := fun h => hm (List.mem_append_right n h)
  exact ⟨n, hline, List.append_assoc .., List.append_assoc .., hxy.append hline'⟩

/-! ## Ways to put readers together -/

/-- Rounds that take something each lead from related texts to related
texts. -/
theorem rel_skipAll {f : Reader} {R : List Char → List Char → Prop}
    (hf : ∀ s t, R s t → Option.Rel R (f s) (f t)) (hshort : Shortens f)
    {s t : List Char} (h : R s t) :
    R (Reader.skipAll f s) (Reader.skipAll f t) := by
  generalize hn : s.length = n
  induction n using Nat.strongRecOn generalizing s t with
  | _ n ih =>
    have hround := hf s t h
    cases hs : f s with
    | none =>
      rw [hs] at hround
      cases ht : f t with
      | none => rwa [skipAll_none hs, skipAll_none ht]
      | some v =>
        rw [ht] at hround
        cases hround
    | some u =>
      rw [hs] at hround
      cases ht : f t with
      | none =>
        rw [ht] at hround
        cases hround
      | some v =>
        rw [ht] at hround
        rw [skipAll_some hs (hshort s u hs), skipAll_some ht (hshort t v ht)]
        cases hround with
        | some h => exact ih _ (hn ▸ hshort s u hs) h rfl

theorem rel_absent {R : List Char → List Char → Prop} {f : Reader}
    {s t : List Char} (hf : (f s).isSome = (f t).isSome) (h : R s t) :
    Option.Rel R (Reader.absent f s) (Reader.absent f t) := by
  unfold Reader.absent
  rw [hf]
  split
  · exact .none
  · exact .some h

theorem rel_next {f g : Reader} {R : List Char → List Char → Prop}
    (hf : Blind f) (hg : ∀ s t, Alike s t → Option.Rel R (g s) (g t))
    (s t : List Char) (h : Alike s t) :
    Option.Rel R (Reader.next f g s) (Reader.next f g t) :=
  rel_bind (hf s t h) hg

namespace Blind

variable {f g : Reader}

theorem sees (hf : Blind f) : Sees f :=
  fun s t h => rel_isSome (hf s t h)

theorem next (hf : Blind f) (hg : Blind g) : Blind (.next f g) :=
  rel_next hf hg

theorem orElse (hf : Blind f) (hg : Blind g) : Blind (.orElse f g) :=
  fun s t h => rel_or (hf s t h) (hg s t h)

theorem absent (hf : Sees f) : Blind (.absent f) :=
  fun s t h => rel_absent (hf s t h) h

theorem present (hf : Sees f) : Blind (.present f) :=
  absent (absent hf).sees

theorem optional (hf : Blind f) : Blind (.optional f) :=
  fun s t h => .some (rel_getD (hf s t h) h)

theorem many (hf : Blind f) (hshort : Shortens f) : Blind (.many f) :=
  fun _ _ h => .some (rel_skipAll hf hshort h)

theorem literal {w : String} (hw : '\n' ∉ w.toList) : Blind (.literal w) := by
  unfold Reader.literal
  generalize w.toList = m at hw ⊢
  induction m with
  | nil => exact fun _ _ h => .some h
  | cons c m ih =>
    have hm : '\n' ∉ m := fun h => hw (List.mem_cons_of_mem c h)
    have hc : c ≠ '\n' := fun h => hw (h ▸ List.mem_cons_self)
    intro s t h
    cases h with
    | nil => exact .none
    | @char d s t _ h =>
      rw [isPrefixOf?_cons, isPrefixOf?_cons]
      split
      · exact ih hm _ _ h
      · exact .none
    | newline _ _ _ | label _ _ _ _ _ _ =>
      simp only [isPrefixOf?_cons, beq_iff_eq, if_neg hc]
      exact .none

theorem pattern {p : Pattern} (hp : avoids '\n' p.regex = true) :
    Blind (.pattern p) := by
  intro s t h
  have hrel := rel_pattern hp h
  generalize Reader.pattern p s = a at hrel ⊢
  generalize Reader.pattern p t = b at hrel ⊢
  cases hrel with
  | none => exact .none
  | some h =>
    obtain ⟨_, _, _, _, h⟩ := h
    exact .some h

end Blind

/-! ## Strings -/

/-- A character that strings and the code in them pass over. -/
def Inert (c : Char) : Prop :=
  c ≠ '\'' ∧ c ≠ '\"' ∧ c ≠ '\\' ∧ c ≠ '#' ∧ c ≠ '\x7b' ∧ c ≠ '\x7d'

theorem inert_of_isSpacing {c : Char} (h : isSpacing c = true) : Inert c := by
  refine ⟨?_, ?_, ?_, ?_, ?_, ?_⟩ <;> rintro rfl <;> cases h

theorem inert_of_isLabelChar {c : Char} (h : isLabelChar c = true) :
    Inert c := by
  refine ⟨?_, ?_, ?_, ?_, ?_, ?_⟩ <;> rintro rfl <;> cases h

/-- The texts go on with the same character, behind which only inert characters
differ. Within a line nothing differs. -/
theorem Alike.cons_or_nil {s t : List Char} (h : Alike s t) :
    (s = [] ∧ t = []) ∨ ∃ c m m' s' t', (∀ d ∈ m, Inert d) ∧
      (∀ d ∈ m', Inert d) ∧ (c ≠ '\n' → m = [] ∧ m' = []) ∧
      s = c :: (m ++ s') ∧ t = c :: (m' ++ t') ∧ Alike s' t' := by
  cases h with
  | nil => exact .inl ⟨rfl, rfl⟩
  | @char c s t hc h =>
    exact .inr ⟨c, [], [], s, t, nofun, nofun, fun _ => ⟨rfl, rfl⟩, rfl, rfl, h⟩
  | newline hb hb' h =>
    exact .inr ⟨'\n', _, _, _, _, fun d hd => inert_of_isSpacing (hb d hd),
      fun d hd => inert_of_isSpacing (hb' d hd), fun h => absurd rfl h, rfl, rfl,
      h⟩
  | @label l a a' b b' s t hl ha ha' hb hb' h =>
    have inert : ∀ {a a' : List Char}, Blanks a → Blanks a' →
        ∀ d ∈ a ++ (l ++ a'), Inert d := by
      intro a a' ha ha' d hd
      rcases List.mem_append.1 hd with hd | hd
      · exact inert_of_isSpacing (ha d hd)
      · rcases List.mem_append.1 hd with hd | hd
        · exact inert_of_isLabelChar (hl.all d hd)
        · exact inert_of_isSpacing (ha' d hd)
    exact .inr ⟨'\n', a ++ (l ++ a'), b ++ (l ++ b'), '\n' :: s, '\n' :: t,
      inert ha ha', inert hb hb', fun h => absurd rfl h, by simp, by simp, h⟩

theorem afterSq_other {c : Char} (hq : c ≠ '\'') (hb : c ≠ '\\')
    (s : List Char) : afterSq (c :: s) = afterSq s :=
  afterSq.eq_5 c s hq (fun h _ => hb h) (fun _ _ h _ => hb h)

theorem afterDq_interpolation (s : List Char) :
    afterDq ('#' :: '\x7b' :: s) = afterDq ((afterBrace s).getD s) := by
  rw [afterDq, within_afterBrace]

theorem afterDq_other {c : Char} {s : List Char} (hq : c ≠ '\"')
    (hb : c ≠ '\\') (hh : ∀ t, c = '#' → s ≠ '\x7b' :: t) :
    afterDq (c :: s) = afterDq s :=
  afterDq.eq_6 c s hq (fun h _ => hb h) (fun _ _ h _ => hb h) hh

theorem afterBrace_other {c : Char} {s : List Char} (hc : c ≠ '\x7d' ∧
    c ≠ '\'' ∧ c ≠ '\"' ∧ c ≠ '\x7b') (hb : ∀ t, c = '\\' → s ≠ '\x7d' :: t) :
    afterBrace (c :: s) = afterBrace s :=
  afterBrace.eq_7 c s hc.1 hc.2.1 hc.2.2.1 hc.2.2.2 hb

/-- Inert characters are passed over. -/
theorem after_inert {m : List Char} (hm : ∀ c ∈ m, Inert c) (s : List Char) :
    afterSq (m ++ s) = afterSq s ∧ afterDq (m ++ s) = afterDq s ∧
      afterBrace (m ++ s) = afterBrace s := by
  induction m with
  | nil => exact ⟨rfl, rfl, rfl⟩
  | cons c m ih =>
    obtain ⟨hsq, hdq, hb, hh, ho, hc⟩ := hm c List.mem_cons_self
    obtain ⟨ih₁, ih₂, ih₃⟩ := ih fun d hd => hm d (List.mem_cons_of_mem c hd)
    rw [List.cons_append, afterSq_other hsq hb,
      afterDq_other hdq hb fun _ h => absurd h hh,
      afterBrace_other ⟨hc, hsq, hdq, ho⟩ fun _ h => absurd h hb]
    exact ⟨ih₁, ih₂, ih₃⟩

def StringsAlike (s t : List Char) : Prop :=
  Option.Rel Alike (afterSq s) (afterSq t) ∧
    Option.Rel Alike (afterDq s) (afterDq t) ∧
    Option.Rel Alike (afterBrace s) (afterBrace t)

theorem StringsAlike.of_inert {m m' s t : List Char} (h : StringsAlike s t)
    (hm : ∀ c ∈ m, Inert c) (hm' : ∀ c ∈ m', Inert c) :
    StringsAlike (m ++ s) (m' ++ t) := by
  obtain ⟨h₁, h₂, h₃⟩ := after_inert hm s
  obtain ⟨h₁', h₂', h₃'⟩ := after_inert hm' t
  unfold StringsAlike
  rw [h₁, h₂, h₃, h₁', h₂', h₃']
  exact h

/-- Behind a character that is escaped. -/
theorem Alike.escaped {s t : List Char} (h : Alike s t)
    (ih : ∀ u v, u.length < s.length → Alike u v → StringsAlike u v) :
    (s = [] ∧ t = []) ∨ ∃ c u v, s = c :: u ∧ t = c :: v ∧ StringsAlike u v := by
  rcases h.cons_or_nil with h | ⟨c, m, m', s', t', hm, hm', _, rfl, rfl, h'⟩
  · exact .inl h
  · refine .inr ⟨c, _, _, rfl, rfl, (ih s' t' ?_ h').of_inert hm hm'⟩
    rw [List.length_cons, List.length_append]
    omega

/-- Within a line both texts go on with the same character. -/
theorem Alike.cons_iff {c : Char} (hc : c ≠ '\n') {s t : List Char}
    (h : Alike s t) : (∃ u, s = c :: u) ↔ ∃ v, t = c :: v := by
  cases h with
  | nil => exact ⟨nofun, nofun⟩
  | char _ _ =>
    constructor
    · rintro ⟨_, ⟨⟩⟩
      exact ⟨_, rfl⟩
    · rintro ⟨_, ⟨⟩⟩
      exact ⟨_, rfl⟩
  | newline _ _ _ | label _ _ _ _ _ _ =>
    constructor
    · rintro ⟨_, ⟨⟩⟩
      exact absurd rfl hc
    · rintro ⟨_, ⟨⟩⟩
      exact absurd rfl hc

theorem Alike.of_cons {c : Char} (hc : c ≠ '\n') {s t : List Char}
    (h : Alike (c :: s) (c :: t)) : Alike s t := by
  cases h with
  | char _ h => exact h
  | newline _ _ _ | label _ _ _ _ _ _ => exact absurd rfl hc

/-! One character of a string, and one of the code in it. What follows within
the line is alike, and shorter texts are known. -/

section

variable {c : Char} {s t : List Char}

theorem rel_afterSq_cons (hline : c ≠ '\n' → Alike s t)
    (hrest : StringsAlike s t)
    (ih : ∀ u v, u.length < s.length → Alike u v → StringsAlike u v) :
    Option.Rel Alike (afterSq (c :: s)) (afterSq (c :: t)) := by
  by_cases hq : c = '\''
  · subst hq
    exact .some (hline (by decide))
  by_cases hb : c = '\\'
  · subst hb
    rcases (hline (by decide)).escaped ih with
      ⟨rfl, rfl⟩ | ⟨d, u, v, rfl, rfl, h⟩
    · exact .none
    · exact h.1
  rw [afterSq_other hq hb, afterSq_other hq hb]
  exact hrest.1

theorem rel_afterDq_cons (hline : c ≠ '\n' → Alike s t)
    (hrest : StringsAlike s t)
    (ih : ∀ u v, u.length < s.length → Alike u v → StringsAlike u v) :
    Option.Rel Alike (afterDq (c :: s)) (afterDq (c :: t)) := by
  by_cases hq : c = '\"'
  · subst hq
    rw [afterDq, afterDq]
    exact .some (hline (by decide))
  by_cases hb : c = '\\'
  · subst hb
    rcases (hline (by decide)).escaped ih with
      ⟨rfl, rfl⟩ | ⟨d, u, v, rfl, rfl, h⟩
    · rw [afterDq]
      exact .none
    · rw [afterDq, afterDq]
      exact h.2.1
  by_cases hh : c = '#' ∧ ∃ u, s = '\x7b' :: u
  · obtain ⟨rfl, u, rfl⟩ := hh
    have h := hline (by decide)
    obtain ⟨v, rfl⟩ := (h.cons_iff (by decide)).1 ⟨u, rfl⟩
    have huv := h.of_cons (by decide)
    -- The braces end alike, or have no end in either text.
    have hbrace := (ih u v (Nat.lt_succ_self _) huv).2.2
    rw [afterDq_interpolation, afterDq_interpolation]
    exact (ih _ _ (Nat.lt_succ_of_le (length_getD_le shortens_strings.2 u))
      (rel_getD hbrace huv)).2.1
  · rw [afterDq_other hq hb fun u hc hs => hh ⟨hc, u, hs⟩,
      afterDq_other hq hb fun v hc ht => hh ⟨hc, ?_⟩]
    · exact hrest.2.1
    · subst hc
      exact ((hline (by decide)).cons_iff (by decide)).2 ⟨v, ht⟩

theorem rel_afterBrace_cons (hline : c ≠ '\n' → Alike s t)
    (hrest : StringsAlike s t)
    (ih : ∀ u v, u.length ≤ s.length → Alike u v → StringsAlike u v) :
    Option.Rel Alike (afterBrace (c :: s)) (afterBrace (c :: t)) := by
  by_cases hc : c = '\x7d'
  · subst hc
    rw [afterBrace, afterBrace]
    exact .some (hline (by decide))
  by_cases hsq : c = '\''
  · subst hsq
    rw [afterBrace, afterBrace, within_afterSq, within_afterSq]
    exact (ih _ _ (length_getD_le shortens_afterSq s)
      (rel_getD hrest.1 (hline (by decide)))).2.2
  by_cases hdq : c = '\"'
  · subst hdq
    rw [afterBrace, afterBrace, within_afterDq, within_afterDq]
    exact (ih _ _ (length_getD_le shortens_strings.1 s)
      (rel_getD hrest.2.1 (hline (by decide)))).2.2
  by_cases ho : c = '\x7b'
  · subst ho
    rw [afterBrace, afterBrace, within_afterBrace, within_afterBrace]
    exact (ih _ _ (length_getD_le shortens_strings.2 s)
      (rel_getD hrest.2.2 (hline (by decide)))).2.2
  by_cases hb : c = '\\' ∧ ∃ u, s = '\x7d' :: u
  · obtain ⟨rfl, u, rfl⟩ := hb
    have h := hline (by decide)
    obtain ⟨v, rfl⟩ := (h.cons_iff (by decide)).1 ⟨u, rfl⟩
    rw [afterBrace, afterBrace]
    exact (ih u v (Nat.le_succ _) (h.of_cons (by decide))).2.2
  · rw [afterBrace_other ⟨hc, hsq, hdq, ho⟩ fun u hc hs => hb ⟨hc, u, hs⟩,
      afterBrace_other ⟨hc, hsq, hdq, ho⟩ fun v hc ht => hb ⟨hc, ?_⟩]
    · exact hrest.2.2
    · subst hc
      exact ((hline (by decide)).cons_iff (by decide)).2 ⟨v, ht⟩

end

/-- The ends of strings do not depend on indentation. -/
theorem stringsAlike {s t : List Char} (h : Alike s t) : StringsAlike s t := by
  generalize hn : s.length = n
  induction n using Nat.strongRecOn generalizing s t with
  | _ n ih =>
    subst hn
    rcases h.cons_or_nil with
      ⟨rfl, rfl⟩ | ⟨c, m, m', s', t', hm, hm', hline, rfl, rfl, h'⟩
    · unfold StringsAlike
      rw [afterSq, afterDq, afterBrace]
      exact ⟨.none, .none, .none⟩
    · have hlen : s'.length < (c :: (m ++ s')).length := by
        rw [List.length_cons, List.length_append]
        omega
      -- What differs behind a newline is inert, so strings pass over it.
      have hrest := (ih _ hlen h' rfl).of_inert hm hm'
      have hsame : c ≠ '\n' → Alike (m ++ s') (m' ++ t') := by
        intro hc
        obtain ⟨rfl, rfl⟩ := hline hc
        exact h'
      have hle : ∀ u v : List Char, u.length ≤ (m ++ s').length → Alike u v →
          StringsAlike u v :=
        fun u v hu huv => ih _ (Nat.lt_succ_of_le hu) huv rfl
      have hlt : ∀ u v : List Char, u.length < (m ++ s').length → Alike u v →
          StringsAlike u v :=
        fun u v hu => hle u v (Nat.le_of_lt hu)
      exact ⟨rel_afterSq_cons hsame hrest hlt, rel_afterDq_cons hsame hrest hlt,
        rel_afterBrace_cons hsame hrest hle⟩

end RubyIndent.Ruby
