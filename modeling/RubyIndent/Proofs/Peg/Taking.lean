import RubyIndent.Proofs.Peg.Reading

/-!
# What readers take

A reader takes a text off the front and leaves the rest. `Takes p f` says so,
and that all characters of what is taken satisfy `p`; with the trivial `p` it
only says that what is left is an end of the text. There is one lemma for each
way in which readers are put together.
-/

namespace RubyIndent.Peg

open RubyIndent.Pattern

/-- The reader takes characters that satisfy `p`, and leaves the rest. -/
def Takes (p : Char → Prop) (f : Reader) : Prop :=
  ∀ s t, f s = some t → ∃ m, s = m ++ t ∧ ∀ c ∈ m, p c

def Shortens (f : Reader) : Prop :=
  ∀ s t, f s = some t → t.length < s.length

/-- What is taken in two steps. -/
theorem taken_append {p : Char → Prop} {s t u m n : List Char}
    (h : s = m ++ t) (hm : ∀ c ∈ m, p c) (h' : t = n ++ u)
    (hn : ∀ c ∈ n, p c) : ∃ k, s = k ++ u ∧ ∀ c ∈ k, p c := by
  refine ⟨m ++ n, by rw [h, h', List.append_assoc], fun c hc => ?_⟩
  rcases List.mem_append.1 hc with hc | hc
  · exact hm c hc
  · exact hn c hc

namespace Takes

variable {p : Char → Prop} {f g : Reader}

theorem some : Takes p some := by
  rintro s _ ⟨⟩
  exact ⟨[], rfl, by simp⟩

theorem literal {w : String} (hw : ∀ c ∈ w.toList, p c) :
    Takes p (.literal w) := by
  intro s t h
  rw [Reader.literal, isPrefixOf?_eq] at h
  split at h
  · rename_i hp
    obtain ⟨u, rfl⟩ := List.isPrefixOf_iff_prefix.1 hp
    cases h
    exact ⟨w.toList, by simp, hw⟩
  · cases h

theorem next (hf : Takes p f) (hg : Takes p g) : Takes p (.next f g) := by
  intro s t h
  obtain ⟨u, hu, ht⟩ := Option.bind_eq_some_iff.1 h
  obtain ⟨m, hs, hm⟩ := hf s u hu
  obtain ⟨n, hu, hn⟩ := hg u t ht
  exact taken_append hs hm hu hn

theorem orElse (hf : Takes p f) (hg : Takes p g) : Takes p (.orElse f g) := by
  intro s t h
  rcases Option.or_eq_some_iff.1 h with h | ⟨_, h⟩
  · exact hf s t h
  · exact hg s t h

theorem absent : Takes p (.absent f) := by
  intro s t h
  unfold Reader.absent at h
  split at h
  · cases h
  · cases h
    exact ⟨[], rfl, by simp⟩

theorem present : Takes p (.present f) :=
  absent

theorem optional (hf : Takes p f) : Takes p (.optional f) := by
  rintro s _ ⟨⟩
  cases h : f s with
  | none => exact ⟨[], rfl, by simp⟩
  | some t => exact hf s t h

theorem skipAll (hf : Takes p f) (s : List Char) :
    ∃ m, s = m ++ Reader.skipAll f s ∧ ∀ c ∈ m, p c := by
  fun_induction Reader.skipAll f s with
  | case1 s h => exact ⟨[], rfl, by simp⟩
  | case2 s t h _ ih =>
    obtain ⟨m, hs, hm⟩ := hf s t h
    obtain ⟨n, ht, hn⟩ := ih
    exact taken_append hs hm ht hn
  | case3 s t h _ => exact hf s t h

theorem many (hf : Takes p f) : Takes p (.many f) := by
  rintro s _ ⟨⟩
  exact hf.skipAll s

end Takes

/-! ## Patterns -/

/-- All characters that the pattern mentions satisfy `p`. -/
def Over (p : Char → Prop) : Regex → Prop
  | .empty => True
  | .one set => ∀ c, set.contains c = true → p c
  | .seq a b | .alt a b => Over p a ∧ Over p b
  | .opt _ a | .star _ a | .plus _ a => Over p a

/-- A choice between going on and stopping comes to one of the two. -/
theorem of_pick {P : Prop} {t : List Char} {greed : Greed}
    {a b : Option (List Char)} (ha : a = some t → P) (hb : b = some t → P)
    (h : greed.pick a b = some t) : P := by
  cases greed with
  | greedy =>
    rcases Option.or_eq_some_iff.1 h with h | ⟨_, h⟩
    · exact ha h
    · exact hb h
  | reluctant =>
    rcases Option.or_eq_some_iff.1 h with h | ⟨_, h⟩
    · exact hb h
    · exact ha h

theorem takes_repeatFrom {p : Char → Prop} {greed : Greed}
    {round : Rest → Rest} (hround : ∀ k, Takes p k → Takes p (round k))
    {k : Rest} (hk : Takes p k) : Takes p (repeatFrom greed round k) := by
  intro s
  fun_induction repeatFrom greed round k s with
  | case1 s ih =>
    intro t h
    refine of_pick (fun h => hround _ ?_ s t h) (hk s t) h
    intro u v hu
    dsimp only at hu
    split at hu
    · rename_i hlt
      exact ih u hlt v hu
    · cases hu

theorem takes_strip {p : Char → Prop} : ∀ {r : Regex}, Over p r → ∀ {k : Rest},
    Takes p k → Takes p (r.strip k)
  | .empty, _, _, hk => hk
  | .one set, hr, k, hk => by
    intro s t h
    cases s with
    | nil => cases h
    | cons c s =>
      rw [Regex.strip] at h
      split at h
      · rename_i hc
        obtain ⟨m, rfl, hm⟩ := hk s t h
        exact ⟨c :: m, rfl, List.forall_mem_cons.2 ⟨hr c hc, hm⟩⟩
      · cases h
  | .seq a b, hr, k, hk => takes_strip hr.1 (takes_strip hr.2 hk)
  | .alt a b, hr, k, hk => (takes_strip hr.1 hk).orElse (takes_strip hr.2 hk)
  | .opt greed a, hr, k, hk => fun s t h =>
    of_pick (takes_strip (r := a) hr hk s t) (hk s t) h
  | .star greed a, hr, k, hk => fun s t h =>
    of_pick (takes_strip (r := a) hr
      (takes_repeatFrom (fun k hk => takes_strip (r := a) hr hk) hk) s t)
      (hk s t) h
  | .plus greed a, hr, k, hk =>
    takes_strip (r := a) hr
      (takes_repeatFrom (fun k hk => takes_strip (r := a) hr hk) hk)

theorem Takes.pattern {p : Char → Prop} {r : Pattern} (hr : Over p r.regex) :
    Takes p (.pattern r) :=
  takes_strip hr Takes.some

/-- No set of the pattern has the character. -/
def avoids (c : Char) : Regex → Bool
  | .empty => true
  | .one set => !set.contains c
  | .seq a b | .alt a b => avoids c a && avoids c b
  | .opt _ a | .star _ a | .plus _ a => avoids c a

theorem over_of_avoids {c : Char} : ∀ {r : Regex}, avoids c r = true →
    Over (· ≠ c) r
  | .empty, _ => trivial
  | .one set, h => by
    rintro d hd rfl
    simp [avoids, hd] at h
  | .seq a b, h | .alt a b, h => by
    simp only [avoids, Bool.and_eq_true] at h
    exact ⟨over_of_avoids h.1, over_of_avoids h.2⟩
  | .opt _ a, h | .star _ a, h | .plus _ a, h => over_of_avoids (r := a) h

theorem over_true : ∀ r : Regex, Over (fun _ => True) r
  | .empty => trivial
  | .one _ => fun _ _ => trivial
  | .seq a b | .alt a b => ⟨over_true a, over_true b⟩
  | .opt _ a | .star _ a | .plus _ a => over_true a

/-! ## Patterns that take something -/

/-- What follows is looked for at an end of the text. -/
def Leads (round : Rest → Rest) : Prop :=
  ∀ k s t, round k s = some t → ∃ u, u <:+ s ∧ k u = some t

theorem leads_repeatFrom {greed : Greed} {round : Rest → Rest}
    (hround : Leads round) : Leads (repeatFrom greed round) := by
  intro k s
  fun_induction repeatFrom greed round k s with
  | case1 s ih =>
    intro t h
    refine of_pick (fun h => ?_) (fun h => ⟨s, List.suffix_refl s, h⟩) h
    obtain ⟨u, hu, h⟩ := hround _ s t h
    split at h
    · rename_i hlt
      obtain ⟨v, hv, hk⟩ := ih u hlt t h
      exact ⟨v, hv.trans hu, hk⟩
    · cases h

theorem leads_strip : ∀ r : Regex, Leads r.strip
  | .empty => fun _ s _ h => ⟨s, List.suffix_refl s, h⟩
  | .one set => by
    intro k s t h
    cases s with
    | nil => cases h
    | cons c s =>
      rw [Regex.strip] at h
      split at h
      · exact ⟨s, List.suffix_cons c s, h⟩
      · cases h
  | .seq a b => by
    intro k s t h
    obtain ⟨u, hu, h⟩ := leads_strip a _ s t h
    obtain ⟨v, hv, h⟩ := leads_strip b k u t h
    exact ⟨v, hv.trans hu, h⟩
  | .alt a b => fun k s t h => by
    rcases Option.or_eq_some_iff.1 h with h | ⟨_, h⟩
    · exact leads_strip a k s t h
    · exact leads_strip b k s t h
  | .opt _ a => fun k s t h =>
    of_pick (leads_strip a k s t) (fun h => ⟨s, List.suffix_refl s, h⟩) h
  | .star greed a => fun k s t h => by
    refine of_pick (fun h => ?_) (fun h => ⟨s, List.suffix_refl s, h⟩) h
    obtain ⟨u, hu, h⟩ := leads_strip a _ s t h
    obtain ⟨v, hv, h⟩ := leads_repeatFrom (leads_strip a) k u t h
    exact ⟨v, hv.trans hu, h⟩
  | .plus greed a => fun k s t h => by
    obtain ⟨u, hu, h⟩ := leads_strip a _ s t h
    obtain ⟨v, hv, h⟩ := leads_repeatFrom (leads_strip a) k u t h
    exact ⟨v, hv.trans hu, h⟩

/-- A pattern that does not match nothing takes something. -/
theorem shortens_strip : ∀ {r : Regex}, r.nullable = false → ∀ {k : Rest},
    Takes (fun _ => True) k → Shortens (r.strip k)
  | .one set, _, k, hk => by
    intro s t h
    cases s with
    | nil => cases h
    | cons c s =>
      rw [Regex.strip] at h
      split at h
      · obtain ⟨m, rfl, _⟩ := hk s t h
        exact Nat.lt_succ_of_le (List.suffix_append m t).length_le
      · cases h
  | .seq a b, hr, k, hk => by
    intro s t h
    by_cases ha : a.nullable = false
    · exact shortens_strip ha (takes_strip (over_true b) hk) s t h
    · obtain ⟨u, hu, h⟩ := leads_strip a _ s t h
      have hb : b.nullable = false := by
        simpa [Regex.nullable, ha] using hr
      exact Nat.lt_of_lt_of_le (shortens_strip hb hk u t h) hu.length_le
  | .alt a b, hr, k, hk => by
    intro s t h
    have hr : a.nullable = false ∧ b.nullable = false := by
      simpa [Regex.nullable] using hr
    rcases Option.or_eq_some_iff.1 h with h | ⟨_, h⟩
    · exact shortens_strip hr.1 hk s t h
    · exact shortens_strip hr.2 hk s t h
  | .plus greed a, hr, k, hk =>
    shortens_strip (r := a) hr (takes_repeatFrom
      (fun _ hk => takes_strip (over_true a) hk) hk)

theorem Shortens.pattern {p : Pattern} (h : p.regex.nullable = false) :
    Shortens (.pattern p) :=
  shortens_strip h Takes.some

theorem Shortens.orElse {f g : Reader} (hf : Shortens f) (hg : Shortens g) :
    Shortens (.orElse f g) := by
  intro s t h
  rcases Option.or_eq_some_iff.1 h with h | ⟨_, h⟩
  · exact hf s t h
  · exact hg s t h

/-- Taking something first, and then an end of what is left. -/
theorem Shortens.next {f g : Reader} (hf : Shortens f)
    (hg : Takes (fun _ => True) g) : Shortens (.next f g) := by
  intro s t h
  obtain ⟨u, hu, ht⟩ := Option.bind_eq_some_iff.1 h
  obtain ⟨m, rfl, _⟩ := hg u t ht
  exact Nat.lt_of_le_of_lt (List.suffix_append m t).length_le (hf s _ hu)

/-- Looking ahead, and then taking something. -/
theorem Shortens.after {f g : Reader} (hf : Takes (fun _ => True) f)
    (hg : Shortens g) : Shortens (.next f g) := by
  intro s t h
  obtain ⟨u, hu, ht⟩ := Option.bind_eq_some_iff.1 h
  obtain ⟨m, rfl, _⟩ := hf s u hu
  exact Nat.lt_of_lt_of_le (hg u t ht) (List.suffix_append m u).length_le

end RubyIndent.Peg
