import RubyIndent.Pattern.Parser

/-!
# Patterns that never repeat nothing

The matcher passes no branch point twice without a character in between, and
for that it hands a trail along. Where no repeated part of a pattern can match
nothing, the trail never refuses anything. `Regex.strip` is the matcher without
trails and without places: it takes a match off the front of a text and goes on
with the text that is left. `run_eq_strip` says that the two agree on such
patterns, and the equations after it are what proofs about single patterns use.
-/

namespace RubyIndent.Pattern

open RubyIndent.Text

/-- What has to follow a match, as a function of the text that is left. -/
abbrev Rest := List Char → Option (List Char)

def Greed.pick (greed : Greed) (goOn stop : Option (List Char)) :
    Option (List Char) :=
  match greed with
  | .greedy => goOn.or stop
  | .reluctant => stop.or goOn

def repeatFrom (greed : Greed) (round : Rest → Rest) (k : Rest)
    (s : List Char) : Option (List Char) :=
  greed.pick
    (round (fun t => if t.length < s.length then repeatFrom greed round k t
      else none) s)
    (k s)
termination_by s.length

/-- Takes the preferred match off the front of a text, given what has to
follow. -/
def Regex.strip : Regex → Rest → Rest
  | .empty, k, s => k s
  | .one _, _, [] => none
  | .one set, k, c :: t => if set.contains c then k t else none
  | .seq a b, k, s => a.strip (b.strip k) s
  | .alt a b, k, s => (a.strip k s).or (b.strip k s)
  | .opt greed a, k, s => greed.pick (a.strip k s) (k s)
  | .star greed a, k, s =>
    greed.pick (a.strip (repeatFrom greed a.strip k) s) (k s)
  | .plus greed a, k, s => a.strip (repeatFrom greed a.strip k) s

/-- No repeated part can match nothing. -/
def Regex.proper : Regex → Bool
  | .empty | .one _ => true
  | .seq a b | .alt a b => a.proper && b.proper
  | .opt _ a => a.proper
  | .star _ a | .plus _ a => !a.nullable && a.proper

/-! ## The trail refuses nothing -/

variable {text : List Char}

/-- No branch point on the trail stands inside the pattern at an address. -/
def Fresh (at_ : Address) (trail : Trail) : Prop :=
  ∀ x ∈ trail, ¬ at_ <:+ x

/-- The trail holds nothing but branch points of an earlier trail, and of the
pattern at an address. -/
def Within (at_ : Address) (trail trail' : Trail) : Prop :=
  ∀ x ∈ trail', x ∈ trail ∨ at_ <:+ x

/-- A continuation that leaves what `K` says, on the trails that can reach
it. -/
def Leaves (at_ : Address) (trail : Trail) (k : Continuation text) (K : Rest) :
    Prop :=
  ∀ d trail', Within at_ trail trail' → (k d trail').map Cursor.rest = K d.rest

theorem suffix_of_cons {n : Nat} {at_ x : Address} (h : n :: at_ <:+ x) :
    at_ <:+ x :=
  (List.suffix_cons n at_).trans h

theorem Fresh.cons {at_ : Address} {trail : Trail} (h : Fresh at_ trail)
    (n : Nat) : Fresh (n :: at_) trail :=
  fun x hx hs => h x hx (suffix_of_cons hs)

/-- No address stands inside itself. -/
theorem not_cons_suffix (n : Nat) (at_ : Address) : ¬ n :: at_ <:+ at_ := by
  intro h
  have := h.length_le
  rw [List.length_cons] at this
  omega

theorem Fresh.push {at_ : Address} {trail : Trail} (h : Fresh at_ trail)
    (n : Nat) : Fresh (n :: at_) (at_ :: trail) := by
  intro x hx hs
  rcases List.mem_cons.1 hx with rfl | hx
  · exact not_cons_suffix n x hs
  · exact h x hx (suffix_of_cons hs)

theorem Fresh.contains {at_ : Address} {trail : Trail} (h : Fresh at_ trail) :
    trail.contains at_ = false := by
  refine Bool.eq_false_iff.2 fun hc => ?_
  exact h at_ (List.contains_iff_mem.1 hc) (List.suffix_refl _)

/-- A branch point that is not on the trail is passed. -/
theorem Fresh.pass {at_ : Address} {trail : Trail} (h : Fresh at_ trail)
    (go : Trail → Option (Cursor text)) :
    pass at_ trail go = go (at_ :: trail) := by
  unfold Pattern.pass
  rw [if_neg (by simp only [h.contains, Bool.false_eq_true, not_false_iff])]

theorem Fresh.after {at_ : Address} {trail trail' : Trail}
    (h : Fresh at_ trail) (hw : Within (0 :: at_) trail trail') :
    Fresh (1 :: at_) trail' := by
  intro x hx hs
  rcases hw x hx with hx | h0
  · exact h x hx (suffix_of_cons hs)
  · obtain ⟨a, rfl⟩ := h0
    obtain ⟨b, hb⟩ := hs
    have := (List.append_inj' hb rfl).2
    simp at this

theorem Within.cons {at_ : Address} {trail trail' : Trail} {n : Nat}
    (h : Within (n :: at_) trail trail') : Within at_ trail trail' :=
  fun x hx => (h x hx).imp id suffix_of_cons

theorem Within.push {at_ : Address} {trail trail' : Trail} {n : Nat}
    (h : Within (n :: at_) (at_ :: trail) trail') : Within at_ trail trail' := by
  intro x hx
  rcases h x hx with hx | hs
  · rcases List.mem_cons.1 hx with rfl | hx
    · exact .inr (List.suffix_refl _)
    · exact .inl hx
  · exact .inr (suffix_of_cons hs)

theorem Within.trans {at_ : Address} {trail trail' trail'' : Trail}
    (h : Within at_ trail trail') (h' : Within at_ trail' trail'') :
    Within at_ trail trail'' := by
  intro x hx
  rcases h' x hx with hx | hs
  · exact h x hx
  · exact .inr hs

theorem within_point (at_ : Address) (trail : Trail) :
    Within at_ trail [at_] := by
  intro x hx
  rw [List.mem_singleton] at hx
  exact .inr (hx ▸ List.suffix_refl _)

theorem within_self_cons (at_ : Address) (trail : Trail) :
    Within at_ trail (at_ :: trail) := by
  intro x hx
  rcases List.mem_cons.1 hx with rfl | hx
  · exact .inr (List.suffix_refl _)
  · exact .inl hx

theorem map_orElse (a b : Option (Cursor text)) :
    (a.orElse fun _ => b).map Cursor.rest
      = (a.map Cursor.rest).or (b.map Cursor.rest) := by
  cases a <;> rfl

theorem map_choose (greed : Greed) (goOn stop : Unit → Option (Cursor text)) :
    (greed.choose goOn stop).map Cursor.rest
      = greed.pick ((goOn ()).map Cursor.rest) ((stop ()).map Cursor.rest) := by
  cases greed with
  | greedy => exact map_orElse (goOn ()) (stop ())
  | reluctant => exact map_orElse (stop ()) (goOn ())

theorem index_lt_iff {c d : Cursor text} :
    c.index < d.index ↔ d.rest.length < c.rest.length := by
  have hc := c.index_add_length_rest
  have hd := d.index_add_length_rest
  omega

/-- What a matcher does to the rest of the text. -/
def Strips (at_ : Address) (m : Matcher text) (f : Rest → Rest) : Prop :=
  ∀ c trail k K, Fresh at_ trail → Leaves at_ trail k K →
    (m c trail k).map Cursor.rest = f K c.rest

theorem afterText_eq_repeatFrom {at_ : Address} {greed : Greed}
    {round : Matcher text} {f : Rest → Rest}
    (hround : Strips (0 :: at_) round f) {trail : Trail}
    {k : Continuation text} {K : Rest} (hk : Leaves at_ trail k K)
    (c : Cursor text) :
    (afterText at_ greed round k c).map Cursor.rest
      = repeatFrom greed f K c.rest := by
  generalize hn : c.rest.length = n
  induction n using Nat.strongRecOn generalizing c with
  | _ n ih =>
    -- Between rounds the trail is cut down to the repetition itself, so nothing
    -- on it stands inside the round.
    have hfresh : Fresh (0 :: at_) [at_] := by
      intro x hx hs
      rw [List.mem_singleton] at hx
      exact not_cons_suffix 0 at_ (hx ▸ hs)
    rw [repeatFrom, afterText, Cursor.keep_eq, map_choose]
    congr 1
    · refine hround c [at_] _ _ hfresh ?_
      intro d _ _
      unfold Cursor.onlyRight
      dsimp only
      by_cases hlt : c.index < d.index
      · rw [if_pos hlt, if_pos (index_lt_iff.1 hlt)]
        exact ih _ (hn ▸ index_lt_iff.1 hlt) d rfl
      · rw [if_neg hlt, if_neg (fun h => hlt (index_lt_iff.2 h))]
        rfl
    · exact hk c [at_] (within_point at_ trail)

theorem rest_of_next? {c d : Cursor text} {ch : Char}
    (h : c.next? = some (ch, d)) : c.rest = ch :: d.rest := by
  obtain ⟨i, r, _, _⟩ := c
  cases r with
  | nil => cases h
  | cons _ _ => cases h; rfl

theorem rest_of_next?_none {c : Cursor text} (h : c.next? = none) :
    c.rest = [] := by
  obtain ⟨i, r, _, _⟩ := c
  cases r with
  | nil => rfl
  | cons _ _ => cases h

/-- The matcher and `strip` agree. -/
theorem run_eq_strip : ∀ (r : Regex), r.proper = true → ∀ at_ : Address,
    Strips at_ (@Regex.run text r at_) r.strip
  | .empty, _, at_ => by
    intro c trail k K _ hk
    exact hk c trail fun x hx => .inl hx
  | .one set, _, at_ => by
    intro c trail k K _ hk
    simp only [Regex.run]
    cases hn : c.next? with
    | none =>
      rw [rest_of_next?_none hn]
      rfl
    | some p =>
      obtain ⟨ch, d⟩ := p
      rw [rest_of_next? hn]
      simp only [Regex.strip]
      split
      · exact hk d [] (by intro x hx; cases hx)
      · rfl
  | .seq a b, hp, at_ => by
    intro c trail k K hf hk
    simp only [Regex.proper, Bool.and_eq_true] at hp
    refine run_eq_strip a hp.1 (0 :: at_) c trail _ _ (hf.cons 0) ?_
    intro d trail' hw
    -- The first part leaves its own branch points on the trail, and no address
    -- is inside both parts.
    refine run_eq_strip b hp.2 (1 :: at_) d trail' k K (hf.after hw) ?_
    intro e trail'' hw'
    exact hk e trail'' (hw.cons.trans hw'.cons)
  | .alt a b, hp, at_ => by
    intro c trail k K hf hk
    simp only [Regex.proper, Bool.and_eq_true] at hp
    simp only [Regex.run, hf.pass, map_orElse, Regex.strip]
    congr 1
    · exact run_eq_strip a hp.1 (0 :: at_) c _ k K (hf.push 0)
        fun d t hw => hk d t hw.push
    · exact run_eq_strip b hp.2 (1 :: at_) c _ k K (hf.push 1)
        fun d t hw => hk d t hw.push
  | .opt greed a, hp, at_ => by
    intro c trail k K hf hk
    simp only [Regex.run, hf.pass, map_choose, Regex.strip]
    congr 1
    · exact run_eq_strip a hp (0 :: at_) c _ k K (hf.push 0)
        fun d t hw => hk d t hw.push
    · exact hk c _ (within_self_cons at_ trail)
  | .star greed a, hp, at_ => by
    intro c trail k K hf hk
    simp only [Regex.proper, Bool.and_eq_true, Bool.not_eq_true'] at hp
    have ih : Strips (0 :: at_) (a.run (0 :: at_)) a.strip :=
      run_eq_strip a hp.2 (0 :: at_)
    simp only [Regex.run, hf.pass, map_choose, hp.1, Bool.false_eq_true,
      if_false, Regex.strip]
    -- A round takes something, so the next one starts from a clean trail.
    congr 1
    · exact ih c _ _ _ (hf.push 0) fun d t _ => afterText_eq_repeatFrom ih hk d
    · exact hk c _ (within_self_cons at_ trail)
  | .plus greed a, hp, at_ => by
    intro c trail k K hf hk
    simp only [Regex.proper, Bool.and_eq_true, Bool.not_eq_true'] at hp
    have ih : Strips (0 :: at_) (a.run (0 :: at_)) a.strip :=
      run_eq_strip a hp.2 (0 :: at_)
    simp only [Regex.run, hp.1, Bool.false_eq_true, if_false, Regex.strip]
    exact ih c _ _ _ (hf.cons 0) fun d t _ => afterText_eq_repeatFrom ih hk d

/-- What is left after the preferred match at the start of a text. -/
theorem drop_matchLength? {r : Regex} (hr : r.proper = true) (s : List Char) :
    (r.matchLength? s).map s.drop = r.strip some s := by
  have h := run_eq_strip r hr [] (Cursor.first s) []
    (fun c _ => some c) some (fun _ hx => nomatch hx) fun _ _ _ => rfl
  rw [← show (Cursor.first s).rest = s from rfl, ← h, Regex.matchLength?,
    Option.map_map]
  congr 1
  funext d
  exact d.rest_eq.symm

/-! ## Sets of characters -/

theorem between_self (a c : Char) :
    (decide (a ≤ c) && decide (c ≤ a)) = decide (c = a) := by
  by_cases h : c = a
  · subst h
    simp
  · have hne : ¬ (a ≤ c ∧ c ≤ a) :=
      fun hle => h (Char.le_antisymm hle.2 hle.1)
    simpa [h] using hne

/-- A greedy repetition of a set takes all of its characters. -/
theorem repeatFrom_one (set : CharSet) (s : List Char) :
    repeatFrom .greedy (Regex.one set).strip some s
      = some (s.dropWhile set.contains) := by
  induction s with
  | nil =>
    rw [repeatFrom]
    rfl
  | cons c t ih =>
    rw [repeatFrom, Regex.strip]
    cases h : set.contains c with
    | true => simp [h, ih, Greed.pick]
    | false => simp [h, Greed.pick]

theorem strip_star_one (set : CharSet) (s : List Char) :
    (Regex.star .greedy (.one set)).strip some s
      = some (s.dropWhile set.contains) := by
  cases s with
  | nil => rfl
  | cons c t =>
    simp only [Regex.strip, repeatFrom_one, Greed.pick]
    cases h : set.contains c with
    | true => simp [h]
    | false => simp [h]

theorem strip_plus_one (set : CharSet) (c : Char) (t : List Char) :
    (Regex.plus .greedy (.one set)).strip some (c :: t)
      = if set.contains c then some (t.dropWhile set.contains) else none := by
  simp only [Regex.strip, repeatFrom_one]

theorem strip_star_one_eq (greed : Greed) (set : CharSet) (k : Rest)
    (s : List Char) : (Regex.star greed (.one set)).strip k s
      = repeatFrom greed (Regex.one set).strip k s := by
  rw [repeatFrom]
  cases s with
  | nil => rfl
  | cons c t => simp [Regex.strip]

/-- Where what follows starts with none of the characters that are repeated, there
is nothing to give back. -/
theorem repeatFrom_one_cut {set : CharSet} {k : Rest}
    (hk : ∀ c t, set.contains c = true → k (c :: t) = none) (s : List Char) :
    repeatFrom .greedy (Regex.one set).strip k s
      = k (s.dropWhile set.contains) := by
  induction s with
  | nil =>
    rw [repeatFrom]
    rfl
  | cons c t ih =>
    rw [repeatFrom, Regex.strip]
    cases h : set.contains c with
    | true => simp [h, ih, Greed.pick, hk c t h]
    | false => simp [h, Greed.pick]

/-- What stands behind the last of some characters. -/
def afterLast (c : Char) : List Char → Option (List Char)
  | [] => none
  | d :: s => (afterLast c s).or (if d = c then some s else none)

theorem strip_single (c d : Char) (k : Rest) (s : List Char) :
    (Regex.one (.single c)).strip k (d :: s) = if d = c then k s else none := by
  simp [Regex.strip, CharSet.contains, CharSet.single, between_self]

/-- A repetition that has to give back ends at the last character that may follow
it. -/
theorem repeatFrom_one_last {set : CharSet} {c : Char} (hc : set.contains c = true)
    {s t : List Char} (hs : ∀ d ∈ s, set.contains d = true)
    (ht : ∀ d ∈ t.head?, set.contains d = false) :
    repeatFrom .greedy (Regex.one set).strip ((Regex.one (.single c)).strip some)
        (s ++ t)
      = (afterLast c s).map (· ++ t) := by
  induction s with
  | nil =>
    rw [List.nil_append, repeatFrom]
    cases t with
    | nil => rfl
    | cons d u =>
      have hd := ht d rfl
      have hne : d ≠ c := by
        rintro rfl
        exact Bool.false_ne_true (hd.symm.trans hc)
      rw [Regex.strip, if_neg (by simp [hd]), strip_single, if_neg hne]
      rfl
  | cons d s ih =>
    obtain ⟨hd, hs⟩ := List.forall_mem_cons.1 hs
    rw [List.cons_append, repeatFrom, Regex.strip, if_pos hd, if_pos (by simp),
      ih hs, strip_single, afterLast, Greed.pick]
    cases afterLast c s with
    | some u => rfl
    | none => split <;> rfl

theorem afterLast_eq_none {c : Char} {s : List Char} :
    afterLast c s = none ↔ c ∉ s := by
  induction s with
  | nil => simp [afterLast]
  | cons d s ih =>
    rw [afterLast, Option.or_eq_none_iff, ih, List.mem_cons, not_or, and_comm]
    refine and_congr_left fun _ => ?_
    by_cases hd : d = c
    · simp [hd]
    · simp [hd, Ne.symm hd]

theorem afterLast_eq_some {c : Char} {s t : List Char}
    (h : afterLast c s = some t) : ∃ m, s = m ++ c :: t ∧ c ∉ t := by
  induction s with
  | nil => cases h
  | cons d s ih =>
    rcases Option.or_eq_some_iff.1 h with h | ⟨hnone, h⟩
    · obtain ⟨m, rfl, ht⟩ := ih h
      exact ⟨d :: m, rfl, ht⟩
    · split at h
      · rename_i hd
        cases h
        exact ⟨[], by rw [hd]; rfl, afterLast_eq_none.1 hnone⟩
      · cases h

theorem afterLast_append (c : Char) (s t : List Char) :
    afterLast c (s ++ t) = (afterLast c t).or ((afterLast c s).map (· ++ t)) := by
  induction s with
  | nil => simp [afterLast]
  | cons d s ih =>
    rw [List.cons_append, afterLast, ih, afterLast, Option.or_assoc]
    congr 1
    cases afterLast c s with
    | some u => rfl
    | none => split <;> rfl

end RubyIndent.Pattern
