import RubyIndent.Proofs.Ruby.Tails

/-!
# Comments and literals that do not matter

Two texts that differ in one comment, or in one quoted literal, are read side by
side. The tokens before it are the same, the comment or literal is one token in
both, and what stands behind is the same again (`Beside`), so whatever goes from
token to token ends alike. Only the patterns that look at a line as it stands can
tell the two apart: those for block parameters, and the test whether the first
bracket of a line is closed on it. Where they have no reason to look into the comment
or literal (`Unseen`), the same line is read (`readLine_beside`).
-/

namespace RubyIndent.Ruby

open RubyIndent.Peg RubyIndent.Text RubyIndent.Pattern

/-! ## Tokens of a line -/

/-- A quoted literal within a line, up to where `e` begins. -/
structure Quoted (w e : List Char) : Prop where
  not_newline : '\n' ∉ w
  ends : dqString (w ++ e) = some e ∨ sqString (w ++ e) = some e

/-- The characters that are no part of a word or sign on a line. -/
def special : List Char :=
  ['\n', '\"', '\'', '\\', '#']

def startMarks : List Char :=
  ['#', '\"', '\'']

/-- What holds of some characters is tested for each of them, and not for all there
are. -/
instance decidableForallMem {p : Char → Prop} [DecidablePred p] (l : List Char) :
    Decidable (∀ c ∈ l, p c) :=
  List.decidableBAll p l

theorem special_of_startMarks : ∀ q ∈ startMarks, q ∈ special := by
  decide

/-- The tokens of a line before any comment. All literals are complete, whatever
stands behind them. -/
inductive Tokens : List Char → Prop where
  | nil : Tokens []
  | char {c : Char} {s : List Char} (hc : c ∉ special) (hs : Tokens s) :
    Tokens (c :: s)
  | escape {c : Char} {s : List Char} (hc : c ≠ '\n') (hs : Tokens s) :
    Tokens ('\\' :: c :: s)
  | quoted {w s : List Char} (hw : ∀ e, Quoted w e) (hs : Tokens s) :
    Tokens (w ++ s)

/-- Two comments up to the end of a line, or two literals, with `e` behind. -/
inductive Exchange : List Char → List Char → List Char → Prop where
  | comment {k k' e : List Char} (hk : '\n' ∉ k) (hk' : '\n' ∉ k')
      (he : AtLineEnd e) : Exchange ('#' :: k) ('#' :: k') e
  | quoted {w w' e : List Char} (hw : Quoted w e) (hw' : Quoted w' e) :
    Exchange w w' e

/-- Block parameters have been opened and not been closed. -/
def ParamsOpen (m : List Char) : Prop :=
  ∃ a o b p, o ∈ ["do", "\x7b"] ∧ Blanks b ∧ '|' ∉ p ∧
    m = a ++ (o.toList ++ (b ++ '|' :: p))

/-- On a line that starts with `m`, nothing is looked for in `w` behind it. If block
parameters are open then `w` does not close them. If the line starts with a bracket
then another one of that kind comes first or `w` has none of that kind in it. If the
bracket is closed in `m` then it is not closed within a literal. -/
structure Unseen (m w : List Char) : Prop where
  params : ParamsOpen m → '|' ∉ w
  bracket : ∀ o c a, (o, c) ∈ brackets → m = o :: a → o ∈ a ∨ o ∉ w ∧ c ∉ w
  closer : ∀ o c b d, (o, c) ∈ brackets → m = o :: (b ++ c :: d) → o ∉ b →
    c ∉ d.takeWhile (· ≠ o) → Tokens d

/-- Bars and brackets are all that is looked for. -/
theorem unseen_of_not_mem {m w : List Char} (hbar : '|' ∉ w)
    (hw : ∀ p ∈ brackets, m.head? = some p.1 → p.1 ∉ w ∧ p.2 ∉ w ∧ p.2 ∉ m) :
    Unseen m w where
  params _ := hbar
  bracket o c a h hm := by
    obtain ⟨ho, hc, _⟩ := hw _ h (congrArg List.head? hm)
    exact .inr ⟨ho, hc⟩
  closer o c b d h hm _ _ := by
    obtain ⟨_, _, hc⟩ := hw _ h (congrArg List.head? hm)
    exact absurd (by simp [hm]) hc

/-- Two texts that are the same, or that go on with one of two texts after the same
start. -/
inductive Beside (P : List Char → Prop) (x y : List Char) :
    List Char → List Char → Prop where
  | behind (s : List Char) : Beside P x y s s
  | before {a : List Char} (ha : P a) : Beside P x y (a ++ x) (a ++ y)

/-! ## What stands at the start of a comment or literal -/

def Marked (x : List Char) : Prop :=
  ∃ q ∈ startMarks, ∃ z, x = q :: z

theorem Quoted.start {w e : List Char} (h : Quoted w e) :
    (∃ z, w = '\"' :: z) ∧ dqString (w ++ e) = some e ∨
      (∃ z, w = '\'' :: z) ∧ sqString (w ++ e) = some e := by
  have start : ∀ {f : Reader} {q : Char} {l : String}, l.toList = [q] →
      Shortens (Reader.next (.literal l) f) →
      Reader.next (.literal l) f (w ++ e) = some e → ∃ z, w = q :: z := by
    intro f q l hl hf hw
    obtain ⟨u, hu, _⟩ := Option.bind_eq_some_iff.1 hw
    have heq := literal_eq_some hu
    rw [hl] at heq
    cases w with
    | nil => exact absurd (hf _ _ hw) (Nat.lt_irrefl _)
    | cons c z => exact ⟨z, by rw [(List.cons.inj heq).1]⟩
  exact h.ends.imp (fun h => ⟨start rfl shortens_dqString h, h⟩)
    fun h => ⟨start rfl shortens_sqString h, h⟩

theorem Quoted.marked {w e : List Char} (h : Quoted w e) : Marked w := by
  rcases h.start with ⟨⟨z, rfl⟩, _⟩ | ⟨⟨z, rfl⟩, _⟩
  · exact ⟨'\"', by decide, z, rfl⟩
  · exact ⟨'\'', by decide, z, rfl⟩

/-- Contents without special characters make a literal, between either quotes. -/
theorem quoted_plain {q : Char} (hq : q ∈ ['\"', '\'']) {k : List Char}
    (hk : ∀ c ∈ k, c ∉ special) (e : List Char) : Quoted (q :: (k ++ [q])) e := by
  have hends : afterDq (k ++ '\"' :: e) = some e ∧
      afterSq (k ++ '\'' :: e) = some e := by
    induction k with
    | nil => exact ⟨by rw [List.nil_append, afterDq], rfl⟩
    | cons c k ih =>
      obtain ⟨hc, hk⟩ := List.forall_mem_cons.1 hk
      simp only [special, List.mem_cons, List.not_mem_nil, or_false, not_or] at hc
      obtain ⟨_, hdq, hsq, hback, hsharp⟩ := hc
      rw [List.cons_append, afterDq_other hdq hback fun _ h => absurd h hsharp,
        List.cons_append, afterSq_other hsq hback]
      exact ih hk
  have hline : '\n' ∉ q :: (k ++ [q]) := by
    have hne : ∀ q ∈ ['\"', '\''], '\n' ≠ q := by decide
    have hcontents : '\n' ∉ k := fun h => hk _ h (by decide)
    simp [hne q hq, hcontents]
  refine ⟨hline, ?_⟩
  rw [List.cons_append, List.append_assoc]
  simp only [List.mem_cons, List.not_mem_nil, or_false] at hq
  rcases hq with rfl | rfl
  · exact .inl hends.1
  · exact .inr hends.2

namespace Exchange

variable {w w' e : List Char}

theorem symm (h : Exchange w w' e) : Exchange w' w e := by
  cases h with
  | comment hk hk' he => exact .comment hk' hk he
  | quoted hw hw' => exact .quoted hw' hw

theorem marked (h : Exchange w w' e) : Marked w := by
  cases h with
  | @comment k _ _ _ _ _ => exact ⟨'#', by decide, k, rfl⟩
  | quoted hw _ => exact hw.marked

theorem not_newline (h : Exchange w w' e) : '\n' ∉ w := by
  cases h with
  | comment hk _ _ => simpa using hk
  | quoted hw _ => exact hw.not_newline

end Exchange

theorem pattern_comment (c : Char) (s : List Char) :
    comment (c :: s) = if c = '#' then some (s.dropWhile (· ≠ '\n')) else none := by
  rw [comment, Reader.pattern, Token.comment, Regex.strip, strip_char,
    Token.noneOf, strip_star_one, contains_not_newline]

/-- A literal is a token, whatever the words are. -/
theorem token_quoted {w e : List Char} (hw : Quoted w e) (word : Reader) :
    token word (w ++ e) = some e := by
  rcases hw.start with ⟨⟨z, rfl⟩, h⟩ | ⟨⟨z, rfl⟩, h⟩
  · change (dqString _).or _ = _
    rw [h]
    rfl
  · change (sqString _).or _ = _
    rw [h]
    rfl

/-- A comment or literal is one token. -/
theorem Exchange.token_eq {w w' e : List Char} (h : Exchange w w' e)
    (word : Reader) : token word (w ++ e) = some e := by
  cases h with
  | quoted hw _ => exact token_quoted hw word
  | @comment k _ _ hk _ he =>
    have hend : e.dropWhile (· ≠ '\n') = e := by
      rcases he with rfl | ⟨t, rfl⟩
      · rfl
      · rfl
    have hcomment : Ruby.comment ('#' :: k ++ e) = some e := by
      rw [List.cons_append, pattern_comment, if_pos rfl, dropWhile_not_newline hk,
        hend]
    change (Ruby.comment _).or _ = _
    rw [hcomment]
    rfl

/-! ## Side by side -/

section

variable {m w w' e : List Char}

/-- Texts that go on with the first or the second of two comments or literals. -/
abbrev Besides (m w w' e : List Char) : List Char → List Char → Prop :=
  Beside (· <:+ m) (w ++ e) (w' ++ e)

/-- The same, where whole tokens stand before it. -/
abbrev BesidesTokens (m w w' e : List Char) : List Char → List Char → Prop :=
  Beside (fun a => a <:+ m ∧ Tokens a) (w ++ e) (w' ++ e)

theorem BesidesTokens.raw {s t : List Char} (h : BesidesTokens m w w' e s t) :
    Besides m w w' e s t := by
  cases h with
  | behind s => exact .behind s
  | before ha => exact .before ha.1

theorem rel_behind {P : List Char → Prop} {x y : List Char}
    (o : Option (List Char)) : Option.Rel (Beside P x y) o o := by
  cases o with
  | none => exact .none
  | some s => exact .some (.behind s)

/-- A word is taken from the start of the line, or from none of the two. -/
theorem rel_literal {l : String} (hl : ∀ q ∈ startMarks, q ∉ l.toList)
    {x y : List Char} (hx : Marked x) (hy : Marked y) (a : List Char) :
    Option.Rel (fun u v => ∃ b, a = l.toList ++ b ∧ u = b ++ x ∧ v = b ++ y)
      (Reader.literal l (a ++ x)) (Reader.literal l (a ++ y)) := by
  unfold Reader.literal
  generalize l.toList = k at hl
  induction k generalizing a with
  | nil => exact .some ⟨a, rfl, rfl, rfl⟩
  | cons c k ih =>
    have hk : ∀ q ∈ startMarks, q ∉ k := fun q hq h =>
      hl q hq (List.mem_cons_of_mem c h)
    cases a with
    | nil =>
      have stuck : ∀ {z : List Char}, Marked z → (c :: k).isPrefixOf? z = none := by
        rintro _ ⟨q, hq, z, rfl⟩
        have hne : c ≠ q := fun h => hl q hq (h ▸ List.mem_cons_self)
        simp [hne]
      rw [List.nil_append, List.nil_append, stuck hx, stuck hy]
      exact .none
    | cons d a =>
      rw [List.cons_append, List.cons_append, isPrefixOf?_cons, isPrefixOf?_cons]
      split
      · rename_i heq
        refine rel_imp (ih a hk) ?_
        rintro _ _ ⟨b, rfl, rfl, rfl⟩
        rw [eq_of_beq heq]
        exact ⟨b, rfl, rfl, rfl⟩
      · exact .none

/-! ## Tails side by side -/

theorem Marked.append {x : List Char} (h : Marked x) (y : List Char) :
    Marked (x ++ y) := by
  obtain ⟨q, hq, z, rfl⟩ := h
  exact ⟨q, hq, z ++ y, rfl⟩

/-- Characters of some kind are skipped up to a comment or literal. -/
theorem dropWhile_marked {p : Char → Bool}
    (hp : ∀ q ∈ startMarks, p q = false) {x : List Char} (hx : Marked x)
    (a : List Char) : (a ++ x).dropWhile p = a.dropWhile p ++ x := by
  obtain ⟨q, hq, z, rfl⟩ := hx
  refine dropWhile_append_stop ?_ a
  rintro _ ⟨⟩
  exact hp q hq

theorem besides_spacing (hx : Exchange w w' e) {s t : List Char}
    (h : Besides m w w' e s t) :
    Besides m w w' e (s.dropWhile isSpacing) (t.dropWhile isSpacing) := by
  cases h with
  | behind s => exact .behind _
  | @before a ha =>
    rw [dropWhile_marked (by decide) (hx.marked.append e),
      dropWhile_marked (by decide) (hx.symm.marked.append e)]
    exact .before (a := a.dropWhile isSpacing) ((List.dropWhile_suffix _).trans ha)

theorem besides_comment (hx : Exchange w w' e) (hm : '\n' ∉ m) {s t : List Char}
    (h : Besides m w w' e s t) :
    Besides m w w' e ((comment s).getD s) ((comment t).getD t) := by
  cases h with
  | behind s => exact .behind _
  | @before a ha =>
    cases a with
    | nil =>
      cases hx with
      | @comment k k' _ hk hk' he =>
        rw [List.nil_append, List.nil_append, List.cons_append, List.cons_append,
          pattern_comment, pattern_comment, if_pos rfl, if_pos rfl,
          dropWhile_not_newline hk, dropWhile_not_newline hk']
        exact .behind _
      | quoted hw hw' =>
        have none : ∀ {w}, Quoted w e → comment (w ++ e) = none := by
          intro w hw
          rcases hw.start with ⟨⟨z, rfl⟩, _⟩ | ⟨⟨z, rfl⟩, _⟩ <;> rfl
        rw [List.nil_append, List.nil_append, none hw, none hw']
        exact .before (a := []) List.nil_suffix
    | cons c a =>
      have hnot : ∀ {w}, '\n' ∉ w → '\n' ∉ a ++ w := by
        intro w hw hmem
        rcases List.mem_append.1 hmem with hmem | hmem
        · exact hm (ha.subset (List.mem_cons_of_mem c hmem))
        · exact hw hmem
      rw [List.cons_append, List.cons_append, pattern_comment, pattern_comment]
      split
      · rw [← List.append_assoc, ← List.append_assoc,
          dropWhile_not_newline (hnot hx.not_newline),
          dropWhile_not_newline (hnot hx.symm.not_newline)]
        exact .behind _
      · exact .before (a := c :: a) ha

/-- A newline is seen on both sides or on none, and it stands behind. -/
theorem rel_newline_besides (hx : Exchange w w' e) (hm : '\n' ∉ m)
    {s t : List Char} (h : Besides m w w' e s t) :
    s = t ∨ newline s = none ∧ newline t = none := by
  cases h with
  | behind s => exact .inl rfl
  | @before a ha =>
    have none : ∀ {z}, Marked z → newline (a ++ z) = none := by
      rintro _ ⟨q, hq, z, rfl⟩
      cases hn : newline (a ++ q :: z) with
      | none => rfl
      | some u =>
        have heq := newline_eq_some hn
        cases a with
        | nil =>
          cases heq
          exact absurd hq (by decide)
        | cons c a =>
          cases heq
          exact absurd (ha.subset List.mem_cons_self) hm
    exact .inr ⟨none (hx.marked.append e), none (hx.symm.marked.append e)⟩

/-- An opener ends both lines or none, and what is left behind it is the same. -/
theorem rel_tail (hx : Exchange w w' e) (hm : '\n' ∉ m) {opener : Reader}
    {s t : List Char}
    (h : Option.Rel (Besides m w w' e) (opener s) (opener t)) :
    Option.Rel Eq (tail opener s) (tail opener t) := by
  refine rel_bind h fun u v huv => ?_
  have hspaced := besides_spacing hx huv
  have hcomment := besides_comment hx hm hspaced
  change Option.Rel Eq (Reader.present newline _) (Reader.present newline _)
  rcases rel_newline_besides hx hm hcomment with heq | ⟨hs, ht⟩
  · rw [heq]
    exact rel_eq _
  · rw [Reader.present, Reader.absent, Reader.absent, hs, Reader.absent,
      Reader.absent, ht]
    exact .none

/-- Characters of a parameter list and what closes it. -/
theorem paramList_append {r z : List Char} (hne : r ≠ [])
    (hr : ∀ c ∈ r, c ≠ '|' ∧ c ≠ '\n') :
    paramList (r ++ z) = Reader.literal "|" (z.dropWhile isParamChar) := by
  have hall : ∀ c ∈ r, isParamChar c = true := fun c hc => by
    simpa [isParamChar] using hr c hc
  cases r with
  | nil => exact absurd rfl hne
  | cons c r =>
    obtain ⟨hc, hr⟩ := List.forall_mem_cons.1 hall
    rw [List.cons_append, paramList, if_pos hc, List.dropWhile_append_of_pos hr]

/-- Block parameters are read alike. If they are not closed before the comment or
literal then they are closed behind it, or not at all. -/
theorem rel_blockParams (hx : Exchange w w' e) (hm : '\n' ∉ m)
    (hseen : Unseen m w) (hseen' : Unseen m w') {o : String}
    (ho : o ∈ ["do", "\x7b"]) {a : List Char} (ha : o.toList ++ a <:+ m) :
    Option.Rel (Besides m w w' e) (blockParams (a ++ (w ++ e)))
      (blockParams (a ++ (w' ++ e))) := by
  have hmarked := hx.marked.append e
  have hmarked' := hx.symm.marked.append e
  have hline : ∀ c ∈ a, c ≠ '\n' := by
    rintro c hc rfl
    exact hm (ha.subset (List.mem_append_right _ hc))
  rw [blockParams, Reader.next, Reader.next, spacing, spacing, Option.bind_some,
    Option.bind_some, dropWhile_marked (by decide) hmarked,
    dropWhile_marked (by decide) hmarked']
  refine rel_bind (rel_literal (by decide) hmarked hmarked' _) ?_
  rintro _ _ ⟨p, hp, rfl, rfl⟩
  have hsplit : a = a.takeWhile isSpacing ++ '|' :: p := by
    change _ = '|' :: p at hp
    rw [← hp, List.takeWhile_append_dropWhile]
  have hp : ∀ c ∈ p, c ≠ '\n' := fun c hc => hline c (by
    rw [hsplit]
    simp [hc])
  by_cases hbar : '|' ∈ p
  · obtain ⟨r, p', rfl, hr⟩ := List.eq_append_cons_of_mem hbar
    rw [List.append_assoc, List.append_assoc]
    cases r with
    | nil => exact .none
    | cons c r =>
      have hrun : ∀ d ∈ c :: r, d ≠ '|' ∧ d ≠ '\n' := fun d hd =>
        ⟨fun heq => hr (heq ▸ hd), hp d (List.mem_append_left _ hd)⟩
      rw [paramList_append (by simp) hrun, paramList_append (by simp) hrun]
      have hsuffix : p' <:+ m := by
        refine List.IsSuffix.trans ?_ ha
        rw [hsplit]
        exact ⟨o.toList ++ (a.takeWhile isSpacing ++ '|' :: (c :: r ++ ['|'])), by
          simp⟩
      exact .some (.before (a := p') hsuffix)
  · -- The parameters are open, so neither text closes them.
    obtain ⟨k, hk⟩ := ha
    have hopen : ParamsOpen m :=
      ⟨k, o, a.takeWhile isSpacing, p, ho, blanks_takeWhile a, hbar, by
        rw [← hsplit, hk]⟩
    have run : ∀ {w}, Marked w → '\n' ∉ w → '|' ∉ w → paramList (p ++ (w ++ e))
        = Reader.literal "|" (e.dropWhile isParamChar) := by
      intro w hmarked hn hw
      rw [← List.append_assoc]
      refine paramList_append ?_ fun c hc => ?_
      · obtain ⟨q, _, z, rfl⟩ := hmarked
        simp
      · rcases List.mem_append.1 hc with hc | hc
        · exact ⟨fun heq => hbar (heq ▸ hc), hp c hc⟩
        · exact ⟨fun heq => hw (heq ▸ hc), fun heq => hn (heq ▸ hc)⟩
    rw [run hx.marked hx.not_newline (hseen.params hopen),
      run hx.symm.marked hx.symm.not_newline (hseen'.params hopen)]
    exact rel_behind _

/-- An opener stands on both sides or on none. -/
theorem rel_openers (hx : Exchange w w' e) (hm : '\n' ∉ m) (hseen : Unseen m w)
    (hseen' : Unseen m w') {s t : List Char} (h : Besides m w w' e s t) :
    Option.Rel (Besides m w w' e) (blockOpener s) (blockOpener t) ∧
      Option.Rel (Besides m w w' e) (Reader.pattern Token.openBracket s)
        (Reader.pattern Token.openBracket t) := by
  cases h with
  | behind s => exact ⟨rel_behind _, rel_behind _⟩
  | @before a ha =>
    have hmarked := hx.marked.append e
    have hmarked' := hx.symm.marked.append e
    have opened : ∀ {l : String}, (∀ q ∈ startMarks, q ∉ l.toList) →
        Option.Rel (Besides m w w' e) (Reader.literal l (a ++ (w ++ e)))
          (Reader.literal l (a ++ (w' ++ e))) := by
      intro l hl
      refine rel_imp (rel_literal hl hmarked hmarked' a) ?_
      rintro _ _ ⟨b, rfl, rfl, rfl⟩
      exact .before (a := b) ((List.suffix_append _ _).trans ha)
    have params : ∀ {l : String} {f : Reader}, l ∈ ["do", "\x7b"] →
        (∀ q ∈ startMarks, q ∉ l.toList) →
        (∀ b, b <:+ m → Option.Rel (Besides m w w' e) (f (b ++ (w ++ e)))
          (f (b ++ (w' ++ e)))) →
        Option.Rel (Besides m w w' e)
          ((Reader.literal l (a ++ (w ++ e))).bind fun t => (blockParams t).or (f t))
          ((Reader.literal l (a ++ (w' ++ e))).bind
            fun t => (blockParams t).or (f t)) := by
      intro l f hmem hl hf
      refine rel_bind (rel_literal hl hmarked hmarked' a) ?_
      rintro _ _ ⟨b, rfl, rfl, rfl⟩
      exact rel_or (rel_blockParams hx hm hseen hseen' hmem ha)
        (hf b ((List.suffix_append _ _).trans ha))
    constructor
    · refine rel_or ?_ ?_
      · rw [pattern_doBlock, pattern_doBlock]
        exact params (f := some) (by decide) (by decide)
          fun b hb => .some (.before (a := b) hb)
      · rw [pattern_braceBlock, pattern_braceBlock]
        have h := params (l := "\x7b") (f := fun _ => none) (by decide) (by decide)
          fun _ _ => .none
        simpa only [Option.or_none] using h
    · rw [pattern_openBracket, pattern_openBracket]
      exact rel_or (opened (by decide)) (opened (by decide))

theorem rel_anyTail (hx : Exchange w w' e) (hm : '\n' ∉ m) (hseen : Unseen m w)
    (hseen' : Unseen m w') {s t : List Char} (h : Besides m w w' e s t) :
    Option.Rel Eq (anyTail s) (anyTail t) :=
  rel_or (rel_tail hx hm (rel_openers hx hm hseen hseen' h).1)
    (rel_tail hx hm (rel_openers hx hm hseen hseen' h).2)

theorem Marked.avoids {r : Regex}
    (hr : ∀ q ∈ startMarks, Peg.avoids q r = true) {x : List Char}
    (hx : Marked x) : ∀ c ∈ x.head?, Peg.avoids c r = true := by
  obtain ⟨q, hq, z, rfl⟩ := hx
  intro c hc
  rw [← Option.mem_some_iff.1 hc]
  exact hr q hq

/-- A pattern is found before a comment or literal on both sides or on none. -/
theorem isSome_pattern (hx : Exchange w w' e) {p : Pattern}
    (hp : ∀ q ∈ startMarks, avoids q p.regex = true) {a : List Char}
    (ha : '\n' ∉ a) : (Reader.pattern p (a ++ (w ++ e))).isSome
      = (Reader.pattern p (a ++ (w' ++ e))).isSome :=
  rel_isSome (rel_pattern_line ((hx.marked.append e).avoids hp)
    ((hx.symm.marked.append e).avoids hp) ha)

theorem isSome_leadStop (hx : Exchange w w' e) (hm : '\n' ∉ m)
    (hseen : Unseen m w) (hseen' : Unseen m w') {s t : List Char}
    (h : Besides m w w' e s t) : (leadStop s).isSome = (leadStop t).isSome := by
  have htail := rel_isSome (rel_anyTail hx hm hseen hseen' h)
  rw [leadStop, Reader.orElse, Reader.orElse, Option.isSome_or, Option.isSome_or,
    htail]
  congr 1
  cases h with
  | behind s => rfl
  | @before a ha =>
    exact isSome_pattern hx (by decide) fun h => hm (ha.subset h)

/-! ## Tokens side by side -/

theorem Tokens.not_newline {s : List Char} (h : Tokens s) : '\n' ∉ s := by
  induction h with
  | nil => exact List.not_mem_nil
  | char hc _ ih =>
    rintro (_ | ⟨_, hmem⟩)
    · exact hc (by decide)
    · exact ih hmem
  | escape hc _ ih =>
    rintro (_ | ⟨_, _ | ⟨_, hmem⟩⟩)
    · exact hc rfl
    · exact ih hmem
  | quoted hw _ ih =>
    exact fun hmem => (List.mem_append.1 hmem).elim (hw []).not_newline ih

theorem Tokens.tail {c : Char} {s : List Char} (h : Tokens (c :: s))
    (hc : c ∉ special) : Tokens s := by
  generalize hx : c :: s = x at h
  cases h with
  | nil => cases hx
  | char _ hs =>
    cases hx
    exact hs
  | escape _ _ =>
    cases hx
    exact absurd (by decide) hc
  | quoted hw _ =>
    obtain ⟨q, hq, z, rfl⟩ := (hw []).marked
    cases hx
    exact absurd (special_of_startMarks _ hq) hc

theorem Tokens.of_append {r s : List Char} (h : Tokens (r ++ s))
    (hr : ∀ c ∈ r, c ∉ special) : Tokens s := by
  induction r with
  | nil => exact h
  | cons c r ih =>
    obtain ⟨hc, hr⟩ := List.forall_mem_cons.1 hr
    exact ih (Tokens.tail h hc) hr

theorem not_special_of_word {c : Char} (h : isWordChar c = true) : c ∉ special := by
  intro hmem
  have hnone : ∀ c ∈ special, isWordChar c = false := by decide
  cases h.symm.trans (hnone c hmem)

/-- A token is taken on both sides. Where it is a word or sign, that is up to the
reader of words. -/
theorem rel_token (hx : Exchange w w' e) {word : Reader}
    (hword : ∀ c a, c ∉ special → c :: a <:+ m → Tokens a →
      Option.Rel (BesidesTokens m w w' e) (word (c :: (a ++ (w ++ e))))
        (word (c :: (a ++ (w' ++ e)))))
    {s t : List Char} (h : BesidesTokens m w w' e s t) :
    Option.Rel (BesidesTokens m w w' e) (token word s) (token word t) := by
  cases h with
  | behind s => exact rel_behind _
  | before ha =>
    obtain ⟨hsuffix, htokens⟩ := ha
    cases htokens with
    | nil =>
      rw [List.nil_append, List.nil_append, hx.token_eq, hx.symm.token_eq]
      exact .some (.behind e)
    | @char c a hc hs =>
      have hne : c ≠ '\\' ∧ c ≠ '#' ∧ c ≠ '\"' ∧ c ≠ '\'' := by
        refine ⟨?_, ?_, ?_, ?_⟩ <;> rintro rfl <;> exact hc (by decide)
      rw [List.cons_append, List.cons_append, token_word hne, token_word hne]
      exact hword c a hc hsuffix hs
    | @escape c a hc hs =>
      have htoken : ∀ x, token word ('\\' :: c :: x) = some x := by
        intro x
        have hescape : Reader.pattern Token.escape ('\\' :: c :: x) = some x := by
          rw [Reader.pattern, Token.escape, Regex.strip, strip_char, if_pos rfl,
            Token.noneOf, Regex.strip, contains_noneOf]
          simp [Token.only, between_self, hc]
        rw [token, Reader.orElse, hescape, Option.some_or]
      rw [List.cons_append, List.cons_append, List.cons_append, List.cons_append,
        htoken, htoken]
      exact .some (.before (a := a)
        ⟨((List.suffix_cons _ _).trans (List.suffix_cons _ _)).trans hsuffix, hs⟩)
    | @quoted v a hv hs =>
      rw [List.append_assoc, List.append_assoc, token_quoted (hv _),
        token_quoted (hv _)]
      exact .some (.before (a := a) ⟨(List.suffix_append _ _).trans hsuffix, hs⟩)

/-- A word or sign is taken on both sides, where the readers before which it has to
stop agree. -/
theorem rel_wordBefore (hx : Exchange w w' e) {stop : Reader}
    (hstop : ∀ s t, Besides m w w' e s t → (stop s).isSome = (stop t).isSome)
    (c : Char) (a : List Char) (hc : c ∉ special) (hsuffix : c :: a <:+ m)
    (ha : Tokens a) :
    Option.Rel (BesidesTokens m w w' e)
      (wordBefore stop (c :: (a ++ (w ++ e))))
      (wordBefore stop (c :: (a ++ (w' ++ e)))) := by
  have hsuffix' : a <:+ m := (List.suffix_cons c a).trans hsuffix
  have hsome : (stop (c :: (a ++ (w ++ e)))).isSome
      = (stop (c :: (a ++ (w' ++ e)))).isSome :=
    hstop _ _ (.before (a := c :: a) hsuffix)
  rw [wordBefore, Reader.next, Reader.next, Reader.absent, Reader.absent, hsome]
  split
  · exact .none
  rw [Option.bind_some, Option.bind_some, pattern_wordOrChar, pattern_wordOrChar]
  cases hword : isWordChar c with
  | true =>
    rw [if_pos rfl, if_pos rfl,
      dropWhile_marked (by decide) (hx.marked.append e),
      dropWhile_marked (by decide) (hx.symm.marked.append e)]
    refine .some (.before (a := a.dropWhile isWordChar)
      ⟨(List.dropWhile_suffix _).trans hsuffix', ?_⟩)
    refine Tokens.of_append (r := a.takeWhile isWordChar) ?_ fun d hd =>
      not_special_of_word (List.mem_takeWhile_imp hd)
    rwa [List.takeWhile_append_dropWhile]
  | false =>
    have hne : ¬ (c = '\n' ∨ c = '\"' ∨ c = '\'') := by
      rintro (rfl | rfl | rfl) <;> exact hc (by decide)
    rw [if_neg Bool.false_ne_true, if_neg hne, if_neg Bool.false_ne_true,
      if_neg hne]
    exact .some (.before (a := a) ⟨hsuffix', ha⟩)

/-- Tokens are skipped on both sides. -/
theorem besides_skipAll (hx : Exchange w w' e) {stop : Reader}
    (hstop : ∀ s t, Besides m w w' e s t → (stop s).isSome = (stop t).isSome)
    {s t : List Char} (h : BesidesTokens m w w' e s t) :
    BesidesTokens m w w' e (Reader.skipAll (token (wordBefore stop)) s)
      (Reader.skipAll (token (wordBefore stop)) t) :=
  rel_skipAll (fun _ _ h => rel_token hx (rel_wordBefore hx hstop) h)
    (shortens_token (shortens_wordBefore _)) h

/-! ## The start of a line -/

/-- A word without special characters is taken from whole tokens. -/
theorem rel_literal_tokens (hx : Exchange w w' e) {l : String}
    (hl : ∀ c ∈ special, c ∉ l.toList) {a : List Char} (hsuffix : a <:+ m)
    (ha : Tokens a) :
    Option.Rel (fun u v => ∃ b, (b <:+ m ∧ Tokens b) ∧ u = b ++ (w ++ e) ∧
      v = b ++ (w' ++ e)) (Reader.literal l (a ++ (w ++ e)))
      (Reader.literal l (a ++ (w' ++ e))) := by
  have hmarks : ∀ q ∈ startMarks, q ∉ l.toList := fun q hq =>
    hl q (special_of_startMarks q hq)
  refine rel_imp (rel_literal hmarks (hx.marked.append e)
    (hx.symm.marked.append e) a) ?_
  rintro _ _ ⟨b, rfl, rfl, rfl⟩
  exact ⟨b, ⟨(List.suffix_append _ _).trans hsuffix,
    ha.of_append fun c hc hmem => hl c hmem hc⟩, rfl, rfl⟩

theorem rel_keyword (hx : Exchange w w' e) {l : String}
    (hl : ∀ c ∈ special, c ∉ l.toList) {a : List Char} (hsuffix : a <:+ m)
    (ha : Tokens a) :
    Option.Rel (BesidesTokens m w w' e) (keyword l (a ++ (w ++ e)))
      (keyword l (a ++ (w' ++ e))) := by
  refine rel_bind (rel_literal_tokens hx hl hsuffix ha) ?_
  rintro _ _ ⟨b, hb, rfl, rfl⟩
  have hmarked := hx.marked.append e
  have hmarked' := hx.symm.marked.append e
  have colon : ∀ b, Option.Rel (fun u v => ∃ b, u = b ++ (w ++ e) ∧
      v = b ++ (w' ++ e)) (Reader.literal ":" (b ++ (w ++ e)))
      (Reader.literal ":" (b ++ (w' ++ e))) := fun b =>
    rel_imp (rel_literal (by decide) hmarked hmarked' b) fun _ _ ⟨c, _, hu, hv⟩ =>
      ⟨c, hu, hv⟩
  refine rel_bind (rel_absent (R := fun u v => u = b ++ (w ++ e) ∧
    v = b ++ (w' ++ e)) ?_ ⟨rfl, rfl⟩) ?_
  · exact isSome_pattern hx (by decide) hb.2.not_newline
  · rintro _ _ ⟨rfl, rfl⟩
    refine rel_absent (rel_isSome (rel_bind (colon b) (S := fun _ _ => True) ?_))
      (.before hb)
    rintro _ _ ⟨c, rfl, rfl⟩
    exact rel_absent (rel_isSome (colon c)) trivial

theorem rel_keywords (hx : Exchange w w' e) {words : List String}
    (hwords : ∀ l ∈ words, ∀ c ∈ special, c ∉ l.toList) {a : List Char}
    (hsuffix : a <:+ m) (ha : Tokens a) :
    Option.Rel (BesidesTokens m w w' e) (keywords words (a ++ (w ++ e)))
      (keywords words (a ++ (w' ++ e))) := by
  induction words with
  | nil => exact .none
  | cons l words ih =>
    obtain ⟨hl, hwords⟩ := List.forall_mem_cons.1 hwords
    exact rel_or (rel_keyword hx hl hsuffix ha) (ih hwords)

/-- A line that starts with no bracket closes none. -/
theorem opening_of_no_bracket (hm : ∀ o c a, (o, c) ∈ brackets → m ≠ o :: a)
    {x : List Char} (hx : Marked x) : opening .bracketSameLine (m ++ x) = none := by
  obtain ⟨q, hq, z, rfl⟩ := hx
  have other : ∀ {d s}, (∀ p ∈ brackets, d ≠ p.1) →
      opening .bracketSameLine (d :: s) = none := by
    intro d s h
    have hsquare := h ('[', ']') (by decide)
    have hbrace := h ('\x7b', '\x7d') (by decide)
    simp [opening, Reader.orElse, Reader.next, Reader.literal, Ne.symm hsquare,
      Ne.symm hbrace]
  cases m with
  | nil =>
    refine other fun p hp => ?_
    rintro rfl
    have hall : ∀ p ∈ brackets, p.1 ∉ startMarks := by decide
    exact hall p hp hq
  | cons d a =>
    refine other fun p hp => ?_
    rintro rfl
    exact hm p.1 p.2 a hp rfl

/-- The end of the first bracket, where no other one of its kind opens before or
within the comment or literal, and none closes within it. -/
theorem opening_before {o c : Char} (h : (o, c) ∈ brackets) {a w r t : List Char}
    (hrun : ∀ d ∈ a ++ (w ++ r), d ≠ o ∧ d ≠ '\n')
    (hstop : ∀ d ∈ t.head?, d = o ∨ d = '\n') (hw : c ∉ w) :
    opening .bracketSameLine (o :: (a ++ (w ++ (r ++ t))))
      = ((afterLast c r).map (· ++ t)).or
        ((afterLast c a).map (· ++ (w ++ (r ++ t)))) := by
  have hsplit : a ++ (w ++ (r ++ t)) = (a ++ (w ++ r)) ++ t := by simp
  rw [hsplit, opening_bracketSameLine h hrun hstop, afterLast_append,
    afterLast_append, afterLast_eq_none.2 hw, Option.map_none, Option.or_none]
  cases afterLast c r with
  | some d => rfl
  | none =>
    rw [Option.none_or, Option.map_map, Option.map_none, Option.none_or]
    congr 1
    funext d
    simp

/-- What is left behind the bracket that closes the first one, within `r`, is made of
whole tokens. -/
theorem rel_closed {o c : Char} (h : (o, c) ∈ brackets) {r a : List Char}
    (hseen : Unseen (o :: (r ++ a)) w) (hr : o ∉ r) (ha : ∀ y ∈ a.head?, y = o) :
    Option.Rel (BesidesTokens (o :: (r ++ a)) w w' e)
      ((afterLast c r).map (· ++ (a ++ (w ++ e))))
      ((afterLast c r).map (· ++ (a ++ (w' ++ e)))) := by
  cases hlast : afterLast c r with
  | none => exact .none
  | some d =>
    obtain ⟨b, rfl, hc⟩ := afterLast_eq_some hlast
    simp only [List.mem_append, List.mem_cons, not_or] at hr
    obtain ⟨hb, _, hd⟩ := hr
    have hpass : ∀ y ∈ d, decide (y ≠ o) = true := fun y hy =>
      decide_eq_true fun heq => hd (heq ▸ hy)
    have hrun : (d ++ a).takeWhile (· ≠ o) = d := by
      rw [List.takeWhile_append_of_pos hpass]
      cases a with
      | nil => simp
      | cons y a => simp [ha y rfl]
    have htokens : Tokens (d ++ a) :=
      hseen.closer o c b (d ++ a) h (by simp) hb (by rwa [hrun])
    have hpair : BesidesTokens (o :: (b ++ c :: d ++ a)) w w' e (d ++ a ++ (w ++ e))
        (d ++ a ++ (w' ++ e)) := .before ⟨⟨o :: (b ++ [c]), by simp⟩, htokens⟩
    rw [List.append_assoc d, List.append_assoc d] at hpair
    exact .some hpair

/-- The first bracket of the line is closed alike. -/
theorem rel_bracketSameLine (hx : Exchange w w' e) (hm : Tokens m)
    (hseen : Unseen m w) (hseen' : Unseen m w') :
    Option.Rel (BesidesTokens m w w' e)
      (opening .bracketSameLine (m ++ (w ++ e)))
      (opening .bracketSameLine (m ++ (w' ++ e))) := by
  by_cases hstart : ∃ o c a, (o, c) ∈ brackets ∧ m = o :: a
  · obtain ⟨o, c, a, h, rfl⟩ := hstart
    have hne : ∀ d ∈ a, d ≠ '\n' := by
      rintro d hd rfl
      exact hm.not_newline (List.mem_cons_of_mem o hd)
    rw [List.cons_append, List.cons_append]
    by_cases ho : o ∈ a
    · -- Another bracket of that kind is where the search for the end stops.
      obtain ⟨r, a, rfl, hr⟩ := List.eq_append_cons_of_mem ho
      have hopening : ∀ x, opening .bracketSameLine (o :: (r ++ o :: a ++ x))
          = (afterLast c r).map (· ++ (o :: a ++ x)) := by
        intro x
        rw [List.append_assoc]
        refine opening_bracketSameLine h (fun d hd => ⟨?_, ?_⟩) (by simp)
        · rintro rfl
          exact hr hd
        · exact hne d (List.mem_append_left _ hd)
      rw [hopening, hopening]
      exact rel_closed h hseen hr (by simp)
    · -- The search goes on behind the comment or literal.
      obtain ⟨r, t, rfl, hr, ht⟩ := exists_run o e
      have hopening : ∀ {w}, '\n' ∉ w → o ∈ a ∨ o ∉ w ∧ c ∉ w →
          opening .bracketSameLine (o :: (a ++ (w ++ (r ++ t))))
            = ((afterLast c r).map (· ++ t)).or
              ((afterLast c a).map (· ++ (w ++ (r ++ t)))) := by
        intro w hn hw
        obtain ⟨how, hcw⟩ := hw.resolve_left ho
        refine opening_before h (fun d hd => ?_) ht hcw
        rcases List.mem_append.1 hd with hd | hd
        · exact ⟨fun heq => ho (heq ▸ hd), hne d hd⟩
        rcases List.mem_append.1 hd with hd | hd
        · exact ⟨fun heq => how (heq ▸ hd), fun heq => hn (heq ▸ hd)⟩
        · exact hr d hd
      rw [hopening hx.not_newline (hseen.bracket o c a h rfl),
        hopening hx.symm.not_newline (hseen'.bracket o c a h rfl)]
      rw [← List.append_nil a] at hseen ⊢
      refine rel_or (rel_behind _) ?_
      simpa using rel_closed h hseen ho (by simp)
  · have hnone : ∀ o c a, (o, c) ∈ brackets → m ≠ o :: a := fun o c a h hm =>
      hstart ⟨o, c, a, h, hm⟩
    rw [opening_of_no_bracket hnone (hx.marked.append e),
      opening_of_no_bracket hnone (hx.symm.marked.append e)]
    exact .none

/-- The start of a line is read alike, for each shape that shows there. -/
theorem rel_opening (hx : Exchange w w' e) (hm : Tokens m) (hseen : Unseen m w)
    (hseen' : Unseen m w') (shape : LineShape) :
    Option.Rel (BesidesTokens m w w' e) (opening shape (m ++ (w ++ e)))
      (opening shape (m ++ (w' ++ e))) := by
  have word : ∀ {l : String}, (∀ c ∈ special, c ∉ l.toList) →
      Option.Rel (BesidesTokens m w w' e) (Reader.literal l (m ++ (w ++ e)))
        (Reader.literal l (m ++ (w' ++ e))) := by
    intro l hl
    refine rel_imp (rel_literal_tokens hx hl (List.suffix_refl m) hm) ?_
    rintro _ _ ⟨b, hb, rfl, rfl⟩
    exact .before hb
  cases shape with
  | indentOpen | dual =>
    exact rel_keywords hx (by decide) (List.suffix_refl m) hm
  | outdent => exact rel_keyword hx (by decide) (List.suffix_refl m) hm
  | bracketSameLine => exact rel_bracketSameLine hx hm hseen hseen'
  | bracketOpen | bracketClose =>
    exact rel_or (word (by decide)) (word (by decide))
  | blockOpener | bracketTail | heredocIntro | plain => exact .none

/-! ## Whole lines -/

/-- A line of a shape other than heredocs is read on both sides or on none, and what
is left behind it is the same. -/
theorem rel_lineOf_exchange (hx : Exchange w w' e) (hm : Tokens m)
    (hseen : Unseen m w) (hseen' : Unseen m w') (shape : LineShape) :
    Option.Rel Eq (lineOf shape (m ++ (w ++ e)))
      (lineOf shape (m ++ (w' ++ e))) := by
  have hline := hm.not_newline
  have hstart : BesidesTokens m w w' e (m ++ (w ++ e)) (m ++ (w' ++ e)) :=
    .before ⟨List.suffix_refl m, hm⟩
  have htail : ∀ s t, Besides m w w' e s t →
      (anyTail s).isSome = (anyTail t).isSome := fun s t h =>
    rel_isSome (rel_anyTail hx hline hseen hseen' h)
  have hlead : ∀ s t, Besides m w w' e s t →
      (leadStop s).isSome = (leadStop t).isSome := fun s t =>
    isSome_leadStop hx hline hseen hseen'
  have ended : ∀ {s t}, BesidesTokens m w w' e s t →
      Option.Rel Eq (newline s) (newline t) := by
    intro s t h
    rcases rel_newline_besides hx hline h.raw with rfl | ⟨hs, ht⟩
    · exact rel_eq _
    · rw [hs, ht]
      exact .none
  have opened : Option.Rel Eq
      (Reader.next (opening shape) (.next upToTail newline) (m ++ (w ++ e)))
      (Reader.next (opening shape) (.next upToTail newline) (m ++ (w' ++ e))) :=
    rel_bind (rel_opening hx hm hseen hseen' shape) fun _ _ h =>
      ended (besides_skipAll hx htail h)
  have hstop := rel_openers hx hline hseen hseen'
    (besides_skipAll hx hlead hstart).raw
  have closed : ∀ {f : Reader} {s t}, Option.Rel Eq (tail f s) (tail f t) →
      Option.Rel Eq ((tail f s).bind newline) ((tail f t).bind newline) :=
    fun h => rel_bind h fun u v huv => huv ▸ rel_eq _
  cases shape with
  | indentOpen | outdent | dual | bracketSameLine | bracketOpen | bracketClose =>
    exact opened
  | blockOpener => exact closed (rel_tail hx hline hstop.1)
  | bracketTail => exact closed (rel_tail hx hline hstop.2)
  | heredocIntro => exact .none
  | plain =>
    exact ended (@besides_skipAll m w w' e hx (fun _ => none) (fun _ _ _ => rfl) _ _
      hstart)

/-! ## Heredocs -/

/-- A pattern without special characters takes the same part of whole tokens. -/
theorem rel_pattern_tokens (hx : Exchange w w' e) {p : Pattern}
    (hp : ∀ c ∈ special, avoids c p.regex = true) {s t : List Char}
    (h : BesidesTokens m w w' e s t) :
    Option.Rel (fun u v => taken s u = taken t v ∧ BesidesTokens m w w' e u v)
      (Reader.pattern p s) (Reader.pattern p t) := by
  cases h with
  | behind s => exact rel_imp (rel_eq _) fun u v huv => huv ▸ ⟨rfl, .behind u⟩
  | @before a ha =>
    obtain ⟨hsuffix, htokens⟩ := ha
    have hmarks : ∀ q ∈ startMarks, avoids q p.regex = true := fun q hq =>
      hp q (special_of_startMarks q hq)
    refine rel_imp (rel_pattern_line ((hx.marked.append e).avoids hmarks)
      ((hx.symm.marked.append e).avoids hmarks) htokens.not_newline) ?_
    rintro _ _ ⟨n, b, rfl, hn, rfl, rfl⟩
    have hplain : ∀ c ∈ n, c ∉ special := fun c hc hspecial => by
      cases (hn c hc).symm.trans (hp c hspecial)
    refine ⟨?_, .before ⟨(List.suffix_append n b).trans hsuffix,
      htokens.of_append hplain⟩⟩
    rw [List.append_assoc, List.append_assoc, taken_append_self, taken_append_self]

/-- A heredoc is introduced on both sides or on none, with the same label. -/
theorem rel_readHead_exchange (hx : Exchange w w' e) (hm : Tokens m)
    (hseen : Unseen m w) (hseen' : Unseen m w') :
    Option.Rel (fun h h' => h.label = h'.label ∧ h.opens = h'.opens ∧
      Besides m w w' e h.rest h'.rest)
      (readHead (m ++ (w ++ e))) (readHead (m ++ (w' ++ e))) := by
  have hline := hm.not_newline
  have htail : ∀ {s t}, Besides m w w' e s t →
      Option.Rel Eq (anyTail s) (anyTail t) := rel_anyTail hx hline hseen hseen'
  have hstart := besides_skipAll hx (fun _ _ => isSome_leadStop hx hline hseen hseen')
    (.before (a := m) ⟨List.suffix_refl m, hm⟩)
  refine rel_bind (rel_pattern_tokens hx (by decide) hstart) fun s t hst => ?_
  refine rel_bind (rel_pattern_tokens hx (by decide) hst.2) ?_
  rintro u v ⟨hlabel, huv⟩
  have hrest := besides_skipAll hx (fun _ _ h => rel_isSome (htail h)) huv
  have hopens := htail hrest.raw
  refine .some ⟨congrArg String.ofList hlabel, rel_isSome hopens, ?_⟩
  exact rel_getD (rel_imp hopens fun u v huv => huv ▸ .behind u) hrest.raw

/-- The same heredoc is read on both sides, up to its introducing line. -/
theorem rel_readHeredoc_exchange (hx : Exchange w w' e) (hm : Tokens m)
    (hseen : Unseen m w) (hseen' : Unseen m w') :
    Option.Rel Eq (readHeredoc (m ++ (w ++ e))) (readHeredoc (m ++ (w' ++ e))) := by
  refine rel_bind (rel_readHead_exchange hx hm hseen hseen') ?_
  rintro ⟨label, opens, rest⟩ ⟨label', opens', rest'⟩ ⟨hlabel, hopens, hrest⟩
  dsimp only at hlabel hopens hrest
  subst hlabel hopens
  rcases rel_newline_besides hx hm.not_newline hrest with rfl | ⟨hs, ht⟩
  · exact rel_eq _
  · rw [readBody, readBody, hs, ht]
    exact .none

/-! ## Logical lines -/

/-- Lines of one shape that change the depth alike, with the same text behind. -/
structure SameEffect (p q : LogicalLine × List Char) : Prop where
  shape : p.1.shape = q.1.shape
  rise : p.1.rise = q.1.rise
  rest : p.2 = q.2

theorem readLine_beside (hx : Exchange w w' e) (hm : Tokens m)
    (hseen : Unseen m w) (hseen' : Unseen m w') :
    Option.Rel SameEffect (readLine (m ++ (w ++ e)))
      (readLine (m ++ (w' ++ e))) := by
  refine rel_findSome? (fun shape => ?_) LineShape.all
  by_cases hshape : shape = .heredocIntro
  · subst hshape
    refine rel_map (rel_readHeredoc_exchange hx hm hseen hseen') ?_
    rintro d _ _ _ rfl
    exact ⟨rfl, rfl, rfl⟩
  · rw [readAs_of_ne hshape, readAs_of_ne hshape]
    exact rel_map (rel_lineOf_exchange hx hm hseen hseen' shape)
      fun _ _ _ _ hrest => ⟨rfl, rfl, hrest⟩

end

end RubyIndent.Ruby
